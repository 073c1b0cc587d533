import Declass.Proofs.Printing
import Declass.Proofs.StateEntries

/-!
# Printed object literals

**Input.** Fields with an identifier as key and a fragment as value.  A value may hold brackets,
strings, comments and markup of its own, but no comma of code outside its brackets.

**Algorithm.** `FieldSource.printAll` writes the fields as one object literal, with a space inside
the braces and commas between the fields.

**Results.** `StateModel.build_printed`: the state model of the literal has the keys in order of
first occurrence, each with the value written last, and one warning for each key that occurs again.
-/

namespace Declass

open Scan CodeMap
open Slot (width)
open Slot (LiesAt width_append width_cons)
open Text (asCode isBlank join size size_nil width_asCode)

section Walking

variable {m : CodeMap} {ps qs : Painted} {i d d' : Nat} {sep : Char}

/-- No `sep` of code stands among the characters outside all brackets, of which `d` are open before
them. -/
def Quiet (sep : Char) (d : Nat) (qs : List (Char × Kind)) : Prop :=
  ∀ pre post, qs = pre ++ (sep, .code) :: post → depthAfter? pre d ≠ some 0

theorem quiet_iff : Quiet sep d qs ↔
    ∀ i < qs.length, qs[i]? = some (sep, .code) → depthAfter? (qs.take i) d ≠ some 0 := by
  constructor
  · intro h i hi hsep
    refine h (qs.take i) (qs.drop (i + 1)) ?_
    rw [← (List.getElem?_eq_some_iff.mp hsep).2, ← List.drop_eq_getElem_cons hi,
      List.take_append_drop]
  · rintro h pre post rfl
    simpa using h pre.length (by simp) (by simp)

instance : Decidable (Quiet sep d qs) := decidable_of_iff _ quiet_iff.symm

theorem Quiet.tail {p : Char × Kind} (h : Quiet sep d (p :: qs))
    (hp : depthAfter? [p] d = some d') : Quiet sep d' qs := by
  intro pre post hqs
  have := h (p :: pre) post (by simp [hqs])
  rwa [← List.singleton_append, depthAfter?_append, hp] at this

theorem Quiet.append {rs : Painted} (h : Quiet sep d qs)
    (hqs : depthAfter? qs d = some d') (h' : Quiet sep d' rs) : Quiet sep d (qs ++ rs) := by
  induction qs generalizing d with
  | nil =>
    obtain rfl := Option.some.inj hqs
    exact h'
  | cons p qs ih =>
    rw [← List.singleton_append, depthAfter?_append] at hqs
    obtain ⟨e, he, hqs⟩ := Option.bind_eq_some_iff.mp hqs
    have hrest := ih (h.tail he) hqs
    rintro (_ | ⟨q, pre⟩) post heq
    · obtain ⟨rfl, -⟩ := List.cons.inj heq
      exact h [] qs rfl
    · obtain ⟨rfl, hrs⟩ := List.cons.inj heq
      rw [← List.singleton_append, depthAfter?_append, he]
      exact hrest pre post hrs

theorem quiet_of_not_mem (h : (sep, Kind.code) ∉ qs) : Quiet sep d qs := by
  rintro pre post rfl
  exact absurd (by simp) h

variable (hm : m.Shows ps)
include hm

theorem outerFrom_of_character {c : Char} {k : Kind} (h : LiesAt ps i ((c, k) :: qs))
    (hopens : Slot.opens ⟨some c, k⟩ = false) (hcloses : Slot.closes ⟨some c, k⟩ = false)
    (hsep : d = 0 → (c, k) ≠ (sep, .code)) (count : Nat) :
    m.outerFrom (m.isCodeChar · sep) (c.utf8Size + count) d i =
      m.outerFrom (m.isCodeChar · sep) count d (i + c.utf8Size) := by
  obtain ⟨pre, post, hps, rfl⟩ := h
  have hps' : ps = pre ++ (c, k) :: (qs ++ post) := by simp [hps]
  refine outerFrom_gap (fun j hle hlt => ?_) count
  obtain ⟨n, rfl⟩ := Nat.exists_eq_add_of_le hle
  have hslot := slots_inside hm hps' (show n < c.utf8Size by omega)
  have hhas : ∀ p : Slot → Bool, p ⟨some c, k⟩ = false → p ⟨none, k⟩ = false →
      m.has p (width pre + n) = false := by
    intro p hc hnone
    rw [has, hslot]
    split
    · exact hc
    · exact hnone
  refine ⟨hhas _ hopens (by simp [Slot.opens, Slot.isCodeChar]),
    hhas _ hcloses (by simp [Slot.closes, Slot.isCodeChar]),
    fun hd => hhas _ ?_ (by simp [Slot.isCodeChar])⟩
  by_contra hchar
  obtain ⟨rfl, rfl⟩ : k = .code ∧ c = sep := by
    simpa [Slot.isCodeChar, Slot.isCode] using hchar
  exact hsep hd rfl

theorem outerFrom_of_quiet (h : LiesAt ps i qs) (hdepth : depthAfter? qs d = some d')
    (hquiet : Quiet sep d qs) (count : Nat) :
    m.outerFrom (m.isCodeChar · sep) (width qs + count) d i =
      m.outerFrom (m.isCodeChar · sep) count d' (i + width qs) := by
  induction qs generalizing i d with
  | nil =>
    obtain rfl := Option.some.inj hdepth
    simp
  | cons p qs ih =>
    obtain ⟨c, k⟩ := p
    rw [← List.singleton_append, depthAfter?_append] at hdepth
    obtain ⟨e, he, hdepth⟩ := Option.bind_eq_some_iff.mp hdepth
    have hrest := ih h.tail hdepth (hquiet.tail he)
    rw [width_cons, Nat.add_assoc, ← Nat.add_assoc i, ← hrest]
    rw [depthAfter?] at he
    split at he
    · rename_i hopens
      obtain rfl := Option.some.inj he
      rw [utf8Size_of_opens hopens, Nat.add_comm 1,
        outerFrom_opens ((has_of_liesAt hm h _).trans hopens)]
    split at he
    · rename_i hcloses
      split at he
      · cases he
      obtain rfl := Option.some.inj he
      rw [utf8Size_of_closes hcloses, Nat.add_comm 1,
        outerFrom_closes ((has_of_liesAt hm h _).trans hcloses)]
    · rename_i hopens hcloses
      obtain rfl := Option.some.inj he
      refine outerFrom_of_character hm h (by simpa using hopens) (by simpa using hcloses) ?_ _
      rintro rfl heq
      exact hquiet [] qs (by rw [heq]; rfl) rfl

/-- Behind the first separator outside brackets the rest is split on its own. -/
theorem splitTop_of_quiet {rs : Painted}
    (h : LiesAt ps i (qs ++ (sep, .code) :: rs)) (hqs : Balanced qs) (hquiet : Quiet sep 0 qs)
    (hsep : isBracketFree sep) (hsize : sep.utf8Size = 1) :
    m.splitTop i (i + width (qs ++ (sep, .code) :: rs)) sep = ⟨i, i + width qs⟩ ::
      m.splitTop (i + width qs + 1) (i + width (qs ++ (sep, .code) :: rs)) sep := by
  obtain ⟨hopens, hcloses⟩ := not_bracket hsep .code
  have hwidth : width (qs ++ (sep, .code) :: rs) = width qs + (width rs + 1) := by
    rw [width_append, width_cons, hsize, Nat.add_comm 1]
  have hhere : m.isCodeChar (i + width qs) sep := by
    rw [isCodeChar_of_liesAt hm h.right, beq_self_eq_true]
  have houter : m.outer (m.isCodeChar · sep) i (i + width (qs ++ (sep, .code) :: rs)) =
      (i + width qs) :: m.outer (m.isCodeChar · sep) (i + width qs + 1)
        (i + width (qs ++ (sep, .code) :: rs)) := by
    have hcount : i + (width qs + (width rs + 1)) - (i + width qs + 1) = width rs := by omega
    rw [outer, outer, hwidth, Nat.add_sub_cancel_left, hcount,
      outerFrom_of_quiet hm h.left hqs hquiet,
      outerFrom_other ((has_of_liesAt hm h.right _).trans hopens)
        ((has_of_liesAt hm h.right _).trans hcloses), hhere]
    rfl
  rw [splitTop, splitTop, houter, cut]

theorem splitTop_of_last (h : LiesAt ps i qs) (hqs : Balanced qs) (hquiet : Quiet sep 0 qs) :
    m.splitTop i (i + width qs) sep = [⟨i, i + width qs⟩] := by
  have hnone := outerFrom_of_quiet hm h hqs hquiet 0
  rw [Nat.add_zero] at hnone
  rw [splitTop, outer, Nat.add_sub_cancel_left, hnone]
  rfl

end Walking

/-- A field of an object literal: a key, and a value without a comma of code outside its
brackets. -/
structure FieldSource where
  key : Text
  value : Fragment
  isIdentifier : key.isIdentifier = true
  nonempty : value.text ≠ []
  trimmed : value.text.IsTrimmed
  noComma : ∀ pre post, kinds value.text = pre ++ (',', .code) :: post →
    depthAfter? pre 0 ≠ some 0

namespace FieldSource

/-- The field as it is written. -/
def print (f : FieldSource) : Text := f.key ++ ": " ++ f.value.text

/-- The object literal with the fields. -/
def printAll (fields : List FieldSource) : Text :=
  "\x7b " ++ join ", " (fields.map print) ++ " \x7d"

/-- The characters of a field with their kinds. -/
def painted (f : FieldSource) : List (Char × Kind) :=
  f.key.asCode ++ asCode ": " ++ kinds f.value.text

/-- The characters between the braces with their kinds. -/
def paintedBody : List FieldSource → List (Char × Kind)
  | [] => asCode "  "
  | [f] => (' ', .code) :: f.painted ++ [(' ', .code)]
  | f :: fs => (' ', .code) :: f.painted ++ (',', .code) :: paintedBody fs

/-- What stands between the braces: each field has a space before it. -/
def body : List FieldSource → Text
  | [] => "  "
  | [f] => ' ' :: f.print ++ [' ']
  | f :: fs => ' ' :: f.print ++ ',' :: body fs

variable {o : State} (f : FieldSource)

theorem key_ne_nil : f.key ≠ [] := by
  intro hnil
  have := f.isIdentifier
  rw [hnil] at this
  cases this

theorem isTrimmed : f.print.IsTrimmed := by
  have hkey := Text.isTrimmed_of_isIdentifier f.isIdentifier
  refine ⟨fun c hc => ?_, fun c hc => ?_⟩
  · obtain ⟨d, rest, hd⟩ := List.exists_cons_of_ne_nil f.key_ne_nil
    refine hkey.head c ?_
    rw [print, hd] at hc
    rw [hd]
    simpa using hc
  · refine f.trimmed.last c ?_
    rw [print, List.getLast?_append] at hc
    cases hlast : f.value.text.getLast? with
    | none => exact absurd (List.getLast?_eq_none_iff.mp hlast) f.nonempty
    | some d =>
      rw [hlast] at hc
      exact hc

theorem size_print : f.print.size = f.key.size + 2 + f.value.text.size := by
  rw [print, Text.size_append, Text.size_append]
  rfl

theorem print_ne_nil : f.print ≠ [] := by simp [print]

theorem map_painted : f.painted.map Prod.fst = f.print := by
  simp only [painted, print, List.map_append, Text.map_fst_asCode, kinds_chars]

theorem width_painted : width f.painted = f.print.size := by
  rw [width, map_painted]

theorem reads (ho : o.Idle) {d : Char} (hd : d ∈ seamChars) (rest : Text) :
    ∃ o', Reads true o f.print f.painted (d :: rest) o' := by
  have hkey : (f.key ++ ": ").all isIdleChar := by
    rw [List.all_append, Bool.and_eq_true]
    refine ⟨List.all_eq_true.mpr fun c hc => ?_, rfl⟩
    rw [isIdleChar,
      isPlainChar_of_isIdentPart (Text.isIdentPart_of_isIdentifier f.isIdentifier c hc)]
    rfl
  obtain ⟨o₁, h₁⟩ := reads_plain true ho hkey (f.value.text ++ d :: rest)
  -- Behind the colon and the space an expression can begin.
  have hjoins : Joins o₁.done f.value.text := by
    have hdone : o₁.done = ⟨some ' ', .code⟩ :: ⟨some ':', .code⟩ ::
        ((Slot.paint f.key.asCode).reverse ++ o.done) := by
      rw [h₁.done, List.map_append, Slot.paint_append, List.reverse_append]
      rfl
    rw [hdone]
    exact ⟨rfl, fun _ _ _ s hs => by
      obtain rfl : _ = s := by simpa using hs
      rfl⟩
  obtain ⟨o₂, h₂⟩ := f.value.reads h₁.idle hjoins (seam_of_head hd rest)
  refine ⟨o₂, (h₁.trans h₂).congr rfl ?_⟩
  rw [painted, ← Text.asCode_append]
  rfl

theorem reads_spaced (ho : o.Idle) {d : Char} (hd : d ∈ [',', ' ']) (post : Text) :
    ∃ o', Reads true o (' ' :: f.print ++ [d]) ((' ', .code) :: f.painted ++ [(d, .code)]) post o' := by
  have hidle : [d].all isIdleChar := by
    simp only [List.mem_cons, List.not_mem_nil, or_false] at hd
    rcases hd with rfl | rfl <;> rfl
  obtain ⟨o₁, h₁⟩ := reads_plain true ho (g := [' ']) rfl (f.print ++ [d] ++ post)
  obtain ⟨o₂, h₂⟩ := f.reads h₁.idle (d := d) (by simp at hd; simp [seamChars]; tauto) post
  obtain ⟨o₃, h₃⟩ := reads_plain true h₂.idle hidle post
  have hfield : Reads true o₁ (f.print ++ [d]) (f.painted ++ [(d, .code)]) post o₃ := h₂.trans h₃
  exact ⟨o₃, h₁.trans hfield⟩

section

variable (fields : List FieldSource)
include fields

theorem reads_body (ho : o.Idle) (post : Text) :
    ∃ o', Reads true o (body fields) (paintedBody fields) post o' := by
  induction fields generalizing o with
  | nil => exact reads_plain true ho (g := "  ") rfl post
  | cons f fs ih =>
    cases fs with
    | nil => exact f.reads_spaced ho (d := ' ') (by decide) post
    | cons g gs =>
      obtain ⟨o₁, h₁⟩ := f.reads_spaced ho (d := ',') (by decide) (body (g :: gs) ++ post)
      obtain ⟨o₂, h₂⟩ := ih h₁.idle
      refine ⟨o₂, (h₁.trans h₂).congr ?_ ?_⟩
      · simp [body]
      · simp [paintedBody]

theorem printAll_eq : printAll fields = '\x7b' :: body fields ++ ['\x7d'] := by
  have hbody : ' ' :: join ", " (fields.map print) ++ [' '] = body fields := by
    induction fields with
    | nil => rfl
    | cons f fs ih =>
      cases fs with
      | nil => rfl
      | cons g gs =>
        have hcons : body (f :: g :: gs) = ' ' :: f.print ++ ',' :: body (g :: gs) := rfl
        rw [hcons, ← ih]
        simp [join]
  rw [← hbody, printAll]
  simp

theorem printAll_ne_nil : printAll fields ≠ [] := by
  rw [printAll_eq]
  simp

theorem printAll_isTrimmed : (printAll fields).IsTrimmed := by
  rw [printAll_eq]
  refine ⟨fun c hc => ?_, fun c hc => ?_⟩
  · obtain rfl : '\x7b' = c := by simpa using hc
    decide
  · rw [List.getLast?_append] at hc
    obtain rfl : '\x7d' = c := by simpa using hc
    decide

theorem kinds_printAll :
    kinds (printAll fields) = ('\x7b', .code) :: paintedBody fields ++ [('\x7d', .code)] := by
  obtain ⟨o₁, h₁⟩ := reads_plain true start_idle (g := ['\x7b']) rfl (body fields ++ ['\x7d'] ++ [])
  obtain ⟨o₂, h₂⟩ := reads_body fields h₁.idle (['\x7d'] ++ [])
  obtain ⟨o₃, h₃⟩ := reads_plain true h₂.idle (g := ['\x7d']) rfl []
  have h := (h₁.trans (by simpa using h₂.trans h₃)).congr (printAll_eq fields) rfl
  exact (kinds_of_reads h).trans (by simp)

end

theorem asCode_key_balanced : Balanced f.key.asCode :=
  balanced_of_bracketFree (List.all_eq_true.mpr fun c hc =>
    isBracketFree_of_isIdentPart (Text.isIdentPart_of_isIdentifier f.isIdentifier c hc)) .code

/-- The key, the colon, the space and the value lie one behind the other. -/
theorem liesAt {ps : Painted} {i : Nat} (h : LiesAt ps i f.painted) :
    LiesAt ps i f.key.asCode ∧
      LiesAt ps (i + f.key.size) ((':', .code) :: (' ', .code) :: kinds f.value.text) ∧
      LiesAt ps (i + f.key.size + 1) ((' ', .code) :: kinds f.value.text) ∧
      LiesAt ps (i + f.key.size + 2) (kinds f.value.text) := by
  have hkey : LiesAt ps i
      (f.key.asCode ++ (':', .code) :: (' ', .code) :: kinds f.value.text) := by
    simpa [painted] using h
  have hcolon := hkey.right
  rw [width_asCode] at hcolon
  exact ⟨hkey.left, hcolon, hcolon.tail, hcolon.tail.tail⟩

/-- A character that no identifier holds does not stand in the key. -/
theorem asCode_key_quiet {sep : Char} (hsep : Character.isIdentPart sep = false) (d : Nat) :
    Quiet sep d f.key.asCode := by
  refine quiet_of_not_mem fun hmem => ?_
  obtain ⟨c, hc, heq⟩ := List.mem_map.mp hmem
  obtain rfl : c = sep := congrArg Prod.fst heq
  rw [Text.isIdentPart_of_isIdentifier f.isIdentifier c hc] at hsep
  cases hsep

theorem asCode_colon_balanced : Balanced (f.key.asCode ++ asCode ": ") :=
  f.asCode_key_balanced.append rfl

theorem painted_balanced : Balanced f.painted := f.asCode_colon_balanced.append f.value.balanced

theorem painted_quiet : Quiet ',' 0 f.painted := by
  have hcolon : Quiet ',' 0 (asCode ": ") := quiet_of_not_mem (by decide)
  have hkey := (f.asCode_key_quiet (by decide) 0).append f.asCode_key_balanced hcolon
  exact hkey.append f.asCode_colon_balanced f.noComma

theorem paintedBody_balanced (fields : List FieldSource) : Balanced (paintedBody fields) := by
  have hspaced : ∀ (f : FieldSource) {d : Char}, isBracketFree d →
      Balanced ((' ', .code) :: f.painted ++ [(d, .code)]) := by
    intro f d hd
    have hend : Balanced [(d, Kind.code)] :=
      balanced_of_bracketFree (g := [d]) (by simpa using hd) .code
    have hspace : Balanced [(' ', Kind.code)] := rfl
    exact (hspace.append f.painted_balanced).append hend
  induction fields with
  | nil => rfl
  | cons f fs ih =>
    cases fs with
    | nil => exact hspaced f rfl
    | cons g gs =>
      have h := (hspaced f (d := ',') rfl).append ih
      simpa [paintedBody] using h

end FieldSource

namespace StateModel

section Parts

theorem keyName?_of_isIdentifier {key : Text} (h : key.isIdentifier) : keyName? key = some key := by
  have hquotes : ∀ q, Character.isIdentPart q = false → insideQuotes? q key = none := by
    intro q hq
    cases key with
    | nil => rfl
    | cons c rest =>
      have hc := Text.isIdentPart_of_isIdentifier h c (by simp)
      have hne : (c == q) = false := by
        rw [beq_eq_false_iff_ne]
        rintro rfl
        rw [hc] at hq
        cases hq
      rw [insideQuotes?, hne, Bool.false_and, if_neg Bool.false_ne_true]
  rw [keyName?, hquotes '\x27' rfl, hquotes '\x22' rfl]
  simp [h]

variable {m : CodeMap} {ps : Painted} (hm : m.Shows ps) (f : FieldSource) {i : Nat}
include hm

/-- The first colon of a field outside brackets is the one behind the key. -/
theorem findTop_printed (h : LiesAt ps i f.painted) :
    m.findTop i (i + f.print.size) ':' = some (i + f.key.size) := by
  obtain ⟨hkey, hcolon, -, -⟩ := f.liesAt h
  have hkeyQuiet : Quiet ':' 0 f.key.asCode := f.asCode_key_quiet rfl 0
  have hquiet := outerFrom_of_quiet hm hkey f.asCode_key_balanced hkeyQuiet
    (1 + f.value.text.size + 1)
  have hsize : i + f.print.size - i = f.key.size + (1 + f.value.text.size + 1) := by
    have := f.size_print
    omega
  rw [width_asCode] at hquiet
  have hhere : m.isCodeChar (i + f.key.size) ':' := isCodeChar_of_liesAt hm hcolon ':'
  rw [findTop, firstOuter?, firstOuterFrom?_eq_head?, hsize, hquiet,
    outerFrom_other (has_of_liesAt hm hcolon _) (has_of_liesAt hm hcolon _), hhere]
  rfl

/-- A printed field is read as its key and its value. -/
theorem entryAt?_printed (h : LiesAt ps i f.painted) : entryAt? m i (i + f.print.size) =
      .ok (some (f.key, ⟨i + f.key.size + 2, i + f.print.size⟩)) := by
  obtain ⟨hkey, -, hspace, -⟩ := f.liesAt h
  have hsize := f.size_print
  have hname := slice_of_painted hm hkey
  rw [width_asCode, Text.map_fst_asCode] at hname
  have hvalue := slice_of_painted hm hspace
  have hstop : i + f.key.size + 1 + width ((' ', .code) :: kinds f.value.text) =
      i + f.print.size := by
    have hone : Char.utf8Size ' ' = 1 := rfl
    rw [width_cons, width_kinds, hone]
    omega
  rw [hstop, List.map_cons, kinds_chars] at hvalue
  have hspaceBlank : isBlank [' '] := rfl
  have hnilBlank : isBlank [] := rfl
  have htrimmed := f.trimmed.trimmedSpan f.nonempty hspaceBlank hnilBlank (i + f.key.size + 1)
  rw [List.append_nil, List.singleton_append] at htrimmed
  have hne : 0 < f.value.text.size := by
    obtain ⟨c, rest, hc⟩ := List.exists_cons_of_ne_nil f.nonempty
    have := c.utf8Size_pos
    rw [hc, Text.size_cons]
    omega
  unfold entryAt?
  rw [findTop_printed hm f h]
  dsimp only
  rw [bind_of_eq_ok hname, (Text.isTrimmed_of_isIdentifier f.isIdentifier).trim f.key_ne_nil,
    keyName?_of_isIdentifier f.isIdentifier]
  dsimp only
  rw [bind_of_eq_ok hvalue, htrimmed]
  have hone : size [' '] = 1 := rfl
  have hend : i + f.key.size + 1 + 1 + f.value.text.size = i + f.print.size := by omega
  rw [hone, hend]
  dsimp only
  rw [if_pos (by omega)]
  rfl

/-- The entry of a field that is printed at byte `i` of a literal. -/
def printedEntry (base i : Nat) (f : FieldSource) : StateEntry :=
  ⟨f.key, f.value.text, Span.clamp ⟨base + (i + f.key.size + 2), base + (i + f.print.size)⟩⟩

theorem addPart_printed (trail : Text) (htrail : trail.isBlank)
    (h : LiesAt ps i ((' ', .code) :: f.painted ++ trail.asCode)) (base : Nat)
    (model : StateModel) : addPart m base model ⟨i, i + (1 + f.print.size + trail.size)⟩ =
      .ok (model.insert (printedEntry base (i + 1) f)
        (Span.clamp ⟨base + (i + 1), base + (i + 1 + f.print.size)⟩)) := by
  have hone : size [' '] = 1 := rfl
  have hslice := slice_of_painted hm h
  have hwidth : width ((' ', .code) :: f.painted ++ trail.asCode) =
      1 + f.print.size + trail.size := by
    rw [width_append, width_cons, f.width_painted, width_asCode]
    rfl
  have htext : ((' ', Kind.code) :: f.painted ++ trail.asCode).map Prod.fst =
      [' '] ++ f.print ++ trail := by
    rw [List.map_append, List.map_cons, f.map_painted, Text.map_fst_asCode]
    rfl
  rw [hwidth, htext] at hslice
  have hblank : isBlank ([' '] ++ f.print ++ trail) = false := by
    obtain ⟨c, rest, hc⟩ := List.exists_cons_of_ne_nil f.print_ne_nil
    exact Text.isBlank_of_mem (c := c) (by simp [hc]) (f.isTrimmed.head c (by rw [hc]; rfl))
  have hlead : isBlank [' '] := rfl
  have htrimmed := f.isTrimmed.trimmedSpan f.print_ne_nil hlead htrail i
  have hfield : LiesAt ps (i + 1) f.painted := h.left.tail
  have hentry := entryAt?_printed hm f hfield
  have hvalue := slice_of_painted hm (f.liesAt hfield).2.2.2
  have hsize := f.size_print
  have hstop : i + 1 + f.key.size + 2 + f.value.text.size = i + 1 + f.print.size := by omega
  rw [width_kinds, kinds_chars, hstop] at hvalue
  unfold addPart
  rw [bind_of_eq_ok hslice, hblank, htrimmed, hone]
  dsimp only
  rw [bind_of_eq_ok (reported_eq (by omega)), bind_of_eq_ok hentry]
  dsimp only
  rw [bind_of_eq_ok hvalue, bind_of_eq_ok (reported_eq (by omega))]
  rfl

omit hm in
/-- The entries of the printed fields in order, with the ranges of their parts. -/
def printedParts (base : Nat) : Nat → List FieldSource → List (StateEntry × Span)
  | _, [] => []
  | i, f :: fs =>
    (printedEntry base (i + 1) f, Span.clamp ⟨base + (i + 1), base + (i + 1 + f.print.size)⟩) ::
      printedParts base (i + 1 + f.print.size + 1) fs

omit hm in
/-- The model with the entries inserted one after the other. -/
def insertAll (model : StateModel) (parts : List (StateEntry × Span)) : StateModel :=
  parts.foldl (fun model part => model.insert part.1 part.2) model

/-- The parts of a printed literal are its fields. -/
theorem foldlM_printed (fields : List FieldSource)
    (h : LiesAt ps i (FieldSource.paintedBody fields)) (base : Nat) (model : StateModel) :
    (m.splitTop i (i + width (FieldSource.paintedBody fields)) ',').foldlM (addPart m base) model =
      .ok (model.insertAll (printedParts base i fields)) := by
  induction fields generalizing i model with
  | nil =>
    have hslice := slice_of_painted hm h
    rw [splitTop_of_last hm h rfl (quiet_of_not_mem (by decide)), List.foldlM_cons, addPart,
      bind_of_eq_ok hslice]
    rfl
  | cons f fs ih =>
    have hspace : Balanced [(' ', Kind.code)] := rfl
    have hbalanced := hspace.append f.painted_balanced
    have hquiet : Quiet ',' 0 ([(' ', .code)] ++ f.painted) :=
      (quiet_of_not_mem (by decide)).append hspace f.painted_quiet
    have hwidth : width ([(' ', .code)] ++ f.painted) = 1 + f.print.size := by
      rw [width_append, f.width_painted]
      rfl
    cases fs with
    | nil =>
      have hbody : FieldSource.paintedBody [f] =
        [(' ', .code)] ++ f.painted ++ [(' ', .code)] := rfl
      rw [hbody] at h ⊢
      have hstop : width ([(' ', .code)] ++ f.painted ++ [(' ', .code)]) =
          1 + f.print.size + size [' '] := by
        rw [width_append, hwidth]
        rfl
      have hlast : Quiet ',' 0 [(' ', Kind.code)] := quiet_of_not_mem (by decide)
      have hpart := addPart_printed hm f [' '] rfl h base model
      rw [splitTop_of_last hm h (hbalanced.append hspace) (hquiet.append hbalanced hlast),
        hstop, List.foldlM_cons, bind_of_eq_ok hpart]
      rfl
    | cons g gs =>
      have hbody : FieldSource.paintedBody (f :: g :: gs) =
        [(' ', .code)] ++ f.painted ++ (',', .code) :: FieldSource.paintedBody (g :: gs) := rfl
      rw [hbody] at h ⊢
      have hpart := addPart_printed hm f [] rfl (by simpa using h.left) base model
      rw [size_nil, Nat.add_zero] at hpart
      have hrest := ih h.right.tail (model.insert (printedEntry base (i + 1) f)
        (Span.clamp ⟨base + (i + 1), base + (i + 1 + f.print.size)⟩))
      have hcomma : Char.utf8Size ',' = 1 := rfl
      have hstop : i + width ([(' ', .code)] ++ f.painted ++
          (',', .code) :: FieldSource.paintedBody (g :: gs)) =
            i + (1 + f.print.size) + 1 + width (FieldSource.paintedBody (g :: gs)) := by
        rw [width_append, width_cons, hcomma]
        omega
      have hnext : i + (1 + f.print.size) + 1 = i + 1 + f.print.size + 1 := by omega
      rw [hwidth, hcomma] at hrest
      rw [splitTop_of_quiet hm h hbalanced hquiet rfl rfl, hstop, hwidth, List.foldlM_cons,
        bind_of_eq_ok hpart, hrest, hnext]
      rfl

end Parts

section Insertion

/-- The keys that occur earlier already, once for each time that they occur again. -/
def repeatsAfter (seen : List Text) : List Text → List Text
  | [] => []
  | k :: ks => if k ∈ seen then k :: repeatsAfter (k :: seen) ks else repeatsAfter (k :: seen) ks

/-- What an object literal with these keys and values, in this order, stands for: each key once, in
order of first occurrence and with its last value, and a warning for each key that occurs again. -/
structure Models (fields : List (Text × Text)) (model : StateModel) : Prop where
  names : model.entries.map (·.name) = (fields.map Prod.fst).eraseDups
  values : ∀ e ∈ model.entries,
    (fields.filter (·.1 == e.name)).getLast? = some (e.name, e.value)
  warnings : model.warnings.map (·.notice) =
    (repeatsAfter [] (fields.map Prod.fst)).map .duplicateStateEntry

theorem repeatsAfter_append (seen ks : List Text) (k : Text) : repeatsAfter seen (ks ++ [k]) =
      repeatsAfter seen ks ++ if k ∈ seen ∨ k ∈ ks then [k] else [] := by
  induction ks generalizing seen with
  | nil => simp [repeatsAfter]
  | cons l ks ih =>
    have hiff : (k ∈ l :: seen ∨ k ∈ ks) ↔ (k ∈ seen ∨ k ∈ l :: ks) := by
      simp only [List.mem_cons]
      tauto
    rw [List.cons_append, repeatsAfter, repeatsAfter, ih, if_congr hiff rfl rfl]
    split
    · rw [List.cons_append]
    · rfl

theorem eraseDups_append_singleton (ks : List Text) (k : Text) :
    (ks ++ [k]).eraseDups = if k ∈ ks then ks.eraseDups else ks.eraseDups ++ [k] := by
  rw [List.eraseDups_append]
  split
  · rename_i hmem
    have hnone : [k].removeAll ks = [] := by simp [List.removeAll, hmem]
    rw [hnone]
    simp
  · rename_i hmem
    have hone : [k].removeAll ks = [k] := by simp [List.removeAll, hmem]
    rw [hone, List.eraseDups_cons]
    simp

variable {fields : List (Text × Text)} {model : StateModel}

theorem models_empty : Models [] empty := ⟨rfl, by simp [empty], rfl⟩

theorem Models.any_iff (h : Models fields model) (name : Text) :
    model.entries.any (·.name == name) ↔ name ∈ fields.map Prod.fst := by
  rw [← List.mem_eraseDups, ← h.names, List.any_eq_true, List.mem_map]
  simp only [beq_iff_eq]

theorem insert_names (model : StateModel) (entry : StateEntry) (range : Span) :
    (model.insert entry range).entries.map (·.name) =
      if entry.name ∈ model.entries.map (·.name) then model.entries.map (·.name)
      else model.entries.map (·.name) ++ [entry.name] := by
  have hany : model.entries.any (·.name == entry.name) ↔
      entry.name ∈ model.entries.map (·.name) := by
    simp only [List.any_eq_true, List.mem_map, beq_iff_eq]
  unfold StateModel.insert
  split
  · rename_i hold
    rw [if_pos (hany.mp hold), replaceEntry, List.map_map]
    refine List.map_congr_left fun e _ => ?_
    dsimp only [Function.comp]
    split
    · rename_i heq
      exact (beq_iff_eq.mp heq).symm
    · rfl
  · rename_i hnew
    rw [if_neg fun hmem => hnew (hany.mpr hmem), List.map_append, List.map_singleton]

theorem Models.insert (h : Models fields model) (entry : StateEntry) (range : Span) :
    Models (fields ++ [(entry.name, entry.value)]) (model.insert entry range) := by
  have hnew : ∀ {e : StateEntry}, e.name ≠ entry.name →
      (fields ++ [(entry.name, entry.value)]).filter (·.1 == e.name) =
        fields.filter (·.1 == e.name) := by
    intro e he
    simp [List.filter_append, he.symm]
  have hlast : ((fields ++ [(entry.name, entry.value)]).filter (·.1 == entry.name)).getLast? =
      some (entry.name, entry.value) := by
    simp [List.filter_append]
  have hnames : (model.insert entry range).entries.map (·.name) =
      ((fields ++ [(entry.name, entry.value)]).map Prod.fst).eraseDups := by
    rw [insert_names, h.names, List.map_append, List.map_singleton, eraseDups_append_singleton]
    simp only [List.mem_eraseDups]
  unfold StateModel.insert at hnames ⊢
  split
  · rename_i hany
    rw [if_pos hany] at hnames
    have hmem := (h.any_iff entry.name).mp hany
    refine ⟨hnames, fun e he => ?_, ?_⟩
    · obtain ⟨e', he', rfl⟩ := List.mem_map.mp he
      split
      · exact hlast
      · rename_i hne
        rw [hnew (by simpa using hne)]
        exact h.values e' he'
    · rw [List.map_append, h.warnings, List.map_append, List.map_singleton, List.map_singleton,
        repeatsAfter_append, if_pos (.inr hmem), List.map_append, List.map_singleton]
  · rename_i hany
    rw [if_neg hany] at hnames
    have hmem : entry.name ∉ fields.map Prod.fst := fun hmem => hany ((h.any_iff entry.name).mpr hmem)
    refine ⟨hnames, fun e he => ?_, ?_⟩
    · rcases List.mem_append.mp he with he | he
      · have hne : e.name ≠ entry.name := by
          intro heq
          refine hany (List.any_eq_true.mpr ⟨e, he, ?_⟩)
          rw [heq, beq_self_eq_true]
        rw [hnew hne]
        exact h.values e he
      · obtain rfl := List.mem_singleton.mp he
        exact hlast
    · rw [h.warnings, List.map_append, List.map_singleton, repeatsAfter_append,
        if_neg (by simpa using hmem), List.append_nil]

theorem Models.insertAll (h : Models fields model) (parts : List (StateEntry × Span)) :
    Models (fields ++ parts.map fun part => (part.1.name, part.1.value)) (model.insertAll parts) := by
  induction parts generalizing fields model with
  | nil => simpa [StateModel.insertAll] using h
  | cons part parts ih =>
    have hrest := ih (h.insert part.1 part.2)
    rw [List.append_assoc] at hrest
    exact hrest

end Insertion

theorem printedParts_fields (base : Nat) (i : Nat) (fields : List FieldSource) :
    ((printedParts base i fields).map fun part => (part.1.name, part.1.value)) =
      fields.map fun f => (f.key, f.value.text) := by
  induction fields generalizing i with
  | nil => rfl
  | cons f fs ih => rw [printedParts, List.map_cons, ih]; rfl

theorem literalRange_printed (fields : List FieldSource) :
    literalRange (ofText (FieldSource.printAll fields)) (FieldSource.printAll fields) =
      ⟨1, 1 + width (FieldSource.paintedBody fields)⟩ := by
  have hm := ofText_shows (FieldSource.printAll fields)
  have hkinds := FieldSource.kinds_printAll fields
  have hlies : LiesAt (kinds (FieldSource.printAll fields)) 0
      (('\x7b', .code) :: FieldSource.paintedBody fields ++ [('\x7d', .code)]) :=
    ⟨[], [], by simpa using hkinds, rfl⟩
  have hmatch := matching_of_liesAt hm hlies rfl rfl (FieldSource.paintedBody_balanced fields)
  have hbrace := charAt?_of_liesAt hm hlies
  have hsize : (FieldSource.printAll fields).size =
      1 + width (FieldSource.paintedBody fields) + 1 := by
    rw [← width_kinds, hkinds, width_wrap rfl rfl]
    omega
  have hnil : isBlank [] := rfl
  have hwhole := (FieldSource.printAll_isTrimmed fields).trimmedSpan
    (FieldSource.printAll_ne_nil fields) hnil hnil 0
  rw [List.nil_append, List.append_nil, hsize, size_nil] at hwhole
  unfold literalRange
  rw [hwhole]
  dsimp only
  rw [hmatch]
  dsimp only
  rw [hbrace, if_pos (by simp)]

/-- The state model of a printed literal is what the literal stands for. -/
theorem build_printed (fields : List FieldSource) (range : Span) :
    ∃ model, build (some ⟨FieldSource.printAll fields, range⟩) = .ok model ∧
      model.Models (fields.map fun f => (f.key, f.value.text)) := by
  have hm := ofText_shows (FieldSource.printAll fields)
  have hlies : Slot.LiesAt (kinds (FieldSource.printAll fields)) 1
      (FieldSource.paintedBody fields) :=
    ⟨[('\x7b', .code)], [('\x7d', .code)], FieldSource.kinds_printAll fields, rfl⟩
  refine ⟨empty.insertAll (printedParts range.start 1 fields), ?_, ?_⟩
  · rw [build]
    dsimp only
    rw [literalRange_printed]
    exact foldlM_printed hm fields hlies range.start empty
  · have h := models_empty.insertAll (printedParts range.start 1 fields)
    rwa [List.nil_append, printedParts_fields] at h

/-- Fields with commas in brackets, in markup and in a comment, two of them with the same key. -/
def crowdedFields : List FieldSource :=
  [⟨"size", ⟨"f('\x7d', [1, 2])", by decide, rfl⟩, rfl, by decide, by decide,
      quiet_iff.mpr (by decide +kernel)⟩,
    ⟨"icon", ⟨"<i>, \x7bx\x7d</i>", by decide, rfl⟩, rfl, by decide, by decide,
      quiet_iff.mpr (by decide +kernel)⟩,
    ⟨"size", ⟨"g(/* , */ 0)", by decide, rfl⟩, rfl, by decide, by decide,
      quiet_iff.mpr (by decide +kernel)⟩]

/-- A key that occurs again has its last value, and is reported. -/
theorem build_printed_again :
    FieldSource.printAll crowdedFields =
      "\x7b size: f('\x7d', [1, 2]), icon: <i>, \x7bx\x7d</i>, size: g(/* , */ 0) \x7d" ∧
    ∃ model, build (some ⟨FieldSource.printAll crowdedFields, ⟨9, 71⟩⟩) = .ok model ∧
      model.entries.map (·.name) = (["size", "icon"] : List Text) ∧
      (∀ e ∈ model.entries, e.name = "size" → e.value = "g(/* , */ 0)") ∧
      model.warnings.map (·.notice) = [.duplicateStateEntry "size"] := by
  obtain ⟨model, hbuild, hmodels⟩ := build_printed crowdedFields ⟨9, 71⟩
  refine ⟨by decide, model, hbuild, hmodels.names, fun e he hname => ?_, hmodels.warnings⟩
  have hvalue := hmodels.values e he
  rw [hname] at hvalue
  exact (Prod.mk.inj (Option.some.inj hvalue)).2.symm

end StateModel

end Declass
