import Declass.Proofs.ObjectLiterals
import Declass.Proofs.Rebasing

/-!
# Calls that set one state entry

**Input.** A call of `setState` on a receiver, whose argument is an object literal with one field: a
declared state entry as key, and a fragment as value.

**Algorithm.** Resolving such a call resolves its value as a text of its own.  A text is resolved in
rounds, one for each level of nested calls, and each round passes on texts that are shorter than its
own.  So `round` has one fixed point, which resolving reaches within as many rounds as the text has
characters.

**Results.** `resolve_setState`: the call becomes a call of the setter with the resolved value, and
what is reported is what is reported about the value, moved to where the value stands.
-/

namespace Declass

open Scan CodeMap
open Slot (width)
open Text (asCode isBlank size trim width_asCode)
open FieldSource (body painted paintedBody paintedBody_balanced printAll reads_body)

theorem Text.trimMatching_isQuote {t : Text} (h : t.isIdentifier) : t.trimMatching isQuote = t := by
  have hplain : ∀ c ∈ t, isQuote c = false := by
    intro c hc
    have hpart := Text.isIdentPart_of_isIdentifier h c hc
    by_contra hquote
    simp only [isQuote, Bool.not_eq_false, Bool.or_eq_true, beq_iff_eq] at hquote
    rcases hquote with rfl | rfl <;> cases hpart
  have hkept : ∀ u : Text, (∀ c ∈ u, isQuote c = false) → u.dropWhile isQuote = u := by
    intro u hu
    cases u with
    | nil => rfl
    | cons c u => rw [List.dropWhile_cons_of_neg (by rw [hu c (by simp)]; simp)]
  rw [trimMatching, hkept t hplain, hkept _ fun c hc => hplain c (List.mem_reverse.mp hc),
    List.reverse_reverse]

/-- Of the words that do not reach behind the first dot, only the one before it stands at the
start. -/
theorem CodeMap.eq_of_stands {w q rest : Text} (hw : w.isIdentifier)
    (h : (ofText (w ++ '.' :: rest)).stands 0 q) (hdotted : ¬ w ++ ['.'] <+: q) : q = w := by
  have hm := ofText_shows (w ++ '.' :: rest)
  simp only [stands, Bool.and_eq_true, Option.all_eq_true, Bool.not_eq_true', Nat.zero_add] at h
  obtain ⟨⟨hspells, -⟩, hend⟩ := h
  obtain ⟨pre, post, ht, hpre⟩ := (spells_iff hm (isBoundary_zero hm)).mp hspells
  rw [kinds_chars, List.append_assoc] at ht
  obtain ⟨rfl, -⟩ := Text.append_inj_of_size ((List.nil_append _).trans ht) hpre.symm
  rw [List.nil_append] at ht
  rcases List.append_eq_append_iff.mp ht with ⟨tail, rfl, htail⟩ | ⟨tail, rfl, rfl⟩
  · cases tail with
    | nil => rw [List.append_nil]
    | cons c tail =>
      cases htail
      exact absurd ⟨tail, by simp⟩ hdotted
  · cases tail with
    | nil => rw [List.append_nil]
    | cons c tail =>
      have hpart := Text.isIdentPart_of_isIdentifier hw c (by simp)
      have hnext : (ofText (q ++ c :: tail ++ '.' :: rest)).spells (q ++ [c]) 0 :=
        (spells_iff hm (isBoundary_zero hm)).mpr ⟨[], tail ++ '.' :: rest, by simp, rfl⟩
      rw [spells_append, Bool.and_eq_true] at hnext
      have hat : (ofText (q ++ c :: tail ++ '.' :: rest)).charAt? q.size = some c := by
        simpa [spells] using hnext.2
      rw [hend c hat] at hpart
      cases hpart

namespace Resolver

section Rounds

variable (r : Resolver)

/-- One round of resolving: the values of the setter calls in the text are left to `nested`. -/
def round (nested : Nested) : Nested := fun t base log => do
  let m := ofText t
  let (edits, log) ← r.editsFrom nested m base m.size 0 0 log
  return (← Edit.splice m 0 edits, log)

variable {r} {t : Text} {nested nested' : Nested}
  (h : ∀ u, u.length < t.length → nested u = nested' u)
include h

theorem setterCall?_congr (opening base : Nat) (log : Log) :
    r.setterCall? nested (ofText t) opening base log =
      r.setterCall? nested' (ofText t) opening base log := by
  unfold setterCall?
  cases hfield : r.setterField? (ofText t) opening with
  | error fault => rfl
  | ok found =>
    cases found with
    | none => rfl
    | some field =>
      obtain ⟨key, value, stop⟩ := field
      cases htext : (ofText t).slice value.start value.stop with
      | error fault =>
        rw [bind_of_eq_ok rfl, bind_of_eq_ok rfl]
        dsimp only
        rw [htext]
        rfl
      | ok text =>
        rw [bind_of_eq_ok rfl, bind_of_eq_ok rfl]
        dsimp only
        rw [bind_of_eq_ok htext, bind_of_eq_ok htext, h _ (setterField?_shorter hfield htext)]

theorem reference_congr (base : Nat) (w : Text) (i : Nat) (log : Log) :
    r.reference nested (ofText t) base w i log = r.reference nested' (ofText t) base w i log := by
  simp only [reference, setterCall?_congr h]

theorem editsFrom_congr (base count resume i : Nat) (log : Log) :
    r.editsFrom nested (ofText t) base count resume i log =
      r.editsFrom nested' (ofText t) base count resume i log := by
  induction count generalizing resume i log with
  | zero => rfl
  | succ count ih =>
    rw [editsFrom, editsFrom]
    simp only [reference_congr h, ih]

/-- A round depends on what is done to shorter texts only. -/
theorem round_congr : r.round nested t = r.round nested' t := by
  funext base log
  simp only [round, editsFrom_congr h]

end Rounds

section Depth

variable (r : Resolver)

/-- Resolving with as many rounds as the text can need. -/
def settled : Nested := fun t => r.resolveNested (t.length + 1) t

theorem resolveNested_eq_settled {depth : Nat} {t : Text} (h : t.length < depth) :
    r.resolveNested depth t = r.settled t := by
  induction depth using Nat.strong_induction_on generalizing t with
  | h depth ih =>
    cases depth with
    | zero => exact absurd h (Nat.not_lt_zero _)
    | succ depth =>
      refine round_congr fun u hu => ?_
      rw [ih depth (by omega) (by omega), ih t.length h hu]

theorem settled_eq_round (t : Text) : r.settled t = r.round r.settled t :=
  round_congr fun _ hu => r.resolveNested_eq_settled hu

/-- Rounds have one fixed point. -/
theorem eq_settled {solve : Nested} (h : ∀ t, solve t = r.round solve t) (t : Text) :
    solve t = r.settled t := by
  induction hn : t.length using Nat.strong_induction_on generalizing t with
  | h n ih =>
    subst hn
    rw [h t, r.settled_eq_round]
    exact round_congr fun u hu => ih u.length hu u rfl

theorem resolve_eq_settled (t : Text) (base : Nat) :
    r.resolve t base = (r.settled t base Log.empty).map fun p => ⟨p.1, p.2.warnings⟩ := by
  cases r.resolveNested (t.length + 1) t base Log.empty <;> rfl

end Depth

section Printed

/-- The call that sets the state entry of the field to its value, on the receiver `w`. -/
def setStateCall (w : Text) (f : FieldSource) : Text :=
  w ++ ".setState(" ++ printAll [f] ++ ")"

/-- Where the value of the field stands in the call. -/
def valueOffset (w : Text) (f : FieldSource) : Nat := w.size + 12 + f.key.size + 2

variable {w : Text} (f : FieldSource)

/-- The characters between the brackets of the call, with their kinds. -/
def paintedArgument : List (Char × Kind) :=
  ('\x7b', .code) :: paintedBody [f] ++ [('\x7d', .code)]

theorem paintedArgument_balanced : Balanced (paintedArgument f) :=
  Balanced.wrap rfl rfl (paintedBody_balanced [f])

theorem width_paintedBody : width (paintedBody [f]) = 1 + f.print.size + 1 := by
  have hbody : paintedBody [f] = (' ', .code) :: f.painted ++ [(' ', .code)] := rfl
  rw [hbody, Slot.width_append, Slot.width_cons, f.width_painted]
  rfl

theorem width_paintedArgument : width (paintedArgument f) = f.print.size + 4 := by
  rw [paintedArgument, width_wrap rfl rfl, width_paintedBody]
  omega

theorem map_paintedArgument : (paintedArgument f).map Prod.fst = printAll [f] := by
  rw [← kinds_chars (printAll [f]), FieldSource.kinds_printAll]
  rfl

section Places

variable {m : CodeMap} {ps : Painted} (hm : m.Shows ps) {i : Nat}
include hm

omit hm in
theorem liesAt_spacedKey (h : Slot.LiesAt ps i (paintedBody [f])) :
    Slot.LiesAt ps i (asCode (' ' :: f.key)) := by
  obtain ⟨pre, post, hps, hpre⟩ := h
  exact ⟨pre, asCode ": " ++ kinds f.value.text ++ [(' ', .code)] ++ post,
    by simp [hps, paintedBody, painted], hpre⟩

/-- The first colon between the braces is the one behind the key. -/
theorem findTop_paintedBody (h : Slot.LiesAt ps i (paintedBody [f])) :
    m.findTop i (i + width (paintedBody [f])) ':' = some (i + 1 + f.key.size) := by
  have hfield : Slot.LiesAt ps (i + 1) f.painted := h.left.tail
  obtain ⟨-, hcolon, -, -⟩ := f.liesAt hfield
  have hquiet : Quiet ':' 0 ([(' ', .code)] ++ f.key.asCode) :=
    (quiet_of_not_mem (by decide)).append rfl (f.asCode_key_quiet rfl 0)
  have hbalanced : Balanced ([(' ', .code)] ++ f.key.asCode) :=
    Balanced.append rfl f.asCode_key_balanced
  have hwidth : width (asCode (' ' :: f.key)) = 1 + f.key.size := width_asCode _
  have hcount : i + width (paintedBody [f]) - i =
      width (asCode (' ' :: f.key)) + (1 + f.value.text.size + 1 + 1) := by
    have := f.size_print
    rw [width_paintedBody]
    omega
  have hhere : m.isCodeChar (i + 1 + f.key.size) ':' := isCodeChar_of_liesAt hm hcolon ':'
  rw [findTop, firstOuter?, firstOuterFrom?_eq_head?, hcount,
    outerFrom_of_quiet hm (liesAt_spacedKey f h) hbalanced hquiet, hwidth, ← Nat.add_assoc i,
    outerFrom_other (has_of_liesAt hm hcolon _) (has_of_liesAt hm hcolon _), hhere]
  rfl

theorem singleField?_paintedBody (h : Slot.LiesAt ps i (paintedBody [f])) :
    singleField? m i (i + width (paintedBody [f])) = .ok (some (f.key,
      ⟨i + 1 + f.key.size + 1, i + width (paintedBody [f])⟩)) := by
  have hbody : paintedBody [f] = [(' ', .code)] ++ f.painted ++ [(' ', .code)] := rfl
  have hspace : Balanced [(' ', Kind.code)] := rfl
  have hquiet : Quiet ',' 0 [(' ', Kind.code)] := quiet_of_not_mem (by decide)
  have hsplit := splitTop_of_last hm h (paintedBody_balanced [f])
    ((hquiet.append hspace f.painted_quiet).append (hspace.append f.painted_balanced) hquiet)
  have hslice := slice_of_painted hm h
  have hblank : isBlank ((paintedBody [f]).map Prod.fst) = false := by
    obtain ⟨c, rest, hc⟩ := List.exists_cons_of_ne_nil f.print_ne_nil
    refine Text.isBlank_of_mem (c := c) ?_ (f.isTrimmed.head c (by rw [hc]; rfl))
    rw [hbody, List.map_append, List.map_append, f.map_painted, hc]
    simp
  have hfields : ((m.splitTop i (i + width (paintedBody [f])) ',').filterM fun part =>
      (do return !(← m.slice part.start part.stop).isBlank : Except Fault Bool)) =
      .ok [⟨i, i + width (paintedBody [f])⟩] := by
    rw [hsplit]
    refine filterM_eq_ok (g := fun _ => true) fun part hpart => ?_
    obtain rfl := List.mem_singleton.mp hpart
    rw [bind_of_eq_ok hslice, hblank]
    rfl
  have hkey := slice_of_painted hm (liesAt_spacedKey f h)
  have hwidth : i + width (asCode (' ' :: f.key)) = i + 1 + f.key.size := by
    rw [width_asCode, Nat.add_assoc]
    rfl
  rw [hwidth, Text.map_fst_asCode] at hkey
  have htrim : trim (' ' :: f.key) = f.key := by
    have hlead : isBlank [' '] := rfl
    have hnil : isBlank [] := rfl
    have := (Text.isTrimmed_of_isIdentifier f.isIdentifier).trim_append f.key_ne_nil hlead hnil
    rwa [List.append_nil] at this
  unfold singleField?
  rw [bind_of_eq_ok hfields]
  dsimp only
  rw [findTop_paintedBody f hm h]
  dsimp only
  rw [bind_of_eq_ok hkey, htrim]
  rfl

end Places

variable (hw : w.isIdentifier)
include hw

/-- The value is read as it is on its own, and the rest of the call as code. -/
theorem kinds_setStateCall : kinds (setStateCall w f) =
    w.asCode ++ ('.', .code) :: (asCode "setState" ++
      (('(', .code) :: paintedArgument f ++ [(')', .code)])) := by
  have hidle : (w ++ ".setState(\x7b").all isIdleChar := by
    rw [List.all_append, Bool.and_eq_true]
    refine ⟨List.all_eq_true.mpr fun c hc => ?_, rfl⟩
    rw [isIdleChar, isPlainChar_of_isIdentPart (Text.isIdentPart_of_isIdentifier hw c hc)]
    rfl
  obtain ⟨o₁, h₁⟩ := reads_plain true start_idle hidle (body [f] ++ "\x7d)")
  obtain ⟨o₂, h₂⟩ := reads_body [f] h₁.idle "\x7d)"
  obtain ⟨o₃, h₃⟩ := reads_plain true h₂.idle (g := "\x7d)") rfl []
  have htext : setStateCall w f = w ++ ".setState(\x7b" ++ body [f] ++ "\x7d)" := by
    rw [setStateCall, FieldSource.printAll_eq]
    simp
  rw [kinds_of_reads (((h₁.trans h₂).trans h₃).congr htext rfl)]
  simp [paintedArgument, asCode]

theorem size_setStateCall : (setStateCall w f).size = w.size + 15 + f.print.size := by
  have hname : size "setState" = 8 := rfl
  rw [← width_kinds, kinds_setStateCall f hw, List.cons_append, Slot.width_append,
    Slot.width_cons, Slot.width_append, Slot.width_cons, Slot.width_append, width_asCode,
    width_paintedArgument]
  change w.size + (1 + (8 + (1 + (f.print.size + 4 + 1)))) = _
  omega

theorem liesAt_setStateCall :
    Slot.LiesAt (kinds (setStateCall w f)) 0 (asCode w ++ ('.', .code) ::
      (asCode "setState" ++ (('(', .code) :: paintedArgument f ++ [(')', .code)]))) ∧
    Slot.LiesAt (kinds (setStateCall w f)) (w.size + 1)
      (asCode "setState" ++ (('(', .code) :: paintedArgument f ++ [(')', .code)])) ∧
    Slot.LiesAt (kinds (setStateCall w f)) (w.size + 9)
      (('(', .code) :: paintedArgument f ++ [(')', .code)]) := by
  have hall : Slot.LiesAt (kinds (setStateCall w f)) 0 (asCode w ++ ('.', .code) ::
      (asCode "setState" ++ (('(', .code) :: paintedArgument f ++ [(')', .code)]))) :=
    ⟨[], [], by rw [kinds_setStateCall f hw]; simp, rfl⟩
  have hdot := hall.right
  rw [width_asCode, Nat.zero_add] at hdot
  exact ⟨hall, hdot.tail, hdot.tail.right⟩

theorem setterField?_setStateCall {r : Resolver} (hkey : f.key ∈ r.states) :
    r.setterField? (ofText (setStateCall w f)) (w.size + 9) = .ok (some (f.key,
      ⟨w.size + 12 + f.key.size + 1, w.size + 12 + f.print.size + 1⟩, (setStateCall w f).size)) := by
  have hm := ofText_shows (setStateCall w f)
  obtain ⟨-, -, hcall⟩ := liesAt_setStateCall f hw
  have hmatch := matching_of_liesAt hm hcall rfl rfl (paintedArgument_balanced f)
  have hargument : Slot.LiesAt (kinds (setStateCall w f)) (w.size + 10) (paintedArgument f) :=
    (Slot.LiesAt.tail hcall).left
  have hslice := slice_of_painted hm hargument
  have hbrace := isCodeChar_of_liesAt hm hargument '\x7b'
  have hliteral := matching_of_liesAt hm hargument rfl rfl (paintedBody_balanced [f])
  have hbody : Slot.LiesAt (kinds (setStateCall w f)) (w.size + 11) (paintedBody [f]) :=
    (Slot.LiesAt.tail hargument).left
  have hfield := singleField?_paintedBody f hm hbody
  have hspan : Text.trimmedSpan (w.size + 10) (printAll [f]) =
      ⟨w.size + 10, w.size + 10 + (f.print.size + 4)⟩ := by
    have hnil : isBlank [] := rfl
    have hwhole := (FieldSource.printAll_isTrimmed [f]).trimmedSpan
      (FieldSource.printAll_ne_nil [f]) hnil hnil (w.size + 10)
    have hsize : size (printAll [f]) = f.print.size + 4 := by
      rw [← map_paintedArgument, ← width_paintedArgument]
      rfl
    rw [List.append_nil, hsize] at hwhole
    exact hwhole
  have hstate : (f.key.isIdentifier && r.isState f.key) := by
    rw [f.isIdentifier, isState, List.contains_iff_mem.mpr hkey]
    rfl
  rw [width_paintedArgument] at hmatch hslice
  rw [map_paintedArgument] at hslice
  rw [width_paintedBody] at hliteral hfield
  have hend : w.size + 10 + 1 + (1 + f.print.size + 1) + 1 = w.size + 10 + (f.print.size + 4) := by
    omega
  have hstop : w.size + 10 + (f.print.size + 4) - 1 = w.size + 11 + (1 + f.print.size + 1) := by
    omega
  unfold setterField?
  rw [hmatch]
  dsimp only
  rw [bind_of_eq_ok hslice, hspan]
  rw [hbrace, hliteral, hstop]
  dsimp only
  rw [if_neg (by decide), if_neg (by simp [hend]), bind_of_eq_ok hfield]
  dsimp only
  rw [Text.trimMatching_isQuote f.isIdentifier, hstate, size_setStateCall f hw]
  have hcall : w.size + 9 + 1 + (f.print.size + 4) + 1 = w.size + 15 + f.print.size := by omega
  have hvalue : w.size + 11 + 1 + f.key.size + 1 = w.size + 12 + f.key.size + 1 := by omega
  have hvalueEnd : w.size + 11 + (1 + f.print.size + 1) = w.size + 12 + f.print.size + 1 := by omega
  rw [hcall, hvalueEnd]
  rfl

theorem slice_value : (ofText (setStateCall w f)).slice (w.size + 12 + f.key.size + 1)
    (w.size + 12 + f.print.size + 1) = .ok (" " ++ f.value.text ++ " ") := by
  obtain ⟨-, -, hcall⟩ := liesAt_setStateCall f hw
  have hbody : Slot.LiesAt (kinds (setStateCall w f)) (w.size + 11) (paintedBody [f]) :=
    (Slot.LiesAt.tail (Slot.LiesAt.tail hcall).left).left
  have hparts : paintedBody [f] = asCode (' ' :: f.key) ++ [(':', .code)] ++
      ((' ', .code) :: kinds f.value.text ++ [(' ', .code)]) := by
    simp [paintedBody, painted, asCode]
  rw [hparts] at hbody
  have hlies := hbody.right
  have hstart : w.size + 11 + width (asCode (' ' :: f.key) ++ [(':', .code)]) =
      w.size + 12 + f.key.size + 1 := by
    rw [Slot.width_append, width_asCode]
    change w.size + 11 + (1 + f.key.size + 1) = _
    omega
  have hstop : w.size + 12 + f.key.size + 1 +
      width ((' ', Kind.code) :: kinds f.value.text ++ [(' ', .code)]) =
      w.size + 12 + f.print.size + 1 := by
    rw [width_wrap rfl rfl, width_kinds, f.size_print]
    omega
  rw [hstart] at hlies
  have hslice := slice_of_painted (ofText_shows _) hlies
  rw [hstop] at hslice
  rw [hslice, List.map_append, List.map_cons, kinds_chars]
  rfl

/-- The receiver before the dot is what the call refers to, unless a longer one takes in the dot. -/
theorem referent?_setStateCall {r : Resolver} (hmem : w ∈ r.receivers)
    (hdotted : ∀ q ∈ r.receivers, ¬ w ++ ['.'] <+: q) :
    r.referent? (ofText (setStateCall w f)) 0 = some w := by
  have hm := ofText_shows (setStateCall w f)
  obtain ⟨hall, hname, -⟩ := liesAt_setStateCall f hw
  have htext : setStateCall w f = w ++ '.' :: ("setState(" ++ printAll [f] ++ ")") := by
    simp [setStateCall]
  have hdot : (ofText (setStateCall w f)).isCodeChar (0 + width w.asCode) '.' :=
    isCodeChar_of_liesAt hm hall.right '.'
  have hsecond : (ofText (setStateCall w f)).isCodeChar (w.size + 1) '.' = false :=
    isCodeChar_of_liesAt hm hname '.'
  have hspells : (ofText (setStateCall w f)).spells w 0 :=
    (spells_iff hm (isBoundary_zero hm)).mpr ⟨[], _, by rw [kinds_chars, htext]; rfl, rfl⟩
  rw [width_asCode, Nat.zero_add] at hdot
  have hrefers : (ofText (setStateCall w f)).refers 0 w := by
    have hfirst : (ofText (setStateCall w f)).charBefore? 0 = none := rfl
    have hpart : Character.isIdentPart '.' = false := rfl
    simp [refers, stands, hspells, hfirst, isCodeChar_charAt? hdot, hpart, hdot, hsecond]
  have hcode : (ofText (setStateCall w f)).isCode 0 := by
    cases w with
    | nil => cases hw
    | cons c w => exact has_of_liesAt hm hall.left Slot.isCode
  have hothers : ∀ q ∈ r.receivers, (ofText (setStateCall w f)).refers 0 q → q = w := by
    intro q hq hrefersTo
    simp only [refers, Bool.and_eq_true] at hrefersTo
    exact eq_of_stands hw (htext ▸ hrefersTo.1.1) (hdotted q hq)
  obtain ⟨q, hq⟩ : ∃ q, r.receivers.find? ((ofText (setStateCall w f)).refers 0) = some q := by
    rw [← Option.isSome_iff_exists, List.find?_isSome]
    exact ⟨w, hmem, hrefers⟩
  rw [referent?, if_pos hcode, hq, hothers q (List.mem_of_find?_eq_some hq) (List.find?_some hq)]

omit hw in
theorem editsFrom_of_le {r : Resolver} {nested : Nested} {m : CodeMap} {base count resume i : Nat}
    {log : Log} (h : i + count ≤ resume) :
    r.editsFrom nested m base count resume i log = .ok ([], log) := by
  induction count generalizing i with
  | zero => rfl
  | succ count ih =>
    rw [editsFrom, if_pos (by omega)]
    exact ih (by omega)

omit hw in
theorem splice_whole (t text : Text) :
    Edit.splice (ofText t) 0 [⟨⟨0, t.size⟩, text⟩] = .ok text := by
  have hm := ofText_shows t
  have hstart : Slot.LiesAt (kinds t) 0 [] := ⟨[], kinds t, rfl, rfl⟩
  have hend : Slot.LiesAt (kinds t) t.size [] := ⟨kinds t, [], by simp, width_kinds t⟩
  have hfront : (ofText t).slice 0 0 = .ok [] := slice_of_painted hm hstart
  have hback : (ofText t).slice t.size (ofText t).size = .ok [] := by
    rw [size_ofText]
    exact slice_of_painted hm hend
  rw [Edit.splice, bind_of_eq_ok hfront, Edit.splice, bind_of_eq_ok hback, List.nil_append,
    List.append_nil]
  rfl

section Resolving

variable {r : Resolver} (hkey : f.key ∈ r.states) (nested : Nested) (base : Nat) (log : Log)
include hkey

theorem setterCall?_setStateCall :
    r.setterCall? nested (ofText (setStateCall w f)) (w.size + 9) base log =
      (nested f.value.text (base + valueOffset w f) log).map fun p =>
        some (setterName f.key ++ "(" ++ p.1 ++ ")", (setStateCall w f).size, p.2) := by
  have hspan : Text.trimmedSpan (w.size + 12 + f.key.size + 1) (" " ++ f.value.text ++ " ") =
      ⟨valueOffset w f, valueOffset w f + f.value.text.size⟩ :=
    f.trimmed.trimmedSpan f.nonempty rfl rfl _
  have htrim : trim (" " ++ f.value.text ++ " ") = f.value.text :=
    f.trimmed.trim_append f.nonempty rfl rfl
  unfold setterCall?
  rw [bind_of_eq_ok (setterField?_setStateCall f hw hkey)]
  dsimp only
  rw [bind_of_eq_ok (slice_value f hw), htrim, hspan]
  rfl

/-- The whole call is replaced by a call of the setter. -/
theorem reference_setStateCall : r.reference nested (ofText (setStateCall w f)) base w 0 log =
      (nested f.value.text (base + valueOffset w f) log).map fun p =>
        (⟨⟨0, (setStateCall w f).size⟩, setterName f.key ++ "(" ++ p.1 ++ ")"⟩, p.2) := by
  have hm := ofText_shows (setStateCall w f)
  obtain ⟨-, hname, hcall⟩ := liesAt_setStateCall f hw
  obtain ⟨hend, hmember⟩ := identEnd_of_liesAt hm hname (w := "setState") rfl rfl
  have hsize : size "setState" = 8 := rfl
  rw [hsize] at hend hmember
  have hopening := skipTrivia_of_liesAt hm hcall rfl (ofText (setStateCall w f)).size
  have hparen : (ofText (setStateCall w f)).isCodeChar (w.size + 9) '(' :=
    isCodeChar_of_liesAt hm hcall '('
  unfold reference
  rw [Nat.zero_add, bind_of_eq_ok hend, bind_of_eq_ok hmember]
  dsimp only
  rw [hopening, hparen, setterCall?_setStateCall f hw hkey]
  cases nested f.value.text (base + valueOffset w f) log <;> rfl

variable (hmem : w ∈ r.receivers) (hnil : [] ∉ r.receivers)
  (hdotted : ∀ q ∈ r.receivers, ¬ w ++ ['.'] <+: q)
include hmem hnil hdotted

theorem editsFrom_setStateCall : r.editsFrom nested (ofText (setStateCall w f)) base
      (setStateCall w f).size 0 0 log =
    (nested f.value.text (base + valueOffset w f) log).map fun p =>
      ([⟨⟨0, (setStateCall w f).size⟩, setterName f.key ++ "(" ++ p.1 ++ ")"⟩], p.2) := by
  have hfirst := (receiverAt?_eq (ofText_shows _) hnil 0).trans
    (congrArg Except.ok (referent?_setStateCall f hw hmem hdotted))
  have hreference := reference_setStateCall f hw hkey nested base log
  obtain ⟨count, hcount⟩ : ∃ count, (setStateCall w f).size = count + 1 :=
    ⟨w.size + 14 + f.print.size, by rw [size_setStateCall f hw]; omega⟩
  rw [hcount] at hreference ⊢
  rw [editsFrom, hfirst]
  dsimp only
  rw [hreference]
  cases nested f.value.text (base + valueOffset w f) log with
  | error fault => rfl
  | ok p => exact bind_of_eq_ok (editsFrom_of_le (by dsimp only; omega))

/-- A round turns the call into a call of the setter, and leaves the value to `nested`. -/
theorem round_setStateCall : r.round nested (setStateCall w f) base log =
    (nested f.value.text (base + valueOffset w f) log).map fun p =>
      (setterName f.key ++ "(" ++ p.1 ++ ")", p.2) := by
  change (r.editsFrom nested (ofText (setStateCall w f)) base (ofText (setStateCall w f)).size
    0 0 log >>= _) = _
  rw [size_ofText, editsFrom_setStateCall f hw hkey nested base log hmem hnil hdotted]
  cases nested f.value.text (base + valueOffset w f) log with
  | error fault => rfl
  | ok p => exact bind_of_eq_ok (splice_whole _ _)

end Resolving

end Printed

/-- A call of `setState` on a receiver that sets one state entry is resolved to a call of the setter
with the resolved value, and what is reported about the value is reported where the value stands.
The receivers need not all be identifiers: none is empty, and none has this one and a dot in front.
Resolving solves the equations of `round`, which have no other solution, and gives a result for
every text. -/
theorem resolve_setState (r : Resolver) (hnil : [] ∉ r.receivers) {w : Text} (hmem : w ∈ r.receivers)
    (hw : w.isIdentifier = true) (hdotted : ∀ q ∈ r.receivers, ¬ w ++ ['.'] <+: q)
    (f : FieldSource) (hkey : f.key ∈ r.states) (base : Nat)
    (hlimit : base + (setStateCall w f).size ≤ Span.limit) :
    (∃ value, r.resolve f.value.text 0 = .ok value ∧
      r.resolve (setStateCall w f) base = .ok ⟨setterName f.key ++ "(" ++ value.text ++ ")",
        value.warnings.map (·.shift (base + valueOffset w f))⟩) ∧
    ∃ solve : Nested, (∀ t, solve t = r.round solve t) ∧
      (∀ other : Nested, (∀ t, other t = r.round other t) → other = solve) ∧
      ∀ t base, ∃ text log, solve t base Log.empty = .ok (text, log) ∧
        r.resolve t base = .ok ⟨text, log.warnings⟩ := by
  refine ⟨?_, r.settled, r.settled_eq_round, fun other h => funext (r.eq_settled h), fun t base => ?_⟩
  · obtain ⟨value, hvalue, -⟩ := resolve_yields hnil f.value.text 0
    refine ⟨value, hvalue, ?_⟩
    have hmoves : f.value.text.Shiftable (base + valueOffset w f) 0 := by
      have := size_setStateCall f hw
      have := f.size_print
      rw [Text.Shiftable, valueOffset]
      omega
    obtain ⟨_, hmoved, rfl⟩ := r.resolve_mirrors hmoves value hvalue
    rw [resolve_eq_settled, Nat.add_zero] at hmoved
    rw [resolve_eq_settled, r.settled_eq_round,
      round_setStateCall f hw hkey r.settled base Log.empty hmem hnil hdotted]
    cases hsettled : r.settled f.value.text (base + valueOffset w f) Log.empty with
    | error fault =>
      rw [hsettled] at hmoved
      cases hmoved
    | ok p =>
      rw [hsettled] at hmoved
      obtain ⟨htext, hwarnings⟩ := Resolved.mk.inj (Except.ok.inj hmoved)
      rw [← htext, ← hwarnings]
      rfl
  · obtain ⟨resolved, hresolved, -⟩ := resolve_yields hnil t base
    obtain ⟨⟨text, log⟩, hsettled, h⟩ := bind_eq_ok hresolved
    cases h
    exact ⟨text, log, hsettled, hresolved⟩

/-- A value with a brace in a string, a comma in brackets, a colon, and a call inside it. -/
def nestedField : FieldSource where
  key := "a"
  value := ⟨"f('\x7d', self.setState(\x7b b: this.x \x7d)) ? 1 : this.state.b", ⟨rfl, 0, rfl⟩, rfl⟩
  isIdentifier := rfl
  nonempty := by decide
  trimmed := by decide
  noComma := quiet_iff.mpr (by decide +kernel)

/-- A component with two state entries, whose instance has two names. -/
def aliased : Resolver := ⟨["a", "b"], [], ["this", "self"]⟩

theorem resolve_setState_nestedField :
    [] ∉ aliased.receivers ∧ ("self" : String).toList ∈ aliased.receivers ∧
      Text.isIdentifier "self" = true ∧
      (∀ q ∈ aliased.receivers, ¬ ("self" : String).toList ++ ['.'] <+: q) ∧
      nestedField.key ∈ aliased.states ∧ 5 + (setStateCall "self" nestedField).size ≤ Span.limit ∧
      aliased.resolve nestedField.value.text 0 =
        .ok ⟨"f('\x7d', setB(x)) ? 1 : b", [⟨.memberFlattened "this" "x", ⟨26, 32⟩⟩]⟩ ∧
      aliased.resolve (setStateCall "self" nestedField) 5 =
        .ok ⟨"setA(f('\x7d', setB(x)) ? 1 : b)", [⟨.memberFlattened "this" "x", ⟨50, 56⟩⟩]⟩ := by
  have hnil : [] ∉ aliased.receivers := by decide
  have hmem : ("self" : String).toList ∈ aliased.receivers := by decide
  have hdotted : ∀ q ∈ aliased.receivers, ¬ ("self" : String).toList ++ ['.'] <+: q := by decide
  have hkey : nestedField.key ∈ aliased.states := by decide
  have hlimit : 5 + (setStateCall "self" nestedField).size ≤ Span.limit := by decide
  have hvalue : aliased.resolve nestedField.value.text 0 =
      .ok ⟨"f('\x7d', setB(x)) ? 1 : b", [⟨.memberFlattened "this" "x", ⟨26, 32⟩⟩]⟩ := by
    decide +kernel
  obtain ⟨⟨value, hresolved, hcall⟩, -⟩ :=
    resolve_setState aliased hnil hmem rfl hdotted nestedField hkey 5 hlimit
  cases hresolved.symm.trans hvalue
  exact ⟨hnil, hmem, rfl, hdotted, hkey, hlimit, hvalue, hcall⟩

end Resolver

end Declass
