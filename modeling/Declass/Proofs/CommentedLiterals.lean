import Declass.Proofs.BlankedMaps
import Declass.Proofs.Insets
import Declass.Proofs.StateEntries

/-!
# Comments in the initial state

**Input.** An object literal with comments, and the same literal with each of them blanked.

**Method.** Both literals have the same parts, and a part with a colon has it in the same place.
So each part is read twice from the same range.

* A comment in a key leaves a slash there, and no key with a slash in it is a name.
* A comment in a value changes only what is trimmed from it.

**Result.** `build_blankComments`: a part gives the same key in both literals if and only if no
comment in its key hides an entry and its value is not comments alone; if all parts do, the two
models have the same entries, up to the comments in their values.
-/

namespace Declass

open Scan CodeMap
open Slot (width blanked)
open Text (isBlank isBlank_append isBlank_blanked mem_trim size trim trimmedSpan)
open Slot (LiesAt ofChar paint width_append width_blanked)

namespace StateModel

section Parts

/-- The key and the range of the value that are read from a part of a literal. -/
def readPart (m : CodeMap) (part : Span) : Except Fault (Option (Text × Span)) := do
  let text ← m.slice part.start part.stop
  if text.isBlank then return none
  let trimmed := text.trimmedSpan part.start
  entryAt? m trimmed.start trimmed.stop

variable {m : CodeMap} {ps qs : Painted} {i : Nat} (hm : m.Shows ps)
include hm

theorem readPart_of_core {lead core trail : Painted} (h : LiesAt ps i (lead ++ core ++ trail))
    (hlead : isBlank (lead.map Prod.fst)) (htrail : isBlank (trail.map Prod.fst))
    (hcore : Text.IsTrimmed (core.map Prod.fst)) (hne : core ≠ []) :
    readPart m ⟨i, i + width (lead ++ core ++ trail)⟩ =
      entryAt? m (i + width lead) (i + width lead + width core) := by
  have hslice := slice_of_painted hm h
  have hmap : (lead ++ core ++ trail).map Prod.fst =
      lead.map Prod.fst ++ core.map Prod.fst ++ trail.map Prod.fst := by simp
  have hspan := hcore.trimmedSpan (by simpa using hne) hlead htrail i
  have hblank : isBlank (lead.map Prod.fst ++ core.map Prod.fst ++ trail.map Prod.fst) = false := by
    obtain ⟨q, rest, rfl⟩ := List.exists_cons_of_ne_nil hne
    exact Text.isBlank_of_mem (by simp) (hcore.head q.1 rfl)
  rw [readPart, bind_of_eq_ok hslice, hmap, hblank, hspan]
  rfl

/-- A part with a colon is read as what stands before it and behind it. -/
theorem readPart_of_colon {key value : Painted}
    (h : LiesAt ps i (key ++ (':', .code) :: value))
    (hcolon : m.findTop i (i + width (key ++ (':', .code) :: value)) ':' = some (i + width key)) :
    readPart m ⟨i, i + width (key ++ (':', .code) :: value)⟩ =
      .ok ((keyName? (trim (key.map Prod.fst))).bind fun name =>
        if isBlank (value.map Prod.fst) then none
        else some (name, trimmedSpan (i + width key + 1) (value.map Prod.fst))) := by
  have hsize : Char.utf8Size ':' = 1 := rfl
  obtain ⟨lead, rest, rfl, hlead, hrest⟩ := exists_lead key
  obtain ⟨front, trail, rfl, htrail, hfront⟩ := exists_trail value
  have hpart : (lead ++ rest) ++ (':', Kind.code) :: (front ++ trail) =
      lead ++ (rest ++ (':', .code) :: front) ++ trail := by simp
  have htrimmed : Text.IsTrimmed ((rest ++ (':', Kind.code) :: front).map Prod.fst) := by
    refine isTrimmed_of_ends ?_ ?_
    · cases rest with
      | nil => simpa using show Character.isSpace ':' = false by decide
      | cons q rest => exact hrest
    · intro q hq
      rw [List.getLast?_append_cons, List.getLast?_cons] at hq
      cases hlast : front.getLast? with
      | none =>
        obtain rfl : (':', Kind.code) = q := by simpa [hlast] using hq
        rfl
      | some r =>
        obtain rfl : r = q := by simpa [hlast] using hq
        exact hfront r hlast
  -- The part is trimmed before its colon is looked for, and what is cut off holds none.
  have hkey := h.left.right
  have hvalue := h.right.tail
  have hrestSlice := slice_of_painted hm hkey
  have hfrontSlice := slice_of_painted hm hvalue.left
  rw [hpart] at h hcolon ⊢
  have hstop : i + width lead + width (rest ++ (':', Kind.code) :: front) =
      i + width (lead ++ rest) + 1 + width front := by
    simp only [width_append, Slot.width_cons, hsize]
    omega
  have hcolonAt : i + width (lead ++ rest) = i + width lead + width rest := by
    rw [width_append, Nat.add_assoc]
  have hnil : isBlank [] := rfl
  have htrim := Text.trim_append (rest.map Prod.fst) hlead hnil
  rw [readPart_of_core hm h hlead htrail htrimmed (by simp), entryAt?,
    findTop_trimmed hm h hlead htrail, hcolon, hstop]
  rw [← hcolonAt] at hrestSlice
  rw [hsize] at hfrontSlice
  rw [List.append_nil] at htrim
  simp only [List.map_append]
  rw [bind_of_eq_ok hrestSlice, htrim]
  cases keyName? (trim (rest.map Prod.fst)) with
  | none => rfl
  | some name =>
    dsimp only
    rw [bind_of_eq_ok hfrontSlice, isBlank_append, htrail]
    cases hblank : isBlank (front.map Prod.fst) with
    | true =>
      have hle := Text.trimmedSpan_of_isBlank (i + width (lead ++ rest) + 1) hblank
      rw [if_neg (by omega)]
      rfl
    | false =>
      have hspan := Text.trimmedSpan_append hblank hnil htrail (i + width (lead ++ rest) + 1)
      rw [List.nil_append] at hspan
      rw [if_pos (Text.trimmedSpan_lt hblank _), hspan]
      rfl

/-- A part without a colon is read as a key that is its own value. -/
theorem readPart_of_no_colon (h : LiesAt ps i qs)
    (hcolon : m.findTop i (i + width qs) ':' = none) : readPart m ⟨i, i + width qs⟩ =
      .ok (if (trim (qs.map Prod.fst)).isIdentifier then
        some (trim (qs.map Prod.fst), trimmedSpan i (qs.map Prod.fst)) else none) := by
  obtain ⟨lead, core, trail, rfl, hlead, htrail, htrimmed⟩ := exists_core qs
  by_cases hne : core = []
  · subst hne
    have hblank : isBlank ((lead ++ [] ++ trail).map Prod.fst) := by
      simp [isBlank_append, hlead, htrail]
    rw [readPart, bind_of_eq_ok (slice_of_painted hm h), hblank, Text.trim_of_isBlank hblank]
    rfl
  · have hne' : core.map Prod.fst ≠ [] := by simpa using hne
    have htrim := htrimmed.trim_append hne' hlead htrail
    have hspan := htrimmed.trimmedSpan hne' hlead htrail i
    have hslice := slice_of_painted hm h.left.right
    rw [readPart_of_core hm h hlead htrail htrimmed hne, entryAt?,
      findTop_trimmed hm h hlead htrail, hcolon]
    simp only [List.map_append]
    rw [bind_of_eq_ok hslice, htrimmed.trim hne', htrim, hspan]
    rfl

end Parts

section Comments

/-- Whether a comment stands in the key of a part: before its first colon outside brackets, or
anywhere if it has none. -/
def commentedKey (m : CodeMap) (part : Span) : Bool :=
  (m.bytesFrom ((m.findTop part.start part.stop ':').getD part.stop - part.start) part.start).any
    (·.kind == .comment)

/-- Whether something in the range is neither a comment nor White_Space. -/
def lasts (m : CodeMap) (range : Span) : Bool :=
  (m.bytesFrom (range.stop - range.start) range.start).any fun s =>
    s.kind != .comment && s.char?.any fun c => !Character.isSpace c

/-- What is read from a part without a comment in its key, first with the comments in its value and
then with these blanked. -/
inductive Reading (ps : List (Char × Kind)) :
    Option (Text × Span) → Option (Text × Span) → Prop
  | skipped : Reading ps none none
  | entry (name : Text) {start : Nat} {mid : List (Char × Kind)} (h : LiesAt ps start mid) :
      Reading ps (some (name, ⟨start, start + width mid⟩))
        (if isBlank ((blanked mid).map Prod.fst) then none
        else some (name, trimmedSpan start ((blanked mid).map Prod.fst)))

variable {m m' : CodeMap} {ps qs : Painted} {i : Nat}

theorem isIdentifier_of_slash {u : Text} (h : '/' ∈ u) : u.isIdentifier = false := by
  by_contra hident
  have := Text.isIdentPart_of_isIdentifier (by simpa using hident) '/' h
  cases this

theorem mem_insideQuotes? {q : Char} {u v : Text} (hq : q ≠ '/') (hu : '/' ∈ u)
    (h : insideQuotes? q u = some v) : '/' ∈ v := by
  cases u with
  | nil => cases h
  | cons c rest =>
    rw [insideQuotes?] at h
    split_ifs at h with hquotes
    rw [Bool.and_eq_true, beq_iff_eq, beq_iff_eq] at hquotes
    obtain ⟨rfl, hlast⟩ := hquotes
    obtain ⟨init, rfl⟩ := List.getLast?_eq_some_iff.mp hlast
    obtain rfl : init = v := by simpa using h
    simpa [hq.symm] using hu

theorem keyName?_of_slash {u : Text} (h : '/' ∈ u) : keyName? u = none := by
  have hname : '/' ∈ ((insideQuotes? '\x27' u).orElse fun _ => insideQuotes? '\x22' u).getD u := by
    cases hsingle : insideQuotes? '\x27' u with
    | some v => exact mem_insideQuotes? (by decide) h hsingle
    | none =>
      cases hdouble : insideQuotes? '\x22' u with
      | some v => exact mem_insideQuotes? (by decide) h hdouble
      | none => exact h
  rw [keyName?, isIdentifier_of_slash hname]
  rfl

theorem any_comment (qs : Painted) :
    (paint qs).any (·.kind == .comment) ↔ ∃ q ∈ qs, q.2 = .comment := by
  rw [List.any_eq_true]
  constructor
  · rintro ⟨s, hs, hk⟩
    obtain ⟨q, hq, hs⟩ := List.mem_flatMap.mp hs
    refine ⟨q, hq, ?_⟩
    rw [← Slot.kind_of_mem_ofChar hs]
    simpa using hk
  · rintro ⟨q, hq, hk⟩
    exact ⟨⟨some q.1, q.2⟩, List.mem_flatMap.mpr ⟨q, hq, by simp [ofChar]⟩, by simp [hk]⟩

theorem lasts_paint (qs : Painted) :
    ((paint qs).any fun s => s.kind != .comment && s.char?.any fun c => !Character.isSpace c) =
      !isBlank ((blanked qs).map Prod.fst) := by
  induction qs with
  | nil => rfl
  | cons q qs ih =>
    obtain ⟨c, k⟩ := q
    rw [Slot.paint_cons, List.any_append, Slot.blanked_cons, List.map_append,
      isBlank_append, Bool.not_and]
    congr 1
    by_cases hk : k = .comment
    · subst hk
      rw [Text.isBlank_blankChar_comment, List.any_eq_false.mpr]
      · rfl
      · intro s hs
        simp [Slot.kind_of_mem_ofChar hs]
    · rw [Slot.blankChar_of_ne hk]
      simp [ofChar, isBlank, hk]

/-- A value is read with White_Space around it left out, with its comments and without them. -/
theorem reading_of_value (name : Text) (h : LiesAt ps i qs)
    (hblank : isBlank (qs.map Prod.fst) = false) :
    Reading ps (some (name, trimmedSpan i (qs.map Prod.fst)))
      (if isBlank ((blanked qs).map Prod.fst) then none
      else some (name, trimmedSpan i ((blanked qs).map Prod.fst))) := by
  obtain ⟨lead, mid, trail, rfl, hlead, htrail, htrimmed⟩ := exists_core qs
  have hmid : mid.map Prod.fst ≠ [] := by
    intro hnil
    rw [List.map_append, List.map_append, isBlank_append, isBlank_append, hlead, htrail,
      hnil] at hblank
    cases hblank
  have hreading := Reading.entry name h.left.right
  have hspan := htrimmed.trimmedSpan hmid hlead htrail i
  have hlead' := isBlank_blanked hlead
  have htrail' := isBlank_blanked htrail
  simp only [Slot.blanked_append, List.map_append, isBlank_append, hlead', htrail',
    Bool.true_and, Bool.and_true, hspan]
  cases hvalue : isBlank ((blanked mid).map Prod.fst) with
  | true =>
    rw [hvalue] at hreading
    exact hreading
  | false =>
    have hsize : size ((blanked lead).map Prod.fst) = width lead := width_blanked lead
    rw [hvalue] at hreading
    rw [Text.trimmedSpan_append hvalue hlead' htrail', hsize]
    exact hreading

theorem blanked_of_any_comment (h : (paint qs).any (·.kind == .comment) = false) :
    blanked qs = qs := by
  refine Slot.blanked_of_not_comment fun q hq hk => ?_
  rw [(any_comment qs).mpr ⟨q, hq, hk⟩] at h
  cases h

variable (hm : m.Shows ps) (hm' : m'.Shows (blanked ps))

/-- A part gives nothing if a comment stands in its key, and otherwise one reading with the comments
of its value and one without them. -/
def BothRead (ps : List (Char × Kind)) (m m' : CodeMap) (part : Span) : Prop :=
  ∃ r r', readPart m part = .ok r ∧ readPart m' part = .ok r' ∧
    (commentedKey m part = true → r = none) ∧ (commentedKey m part = false → Reading ps r r')

include hm hm'

theorem bothRead_of_no_colon (h : LiesAt ps i qs) (hopen : CommentsOpen (some .code) qs)
    (hcolon : m.findTop i (i + width qs) ':' = none) : BothRead ps m m' ⟨i, i + width qs⟩ := by
  have hcolon' := (blanks_of_shows hm hm').findTop i (i + width qs)
  have hread := readPart_of_no_colon hm h hcolon
  have hread' := readPart_of_no_colon hm' h.blanked (by rw [width_blanked, hcolon', hcolon])
  rw [width_blanked] at hread'
  have hkey : commentedKey m ⟨i, i + width qs⟩ = (paint qs).any (·.kind == .comment) := by
    simp only [commentedKey, hcolon, Option.getD_none, Nat.add_sub_cancel_left]
    rw [bytesFrom_of_liesAt hm h]
  refine ⟨_, _, hread, hread', fun hcomment => ?_, fun hnone => ?_⟩
  · have hslash := hopen.slash_mem (by simp) ((any_comment qs).mp (hkey ▸ hcomment))
    rw [isIdentifier_of_slash (mem_trim hslash rfl)]
    rfl
  · have hplain := blanked_of_any_comment (hkey ▸ hnone)
    rw [hplain]
    split_ifs with hident
    · have hblank : isBlank (qs.map Prod.fst) = false := by
        by_contra hblank
        rw [Text.trim_of_isBlank (by simpa using hblank)] at hident
        cases hident
      have hreading := reading_of_value (trim (qs.map Prod.fst)) h hblank
      rw [hplain, hblank] at hreading
      exact hreading
    · exact .skipped

theorem bothRead_of_colon {key value : Painted}
    (h : LiesAt ps i (key ++ (':', .code) :: value)) (hopen : CommentsOpen (some .code) key)
    (hcolon : m.findTop i (i + width (key ++ (':', .code) :: value)) ':' = some (i + width key)) :
    BothRead ps m m' ⟨i, i + width (key ++ (':', .code) :: value)⟩ := by
  have hcolon' := (blanks_of_shows hm hm').findTop i (i + width (key ++ (':', .code) :: value))
  have hblank : blanked (key ++ (':', Kind.code) :: value) =
      blanked key ++ (':', .code) :: blanked value := by
    rw [Slot.blanked_append]
    rfl
  have h' := h.blanked
  have hwidth := width_blanked (key ++ (':', Kind.code) :: value)
  rw [hblank] at h' hwidth
  have hread := readPart_of_colon hm h hcolon
  have hread' := readPart_of_colon hm' h' (by rw [hwidth, hcolon', hcolon, width_blanked])
  rw [hwidth] at hread'
  have hkey : commentedKey m ⟨i, i + width (key ++ (':', Kind.code) :: value)⟩ =
      (paint key).any (·.kind == .comment) := by
    simp only [commentedKey, hcolon, Option.getD_some, Nat.add_sub_cancel_left]
    rw [bytesFrom_of_liesAt hm h.left]
  refine ⟨_, _, hread, hread', fun hcomment => ?_, fun hnone => ?_⟩
  · have hslash := hopen.slash_mem (by simp) ((any_comment key).mp (hkey ▸ hcomment))
    rw [keyName?_of_slash (mem_trim hslash rfl)]
    rfl
  · rw [blanked_of_any_comment (hkey ▸ hnone)]
    cases keyName? (trim (key.map Prod.fst)) with
    | none => exact .skipped
    | some name =>
      cases hvalue : isBlank (value.map Prod.fst) with
      | true =>
        rw [isBlank_blanked hvalue]
        exact .skipped
      | false => exact reading_of_value name h.right.tail hvalue

theorem bothRead (h : LiesAt ps i qs) (hopen : CommentsOpen (some .code) qs) :
    BothRead ps m m' ⟨i, i + width qs⟩ := by
  cases hcolon : m.findTop i (i + width qs) ':' with
  | none => exact bothRead_of_no_colon hm hm' h hopen hcolon
  | some colon =>
    obtain ⟨hle, hlt, hchar⟩ := findTop_spec hcolon
    obtain ⟨key, value, rfl, rfl⟩ := split_of_liesAt hm h hle hlt (isCodeChar_iff.mp hchar)
    exact bothRead_of_colon hm hm' h hopen.left hcolon

end Comments

section Literals

/-- The text is an object literal with nothing but White_Space around it. -/
def IsLiteral (t : Text) : Prop :=
  ∃ close, (ofText t).matching (t.trimmedSpan 0).start = some close ∧
    (ofText t).charAt? (t.trimmedSpan 0).start = some '\x7b' ∧ close + 1 = (t.trimmedSpan 0).stop

/-- The parts of a literal between its commas. -/
def literalParts (t : Text) : List Span :=
  (ofText t).splitTop (literalRange (ofText t) t).start (literalRange (ofText t) t).stop ','

variable {t : Text}

theorem literalRange_of_matching {m : CodeMap} {close : Nat}
    (hmatch : m.matching (t.trimmedSpan 0).start = some close)
    (hbrace : m.charAt? (t.trimmedSpan 0).start = some '\x7b')
    (hstop : close + 1 = (t.trimmedSpan 0).stop) :
    literalRange m t = ⟨(t.trimmedSpan 0).start + 1, close⟩ := by
  rw [literalRange, hmatch]
  simp [hbrace, hstop]

/-- What lies between two brackets, these included, neither starts nor ends with a comment. -/
theorem ends_of_matching {m : CodeMap} {lead core trail : Painted} {close : Nat}
    (hm : m.Shows (lead ++ core ++ trail)) (hmatch : m.matching (width lead) = some close)
    (hclose : close + 1 = width lead + width core) :
    (∀ q ∈ core.head?, q.2 ≠ .comment) ∧ ∀ q ∈ core.getLast?, q.2 ≠ .comment := by
  obtain ⟨hopens, hcloses, -, -⟩ := matching_spec hmatch
  have hfirst := isCode_of_opens hopens
  have hlast := isCode_of_closes hcloses
  constructor
  · rintro ⟨c, k⟩ hq
    cases core with
    | nil => cases hq
    | cons q core =>
      obtain rfl : q = (c, k) := by simpa using hq
      have hps : lead ++ (c, k) :: core ++ trail = lead ++ (c, k) :: (core ++ trail) := by simp
      have hs := (slot_iff hm).mpr ⟨lead, core ++ trail, hps, rfl⟩
      rw [show k = .code from kind_of_isCode hfirst hs]
      simp
  · rintro ⟨c, k⟩ hq
    obtain ⟨init, rfl⟩ := List.getLast?_eq_some_iff.mp hq
    obtain ⟨s, hs, rfl⟩ := slots_last hm
      (show lead ++ (init ++ [(c, k)]) ++ trail = (lead ++ init) ++ (c, k) :: trail by simp)
      (by simpa [Nat.add_assoc] using hclose)
    rw [kind_of_isCode hlast hs]
    simp

theorem IsLiteral.lt (h : IsLiteral t) : (t.trimmedSpan 0).start < (t.trimmedSpan 0).stop := by
  obtain ⟨close, hmatch, -, hstop⟩ := h
  have := (matching_spec hmatch).2.2.1
  omega

theorem isBlank_of_trimmedSpan (h : (t.trimmedSpan 0).start < (t.trimmedSpan 0).stop) :
    t.isBlank = false := by
  by_contra hblank
  have := Text.trimmedSpan_of_isBlank 0 (show t.isBlank = true by simpa using hblank)
  omega

theorem trimmedSpan_blankComments (hliteral : IsLiteral t) :
    t.blankComments.trimmedSpan 0 = t.trimmedSpan 0 := by
  have hnotBlank := isBlank_of_trimmedSpan hliteral.lt
  obtain ⟨close, hmatch, -, hstop⟩ := hliteral
  have hm := ofText_shows t
  have hchars := kinds_chars t
  obtain ⟨lead, core, trail, hkinds, hlead, htrail, htrimmed⟩ := exists_core (kinds t)
  have htext : t = lead.map Prod.fst ++ core.map Prod.fst ++ trail.map Prod.fst := by
    rw [← hchars, hkinds]
    simp
  have hcore : core.map Prod.fst ≠ [] := by
    intro hnil
    rw [htext, hnil, isBlank_append, isBlank_append, hlead, htrail] at hnotBlank
    cases hnotBlank
  have hspan := htrimmed.trimmedSpan hcore hlead htrail 0
  rw [← htext] at hspan
  rw [hspan] at hmatch hstop
  rw [hkinds] at hm
  simp only [Nat.zero_add] at hmatch hstop
  -- The literal starts and ends with a bracket of code, which stays when the comments go.
  have hends := ends_of_matching hm hmatch hstop
  have hblanked : t.blankComments = (blanked lead).map Prod.fst ++ (blanked core).map Prod.fst ++
      (blanked trail).map Prod.fst := by
    rw [Text.blankComments, hkinds]
    simp
  have hsize : ∀ qs : Painted,
      size ((blanked qs).map Prod.fst) = size (qs.map Prod.fst) := width_blanked
  have hne : (blanked core).map Prod.fst ≠ [] := by
    cases core with
    | nil => exact absurd rfl hcore
    | cons q core =>
      rw [Slot.blanked_cons, Slot.blankChar_of_ne (hends.1 q rfl)]
      simp
  rw [hblanked, hspan, (isTrimmed_blanked htrimmed hends.1 hends.2).trimmedSpan hne
    (isBlank_blanked hlead) (isBlank_blanked htrail), hsize, hsize]

/-- Blanking the comments of a literal leaves its braces where they are. -/
theorem literalRange_blankComments (hliteral : IsLiteral t)
    (hkinds : kinds t.blankComments = blanked (kinds t)) :
    literalRange (ofText t.blankComments) t.blankComments = literalRange (ofText t) t ∧
      ∃ start close, literalRange (ofText t) t = ⟨start + 1, close⟩ ∧
        (ofText t).matching start = some close := by
  have hspan := trimmedSpan_blankComments hliteral
  obtain ⟨close, hmatch, hbrace, hstop⟩ := hliteral
  have hm' := ofText_shows t.blankComments
  rw [hkinds] at hm'
  have hblanks := blanks_of_shows (ofText_shows t) hm'
  have hrange := literalRange_of_matching hmatch hbrace hstop
  refine ⟨?_, _, _, hrange, hmatch⟩
  rw [hrange, ← hspan]
  refine literalRange_of_matching ?_ ?_ ?_
  · rw [hspan, hblanks.matching, hmatch]
  · rw [hspan, hblanks.charAt?_of_isCode (isCode_of_opens (matching_spec hmatch).1), hbrace]
  · rw [hspan, hstop]

theorem exists_part {start close : Nat} (hmatch : (ofText t).matching start = some close)
    {part : Span} (h : part ∈ (ofText t).splitTop (start + 1) close ',') :
    ∃ qs, LiesAt (kinds t) part.start qs ∧ part = ⟨part.start, part.start + width qs⟩ ∧
      CommentsOpen (some .code) qs := by
  have hm := ofText_shows t
  obtain ⟨hwhole, -, -⟩ := splitTop_whole hm (matching_whole hm hmatch) rfl h
  obtain ⟨pre, qs, post, hkinds, hpre, hqs⟩ := boundary_split hm hwhole.left hwhole.right hwhole.le
  have hspec := matching_spec hmatch
  -- Before the part stands the brace or a comma, so that a comment in the part starts in it.
  obtain ⟨j, hj, hcode⟩ : ∃ j, part.start = j + 1 ∧ (ofText t).isCode j := by
    have hin : ∀ j ∈ (ofText t).outer ((ofText t).isCodeChar · ',') (start + 1) close,
        (start + 1 ≤ j ∧ j < close) ∧ (ofText t).isCodeChar j ',' := by
      intro j hj
      obtain ⟨hle, hlt, hchar⟩ := mem_outerFrom hj
      exact ⟨⟨hle, by omega⟩, hchar⟩
    obtain ⟨-, -, -, hfirst | ⟨j, hj, hstart⟩, -⟩ := mem_cut outerFrom_pairwise
      (fun j hj => (hin j hj).1) (by omega) h
    · exact ⟨start, hfirst, isCode_of_opens hspec.1⟩
    · exact ⟨j, hstart, isCodeChar_isCode (hin j hj).2⟩
  refine ⟨qs, ⟨pre, post, hkinds, hpre⟩, ?_, ?_⟩
  · rw [← hpre, ← width_append, hqs, hpre]
  · have hopen : CommentsOpen none (pre ++ (qs ++ post)) := by
      rw [← List.append_assoc, ← hkinds]
      exact trace_commentsOpen start_commentRead
    rcases List.eq_nil_or_concat pre with rfl | ⟨init, ⟨c, k⟩, rfl⟩
    · rw [Slot.width_nil] at hpre
      omega
    · rw [List.concat_eq_append] at *
      obtain ⟨s, hs, rfl⟩ := slots_last hm
        (show kinds t = init ++ (c, k) :: (qs ++ post) by rw [hkinds]; simp)
        (show j + 1 = _ by rw [← hj, ← hpre]; simp)
      have hright := hopen.right.left
      rwa [List.getLast?_concat, kind_of_isCode hcode hs] at hright

end Literals

section Models

/-- The comments in a part do no harm: one in its key hides no entry, and no value is a comment
alone. -/
def undisturbed (t : Text) (part : Span) : Bool :=
  if commentedKey (ofText t) part then
    match readPart (ofText t.blankComments) part with
    | .ok none => true
    | _ => false
  else
    match readPart (ofText t) part with
    | .ok (some (_, value)) => lasts (ofText t) value
    | _ => true

/-- The same key, or none, is read from a part with its comments and without them. -/
def ReadAlike (t : Text) (part : Span) : Prop :=
  ∃ r r', readPart (ofText t) part = .ok r ∧ readPart (ofText t.blankComments) part = .ok r' ∧
    r.map Prod.fst = r'.map Prod.fst

/-- Two entries, the second read without comments: they have the same name, and the value of the
second is the value of the first with its comments blanked and its ends trimmed. -/
structure SameEntry (t : Text) (base : Nat) (e e' : StateEntry) : Prop where
  name : e.name = e'.name
  value : ∃ pre mid post, kinds t = pre ++ mid ++ post ∧ e.value = mid.map Prod.fst ∧
    e.range = Span.clamp ⟨base + width pre, base + width (pre ++ mid)⟩ ∧
    e'.value = trim ((blanked mid).map Prod.fst)

variable {t : Text} {base base' : Nat} {e e' : StateEntry}

theorem any_name_of_forall₂ {entries entries' : List StateEntry} (name : Text)
    (h : List.Forall₂ (SameEntry t base) entries entries') :
    entries.any (·.name == name) = entries'.any (·.name == name) := by
  induction h with
  | nil => rfl
  | cons he _ ih => rw [List.any_cons, List.any_cons, he.name, ih]

/-- Inserting corresponding entries keeps the models in correspondence. -/
theorem SameEntry.insert {model model' : StateModel} (he : SameEntry t base e e')
    (h : List.Forall₂ (SameEntry t base) model.entries model'.entries) (range range' : Span) :
    List.Forall₂ (SameEntry t base) (model.insert e range).entries
      (model'.insert e' range').entries := by
  rw [StateModel.insert, StateModel.insert, any_name_of_forall₂ e.name h, he.name]
  split
  · generalize model.entries = entries, model'.entries = entries' at h
    induction h with
    | nil => exact .nil
    | cons hd _ ih =>
      refine .cons ?_ ih
      simp only [hd.name, he.name]
      split
      · exact he
      · exact hd
  · exact List.rel_append h (.cons he .nil)

section Adding

variable {m : CodeMap} {ps : Painted} (hm : m.Shows ps) {part : Span}
  (hw : m.Whole part.start part.stop) (model : StateModel)
include hm hw

theorem addPart_of_skipped (h : readPart m part = .ok none) :
    Yields (addPart m base model part) fun next => next.entries = model.entries := by
  obtain ⟨text, htext, hlies⟩ := slice_yields hm hw
  rw [readPart, bind_of_eq_ok htext] at h
  rw [addPart, bind_of_eq_ok htext]
  cases hblank : text.isBlank with
  | true => exact .ok rfl
  | false =>
    rw [hblank] at h
    change entryAt? m _ _ = _ at h
    have htrimmed := trimmedSpan_whole hm hlies.1 hblank
    have hle := htrimmed.le
    refine (Span.reported_yields (by omega)).bind fun range _ => ?_
    rw [bind_of_eq_ok h]
    exact (slice_yields hm htrimmed).bind fun _ _ => .ok rfl

theorem addPart_of_entry (base : Nat) {name value : Text} {range : Span}
    (h : readPart m part = .ok (some (name, range)))
    (hvalue : m.slice range.start range.stop = .ok value) :
    Yields (addPart m base model part) fun next => ∃ whole, next =
      model.insert ⟨name, value, Span.clamp ⟨base + range.start, base + range.stop⟩⟩ whole := by
  obtain ⟨text, htext, hlies⟩ := slice_yields hm hw
  rw [readPart, bind_of_eq_ok htext] at h
  rw [addPart, bind_of_eq_ok htext]
  cases hblank : text.isBlank with
  | true =>
    rw [hblank] at h
    cases h
  | false =>
    rw [hblank] at h
    change entryAt? m _ _ = _ at h
    have htrimmed := trimmedSpan_whole hm hlies.1 hblank
    have hle := htrimmed.le
    have hrange := (whole_of_slice hm hvalue).1.le
    refine (Span.reported_yields (by omega)).bind fun whole _ => ?_
    rw [bind_of_eq_ok h]
    dsimp only
    rw [bind_of_eq_ok hvalue, bind_of_eq_ok (reported_eq (by omega))]
    exact .ok ⟨whole, rfl⟩

end Adding

section Blanking

variable (hkinds : kinds t.blankComments = blanked (kinds t)) {part : Span}
  {qs : Painted} (hpart : part = ⟨part.start, part.start + width qs⟩)
  (hlies : LiesAt (kinds t) part.start qs) (hopen : CommentsOpen (some .code) qs)
include hkinds hpart hlies hopen

/-- A part is read alike with its comments and without them if and only if it is undisturbed. -/
theorem readAlike_iff : ReadAlike t part ↔ undisturbed t part := by
  have hm := ofText_shows t
  have hm' := ofText_shows t.blankComments
  rw [hkinds] at hm'
  obtain ⟨r, r', hr, hr', hcommented, hreading⟩ := bothRead hm hm' hlies hopen
  rw [← hpart] at hr hr' hcommented hreading
  have halike : ReadAlike t part ↔ r.map Prod.fst = r'.map Prod.fst := by
    constructor
    · rintro ⟨s, s', hs, hs', heq⟩
      rw [hr] at hs
      rw [hr'] at hs'
      cases hs
      cases hs'
      exact heq
    · exact fun heq => ⟨r, r', hr, hr', heq⟩
  rw [halike, undisturbed, hr, hr']
  cases hkey : commentedKey (ofText t) part with
  | true =>
    rw [hcommented hkey]
    cases r' <;> simp
  | false =>
    cases hreading hkey with
    | skipped => simp
    | entry name h =>
      rename_i start mid
      have hlasts : lasts (ofText t) ⟨start, start + width mid⟩ =
          !isBlank ((blanked mid).map Prod.fst) := by
        rw [lasts, Nat.add_sub_cancel_left, bytesFrom_of_liesAt hm h, lasts_paint]
      cases hblank : isBlank ((blanked mid).map Prod.fst) <;> simp [hlasts, hblank]

/-- An undisturbed part adds corresponding entries to both models. -/
theorem addPart_blankComments (h : undisturbed t part) {model model' : StateModel}
    (hmodels : List.Forall₂ (SameEntry t base) model.entries model'.entries) :
    Mirrors (addPart (ofText t) base model part)
      (addPart (ofText t.blankComments) base' model' part)
      fun next next' => List.Forall₂ (SameEntry t base) next.entries next'.entries := by
  have halike := (readAlike_iff hkinds hpart hlies hopen).mpr h
  have hm := ofText_shows t
  have hm' := ofText_shows t.blankComments
  rw [hkinds] at hm'
  have hw := (whole_of_slice hm (slice_of_painted hm hlies)).1
  have hw' := (whole_of_slice hm' (slice_of_painted hm' hlies.blanked)).1
  rw [width_blanked] at hw'
  obtain ⟨r, r', hr, hr', hcommented, hreading⟩ := bothRead hm hm' hlies hopen
  rw [← hpart] at hr hr' hcommented hreading
  rw [show part.start + width qs = part.stop by rw [hpart]] at hw hw'
  obtain ⟨s, s', hs, hs', heq⟩ := halike
  obtain rfl : r = s := Except.ok.inj (hr.symm.trans hs)
  obtain rfl : r' = s' := Except.ok.inj (hr'.symm.trans hs')
  -- Nothing is read from a part with or without a comment in its key; the models stay as they are.
  have hskip : r = none → r' = none → Mirrors (addPart (ofText t) base model part)
      (addPart (ofText t.blankComments) base' model' part)
      fun next next' => List.Forall₂ (SameEntry t base) next.entries next'.entries := by
    rintro rfl rfl
    obtain ⟨next, hnext, hentries⟩ := addPart_of_skipped hm hw model hr
    obtain ⟨next', hnext', hentries'⟩ := addPart_of_skipped hm' hw' model' hr'
    exact .of_eq hnext hnext' (by rwa [hentries, hentries'])
  cases hkey : commentedKey (ofText t) part with
  | true =>
    have hnone := hcommented hkey
    exact hskip hnone (by simpa [hnone] using heq.symm)
  | false =>
    cases hreading hkey with
    | skipped => exact hskip rfl rfl
    | entry name hmid =>
      rename_i start mid
      have hblank : isBlank ((blanked mid).map Prod.fst) = false := by
        by_contra hblank
        simp [hblank] at heq
      rw [hblank] at hr'
      obtain ⟨hlies', hstop', -⟩ := Text.trimmedSpan_lies hmid.blanked.chars hblank
      have hvalue := slice_of_painted hm hmid
      have hvalue' := (slice_of_liesAt hm' hlies').2
      rw [← hstop'] at hvalue'
      obtain ⟨next, hnext, whole, rfl⟩ := addPart_of_entry hm hw model base hr hvalue
      obtain ⟨next', hnext', whole', rfl⟩ := addPart_of_entry hm' hw' model' base' hr' hvalue'
      refine .of_eq hnext hnext' (SameEntry.insert ?_ hmodels whole whole')
      obtain ⟨pre, post, hsplit, rfl⟩ := hmid
      exact ⟨rfl, pre, mid, post, hsplit, rfl, by rw [width_append], rfl⟩

end Blanking

/-- The state model of an object literal and of the literal with its comments blanked.  A part of
the literal is read alike in both if and only if no comment in its key hides an entry and its value
is not a comment alone.  If this holds of all parts, the entries have the same names in the same
order, and blanking the comments of each value and trimming it gives the value without comments. -/
theorem build_blankComments (hliteral : IsLiteral t)
    (hmarkup : withMarkup t.blankComments = true → withMarkup t = true) (range range' : Span) :
    (∀ part ∈ literalParts t, ReadAlike t part ↔ undisturbed t part = true) ∧
      ∃ model model', build (some ⟨t, range⟩) = .ok model ∧
        build (some ⟨t.blankComments, range'⟩) = .ok model' ∧
        ((∀ part ∈ literalParts t, undisturbed t part = true) →
          List.Forall₂ (SameEntry t range.start) model.entries model'.entries) := by
  have hkinds := kinds_blankComments hmarkup
  obtain ⟨hrange, start, close, hliteralRange, hmatch⟩ := literalRange_blankComments hliteral hkinds
  have hpart : ∀ part ∈ literalParts t, ∃ qs, Slot.LiesAt (kinds t) part.start qs ∧
      part = ⟨part.start, part.start + width qs⟩ ∧ CommentsOpen (some .code) qs := by
    rw [literalParts, hliteralRange]
    exact fun part hpart => exists_part hmatch hpart
  have hparts : literalParts t.blankComments = literalParts t := by
    have hm' := ofText_shows t.blankComments
    rw [hkinds] at hm'
    rw [literalParts, literalParts, hrange, (blanks_of_shows (ofText_shows t) hm').splitTop]
  have hlt := hliteral.lt
  have hlt' := hlt
  rw [← trimmedSpan_blankComments hliteral] at hlt'
  obtain ⟨model, hmodel, -⟩ := build_yields_of_not_blank (isBlank_of_trimmedSpan hlt) range
  obtain ⟨model', hmodel', -⟩ := build_yields_of_not_blank (isBlank_of_trimmedSpan hlt') range'
  refine ⟨fun part hmem => ?_, model, model', hmodel, hmodel', fun hall => ?_⟩
  · obtain ⟨qs, hlies, hspan, hopen⟩ := hpart part hmem
    exact readAlike_iff hkinds hspan hlies hopen
  · change (literalParts t).foldlM _ _ = _ at hmodel
    change (literalParts t.blankComments).foldlM _ _ = _ at hmodel'
    rw [hparts, ← List.map_id (literalParts t)] at hmodel'
    have hstep : ∀ part ∈ literalParts t, ∀ next next' : StateModel,
        List.Forall₂ (SameEntry t range.start) next.entries next'.entries →
        Mirrors (addPart (ofText t) range.start next part)
          (addPart (ofText t.blankComments) range'.start next' (id part))
          fun next next' => List.Forall₂ (SameEntry t range.start) next.entries next'.entries := by
      intro part hmem next next' hnext
      obtain ⟨qs, hlies, hspan, hopen⟩ := hpart part hmem
      exact addPart_blankComments hkinds hspan hlies hopen (hall part hmem) hnext
    have hempty : List.Forall₂ (SameEntry t range.start) empty.entries empty.entries := .nil
    obtain ⟨last, hlast, hentries⟩ := Mirrors.foldlM hstep hempty model hmodel
    rw [hmodel'] at hlast
    cases hlast
    exact hentries

/-- Comments behind a value, inside one and behind the last comma are no part of the model. -/
theorem build_blankComments_inside :
    let t : Text := "\x7b a: 1 /* one */, b, c: [x, /* y: */ z], // end\n \x7d"
    (IsLiteral t ∧ (withMarkup t.blankComments = true → withMarkup t = true) ∧
        ∀ part ∈ literalParts t, undisturbed t part = true) ∧
      ∃ model model', build (some ⟨t, ⟨7, 57⟩⟩) = .ok model ∧
        build (some ⟨t.blankComments, ⟨7, 57⟩⟩) = .ok model' ∧
        model'.entries.map (·.value) = ["1", "b", "[x,          z]"].map String.toList ∧
        List.Forall₂ (SameEntry t 7) model.entries model'.entries := by
  intro t
  have hliteral : IsLiteral t := ⟨49, by decide +kernel, by decide +kernel, by decide +kernel⟩
  have hmarkup : withMarkup t.blankComments = true → withMarkup t = true := by decide +kernel
  have hparts : ∀ part ∈ literalParts t, undisturbed t part = true := by decide +kernel
  obtain ⟨-, model, model', hmodel, hmodel', hentries⟩ :=
    build_blankComments hliteral hmarkup ⟨7, 57⟩ ⟨7, 57⟩
  have hvalues : (build (some ⟨t.blankComments, ⟨7, 57⟩⟩)).map (·.entries.map (·.value)) =
      .ok (["1", "b", "[x,          z]"].map String.toList) := by decide +kernel
  rw [hmodel'] at hvalues
  exact ⟨⟨hliteral, hmarkup, hparts⟩, model, model', hmodel, hmodel', Except.ok.inj hvalues,
    hentries hparts⟩

/-- A comment before a key hides the entry. -/
theorem commented_key_hides_entry :
    let t : Text := "\x7b /* c */ a: 1 \x7d"
    IsLiteral t ∧ t.blankComments = "\x7b         a: 1 \x7d".toList ∧
      ∃ model model', build (some ⟨t, ⟨0, 16⟩⟩) = .ok model ∧
        build (some ⟨t.blankComments, ⟨0, 16⟩⟩) = .ok model' ∧
        model.entries = [] ∧ model'.entries = [⟨['a'], ['1'], ⟨13, 14⟩⟩] := by
  refine ⟨⟨15, by decide +kernel, by decide +kernel, by decide +kernel⟩, by decide +kernel,
    ⟨[], [⟨.stateEntrySkipped "/* c */ a: 1", ⟨2, 14⟩⟩]⟩, ⟨[⟨['a'], ['1'], ⟨13, 14⟩⟩], []⟩, ?_, ?_,
    rfl, rfl⟩
  · decide +kernel
  · decide +kernel

end Models

end StateModel

end Declass
