import Declass.Proofs.BlankedComments
import Declass.Proofs.Trimming

/-!
# Maps with blanked comments

**Input.** The map of a text, and the map of the text with its comments blanked.

**Results.**
* `CodeMap.Blanks`: the two maps have the same brackets, commas and colons of code, so they are
  matched, split and searched alike.
* `isBlank_blanked` and `isTrimmed_blanked`: what blanking does to White_Space and to trimmed text.
* `findTop_trimmed`: White_Space at the ends of a range does not change where its colon is.
-/

namespace Declass

open Scan CodeMap
open Slot (width blanked)
open Character (isSpace)
open Text (IsTrimmed isBlank)

section Maps

variable {m m' : CodeMap} {ps : Painted} {c : Char}

/-- The second map is the first with its comments blanked. -/
def CodeMap.Blanks (m m' : CodeMap) : Prop := m'.slots = m.slots.map Slot.blank

theorem blanks_of_shows (hm : m.Shows ps) (hm' : m'.Shows (blanked ps)) : m.Blanks m' := by
  refine Array.toList_inj.mp ?_
  rw [hm', Slot.paint_blanked, Array.toList_map, hm]

theorem Slot.isCodeChar_blank (hc : c ≠ ' ' ∧ c ≠ '\n') (s : Slot) :
    s.blank.isCodeChar c = s.isCodeChar c := by
  by_cases hk : s.kind = .comment
  · obtain ⟨char, kind⟩ := s
    subst hk
    have hne : char.elim ' ' filler ≠ c := by
      cases char with
      | none => exact hc.1.symm
      | some d =>
        rcases filler_cases d with h | h <;> rw [Option.elim_some, h]
        · exact hc.1.symm
        · exact hc.2.symm
    exact beq_false_of_ne fun h => hne (Option.some.inj h)
  · rw [blank_of_ne hk]

theorem Slot.opens_blank (s : Slot) : s.blank.opens = s.opens := by
  rw [opens, opens, isCodeChar_blank (c := '(') (by decide),
    isCodeChar_blank (c := '[') (by decide), isCodeChar_blank (c := '\x7b') (by decide)]

theorem Slot.closes_blank (s : Slot) : s.blank.closes = s.closes := by
  rw [closes, closes, isCodeChar_blank (c := ')') (by decide),
    isCodeChar_blank (c := ']') (by decide), isCodeChar_blank (c := '\x7d') (by decide)]

namespace CodeMap.Blanks

variable (h : m.Blanks m')
include h

theorem getElem? (i : Nat) : m'.slots[i]? = m.slots[i]?.map Slot.blank := by
  rw [h, Array.getElem?_map]

theorem has {p : Slot → Bool} (hp : ∀ s : Slot, p s.blank = p s) (i : Nat) :
    m'.has p i = m.has p i := by
  rw [CodeMap.has, CodeMap.has, h.getElem? i]
  cases m.slots[i]? with
  | none => rfl
  | some s => exact hp s

theorem opens (i : Nat) : m'.has Slot.opens i = m.has Slot.opens i := h.has Slot.opens_blank i

theorem closes (i : Nat) : m'.has Slot.closes i = m.has Slot.closes i := h.has Slot.closes_blank i

theorem isCodeChar (hc : c ≠ ' ' ∧ c ≠ '\n') : (m'.isCodeChar · c) = (m.isCodeChar · c) :=
  funext fun i => h.has (Slot.isCodeChar_blank hc) i

theorem charAt?_of_isCode {i : Nat} (hi : m.isCode i) : m'.charAt? i = m.charAt? i := by
  rw [CodeMap.charAt?, CodeMap.charAt?, h.getElem?]
  cases hs : m.slots[i]? with
  | none => rfl
  | some s =>
    rw [Option.map_some, Slot.blank_of_ne (by rw [kind_of_isCode hi hs]; simp)]

theorem matchFrom (count depth i : Nat) :
    m'.matchFrom count depth i = m.matchFrom count depth i := by
  induction count generalizing depth i with
  | zero => rfl
  | succ count ih => rw [CodeMap.matchFrom, CodeMap.matchFrom, h.opens, h.closes, ih, ih, ih]

theorem matching (i : Nat) : m'.matching i = m.matching i := by
  have hsize : m'.size = m.size := by rw [CodeMap.size, h, Array.size_map, CodeMap.size]
  rw [CodeMap.matching, CodeMap.matching, h.opens, hsize, h.matchFrom]

theorem outerFrom (p : Nat → Bool) (count depth i : Nat) :
    m'.outerFrom p count depth i = m.outerFrom p count depth i := by
  induction count generalizing depth i with
  | zero => rfl
  | succ count ih => rw [CodeMap.outerFrom, CodeMap.outerFrom, h.opens, h.closes, ih, ih, ih]

theorem splitTop (start stop : Nat) : m'.splitTop start stop ',' = m.splitTop start stop ',' := by
  rw [CodeMap.splitTop, CodeMap.splitTop, outer, outer, h.outerFrom, h.isCodeChar (by decide)]

theorem findTop (start stop : Nat) : m'.findTop start stop ':' = m.findTop start stop ':' := by
  rw [CodeMap.findTop, CodeMap.findTop, firstOuter?, firstOuter?, firstOuterFrom?_eq_head?,
    firstOuterFrom?_eq_head?, h.outerFrom, h.isCodeChar (by decide)]

end CodeMap.Blanks

end Maps

section Pieces

variable {ps qs core : Painted} {i : Nat}

theorem Slot.LiesAt.blanked (h : Slot.LiesAt ps i qs) :
    Slot.LiesAt (blanked ps) i (blanked qs) := by
  obtain ⟨pre, post, rfl, rfl⟩ := h
  exact ⟨Slot.blanked pre, Slot.blanked post, by simp, Slot.width_blanked pre⟩

theorem Text.isBlank_blankChar_comment (c : Char) :
    isBlank ((Slot.blankChar (c, .comment)).map Prod.fst) := by
  rw [Slot.blankChar_comment, Text.map_fst_asCode, isBlank, List.all_eq_true]
  intro d hd
  rw [(List.mem_replicate.mp hd).2]
  rcases Slot.filler_cases c with h | h <;> rw [h] <;> rfl

theorem Text.isBlank_blanked (h : isBlank (qs.map Prod.fst)) :
    isBlank ((blanked qs).map Prod.fst) := by
  induction qs with
  | nil => rfl
  | cons q qs ih =>
    obtain ⟨c, k⟩ := q
    rw [List.map_cons, isBlank, List.all_cons, Bool.and_eq_true] at h
    rw [Slot.blanked_cons, List.map_append, Text.isBlank_append, ih h.2, Bool.and_true]
    by_cases hk : k = .comment
    · subst hk
      exact Text.isBlank_blankChar_comment c
    · rw [Slot.blankChar_of_ne hk]
      simpa [isBlank] using h.1

theorem exists_lead (qs : Painted) : ∃ lead rest, qs = lead ++ rest ∧
    isBlank (lead.map Prod.fst) ∧ ∀ q ∈ rest.head?, isSpace q.1 = false := by
  refine ⟨qs.takeWhile (isSpace ·.1), qs.dropWhile (isSpace ·.1),
    List.takeWhile_append_dropWhile.symm, ?_, ?_⟩
  · rw [isBlank, List.all_map]
    exact List.all_takeWhile
  · intro q hq
    have hnot := List.head?_dropWhile_not (fun p : Char × Kind => isSpace p.1) qs
    rw [hq] at hnot
    simpa using hnot

/-- Characters are others that end with no White_Space, and White_Space. -/
theorem exists_trail (qs : Painted) : ∃ front trail, qs = front ++ trail ∧
    isBlank (trail.map Prod.fst) ∧ ∀ q ∈ front.getLast?, isSpace q.1 = false := by
  obtain ⟨lead, rest, hqs, hlead, hrest⟩ := exists_lead qs.reverse
  refine ⟨rest.reverse, lead.reverse, ?_, ?_, fun q hq => hrest q (by simpa using hq)⟩
  · rw [← List.reverse_append, ← hqs, List.reverse_reverse]
  · simpa [isBlank] using hlead

theorem isTrimmed_of_ends (hhead : ∀ q ∈ core.head?, isSpace q.1 = false)
    (hlast : ∀ q ∈ core.getLast?, isSpace q.1 = false) :
    IsTrimmed (core.map Prod.fst) := by
  constructor
  · intro c hc
    rw [List.head?_map, Option.map_eq_some_iff] at hc
    obtain ⟨q, hq, rfl⟩ := hc
    exact hhead q hq
  · intro c hc
    rw [List.getLast?_map, Option.map_eq_some_iff] at hc
    obtain ⟨q, hq, rfl⟩ := hc
    exact hlast q hq

theorem exists_core (qs : Painted) : ∃ lead core trail, qs = lead ++ core ++ trail ∧
    isBlank (lead.map Prod.fst) ∧ isBlank (trail.map Prod.fst) ∧
      IsTrimmed (core.map Prod.fst) := by
  obtain ⟨lead, rest, rfl, hlead, hrest⟩ := exists_lead qs
  obtain ⟨core, trail, rfl, htrail, hcore⟩ := exists_trail rest
  refine ⟨lead, core, trail, (List.append_assoc _ _ _).symm, hlead, htrail, ?_⟩
  refine isTrimmed_of_ends (fun q hq => hrest q ?_) hcore
  rw [List.head?_append, hq]
  rfl

theorem isTrimmed_blanked (h : IsTrimmed (core.map Prod.fst))
    (hhead : ∀ q ∈ core.head?, q.2 ≠ .comment) (hlast : ∀ q ∈ core.getLast?, q.2 ≠ .comment) :
    IsTrimmed ((blanked core).map Prod.fst) := by
  constructor
  · intro c hc
    cases core with
    | nil => cases hc
    | cons q core =>
      rw [Slot.blanked_cons, Slot.blankChar_of_ne (hhead q rfl)] at hc
      exact h.head c hc
  · intro c hc
    rcases List.eq_nil_or_concat core with rfl | ⟨init, q, rfl⟩
    · cases hc
    · rw [List.concat_eq_append] at *
      rw [Slot.blanked_append, Slot.blanked_cons, Slot.blankChar_of_ne (hlast q (by simp))] at hc
      exact h.last c (by simpa using hc)

end Pieces

section Gaps

variable {m : CodeMap} {ps qs : Painted} {i : Nat}

/-- What looks for a character that is no White_Space finds none in White_Space. -/
theorem has_of_isBlank (hm : m.Shows ps) (h : Slot.LiesAt ps i qs)
    (hblank : isBlank (qs.map Prod.fst)) {p : Slot → Bool}
    (hp : ∀ s, p s → ∃ c, s.char? = some c ∧ isSpace c = false) :
    ∀ j, i ≤ j → j < i + width qs → m.has p j = false := by
  intro j hij hj
  by_contra hhas
  obtain ⟨s, hs, hps⟩ := has_eq_true.mp (by simpa using hhas)
  rw [slots_of_liesAt hm h hij hj] at hs
  have hmem := List.mem_of_getElem? hs
  obtain ⟨c, hc, hspace⟩ := hp s hps
  have hchar : c ∈ qs.map Prod.fst := by
    rw [← Slot.filterMap_paint]
    exact List.mem_filterMap.mpr ⟨s, hmem, hc⟩
  rw [Text.isBlank_of_mem hchar hspace] at hblank
  cases hblank

theorem not_isSpace_of_isCodeChar {c : Char} (hc : isSpace c = false) {s : Slot}
    (h : s.isCodeChar c) : ∃ c, s.char? = some c ∧ isSpace c = false := by
  rw [Slot.isCodeChar, Bool.and_eq_true, beq_iff_eq] at h
  exact ⟨c, h.2, hc⟩

theorem gap_of_isBlank (hm : m.Shows ps) (h : Slot.LiesAt ps i qs)
    (hblank : isBlank (qs.map Prod.fst)) :
    ∀ j, i ≤ j → j < i + width qs → m.has Slot.opens j = false ∧ m.has Slot.closes j = false ∧
      m.isCodeChar j ':' = false := by
  intro j hij hj
  refine ⟨has_of_isBlank hm h hblank ?_ j hij hj, has_of_isBlank hm h hblank ?_ j hij hj,
    has_of_isBlank hm h hblank ?_ j hij hj⟩
  · intro s hs
    rw [Slot.opens, Bool.or_eq_true, Bool.or_eq_true] at hs
    rcases hs with (hs | hs) | hs <;> exact not_isSpace_of_isCodeChar (by decide) hs
  · intro s hs
    rw [Slot.closes, Bool.or_eq_true, Bool.or_eq_true] at hs
    rcases hs with (hs | hs) | hs <;> exact not_isSpace_of_isCodeChar (by decide) hs
  · exact fun s hs => not_isSpace_of_isCodeChar (by decide) hs

/-- White_Space at the ends of a range does not change where its colon is. -/
theorem findTop_trimmed (hm : m.Shows ps) {lead core trail : Painted}
    (h : Slot.LiesAt ps i (lead ++ core ++ trail)) (hlead : isBlank (lead.map Prod.fst))
    (htrail : isBlank (trail.map Prod.fst)) :
    m.findTop (i + width lead) (i + width lead + width core) ':' =
      m.findTop i (i + width (lead ++ core ++ trail)) ':' := by
  have hfirst := gap_of_isBlank hm h.left.left hlead
  have hlast := gap_of_isBlank hm h.right htrail
  rw [Slot.width_append, ← Nat.add_assoc] at hlast
  rw [findTop, findTop, firstOuter?, firstOuter?, firstOuterFrom?_eq_head?,
    firstOuterFrom?_eq_head?]
  have hcount : i + width (lead ++ core ++ trail) - i =
      width lead + (width core + width trail) := by
    simp only [Slot.width_append]
    omega
  rw [hcount, outerFrom_gap fun j hij hj => ⟨(hfirst j hij hj).1, (hfirst j hij hj).2.1,
    fun _ => (hfirst j hij hj).2.2⟩, outerFrom_gap_last hlast, Nat.add_sub_cancel_left]

end Gaps

end Declass
