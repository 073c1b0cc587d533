import Declass.Proofs.Boundaries

/-!
# Brackets

**Results.** What the walks over brackets give: the partner of a bracket, the positions outside all
brackets, and the parts that a separator leaves of a range of whole characters, which are whole
themselves.  Every bracket and every separator is a character of one byte, so the position before it
and the position behind it are boundaries.

Counting is checked as well: `matchingChecked` has no answer where a bracket would be taken from a
count of zero, and `matchingChecked_eq` says that this never happens.
-/

namespace Declass

namespace CodeMap

section Characters

variable {m : CodeMap} {ps : Painted} {i : Nat} {c : Char}

theorem isCodeChar_iff : m.isCodeChar i c ↔ m.slots[i]? = some ⟨some c, .code⟩ := by
  rw [isCodeChar, has_eq_true]
  constructor
  · rintro ⟨⟨d, k⟩, hs, h⟩
    simp only [Slot.isCodeChar, Slot.isCode, Bool.and_eq_true, beq_iff_eq] at h
    rw [hs, h.1, h.2]
  · intro h
    exact ⟨_, h, by simp [Slot.isCodeChar, Slot.isCode]⟩

theorem isCodeChar_charAt? (h : m.isCodeChar i c) : m.charAt? i = some c := by
  simp [charAt?, isCodeChar_iff.mp h]

theorem isCodeChar_isCode (h : m.isCodeChar i c) : m.isCode i := by
  simp [isCode, has, isCodeChar_iff.mp h, Slot.isCode]

theorem codeChar_boundary (hm : m.Shows ps) (h : m.isCodeChar i c) (hc : c.utf8Size = 1) :
    m.isBoundary i ∧ m.isBoundary (i + 1) := by
  simpa [hc] using charAt?_boundary hm (isCodeChar_charAt? h)

theorem codeChar_lt_size (h : m.isCodeChar i c) : i < m.size := by
  obtain ⟨hi, -⟩ := Array.getElem?_eq_some_iff.mp (isCodeChar_iff.mp h)
  exact hi

theorem has_or (p q : Slot → Bool) : m.has (fun s => p s || q s) i = (m.has p i || m.has q i) := by
  unfold has
  cases m.slots[i]? <;> rfl

theorem opens_iff : m.has Slot.opens i ↔
    m.isCodeChar i '(' ∨ m.isCodeChar i '[' ∨ m.isCodeChar i '\x7b' := by
  rw [← or_assoc, ← Bool.or_eq_true, ← Bool.or_eq_true, isCodeChar, isCodeChar, isCodeChar, ← has_or,
    ← has_or]
  rfl

theorem closes_iff : m.has Slot.closes i ↔
    m.isCodeChar i ')' ∨ m.isCodeChar i ']' ∨ m.isCodeChar i '\x7d' := by
  rw [← or_assoc, ← Bool.or_eq_true, ← Bool.or_eq_true, isCodeChar, isCodeChar, isCodeChar, ← has_or,
    ← has_or]
  rfl

theorem opens_boundary (hm : m.Shows ps) (h : m.has Slot.opens i) :
    m.isBoundary i ∧ m.isBoundary (i + 1) := by
  rcases opens_iff.mp h with h | h | h <;> exact codeChar_boundary hm h rfl

theorem closes_boundary (hm : m.Shows ps) (h : m.has Slot.closes i) :
    m.isBoundary i ∧ m.isBoundary (i + 1) := by
  rcases closes_iff.mp h with h | h | h <;> exact codeChar_boundary hm h rfl

theorem kind_of_isCode {s : Slot} (h : m.isCode i) (hs : m.slots[i]? = some s) :
    s.kind = .code := by
  obtain ⟨s', hs', hcode⟩ := has_eq_true.mp h
  rw [hs] at hs'
  cases hs'
  simpa [Slot.isCode] using hcode

theorem isCode_of_opens (h : m.has Slot.opens i) : m.isCode i := by
  rcases opens_iff.mp h with h | h | h <;> exact isCodeChar_isCode h

theorem isCode_of_closes (h : m.has Slot.closes i) : m.isCode i := by
  rcases closes_iff.mp h with h | h | h <;> exact isCodeChar_isCode h

end Characters

section Matching

variable {m : CodeMap} {ps : Painted}

theorem matchFrom_spec {count depth i c : Nat} (h : m.matchFrom count depth i = some c) :
    i ≤ c ∧ c < i + count ∧ m.has Slot.closes c := by
  induction count generalizing depth i with
  | zero => simp [matchFrom] at h
  | succ count ih =>
    rw [matchFrom] at h
    split at h
    · have := ih h
      exact ⟨by omega, by omega, this.2.2⟩
    · split at h
      · rename_i hclose
        split at h
        · obtain rfl : i = c := by simpa using h
          exact ⟨le_refl _, by omega, hclose⟩
        · have := ih h
          exact ⟨by omega, by omega, this.2.2⟩
      · have := ih h
        exact ⟨by omega, by omega, this.2.2⟩

/-- A pair of brackets: the first opens, the second closes, and they are apart. -/
theorem matching_spec {i c : Nat} (h : m.matching i = some c) :
    m.has Slot.opens i ∧ m.has Slot.closes c ∧ i < c ∧ c < m.size := by
  unfold matching at h
  split at h
  · rename_i hopen
    obtain ⟨s, hs, -⟩ := has_eq_true.mp hopen
    obtain ⟨hi, -⟩ := Array.getElem?_eq_some_iff.mp hs
    have hi : i < m.size := hi
    obtain ⟨n, hn⟩ : ∃ n, m.size - i = n + 1 := ⟨m.size - i - 1, by omega⟩
    rw [hn, matchFrom, if_pos hopen] at h
    have := matchFrom_spec h
    exact ⟨hopen, this.2.2, by omega, by omega⟩
  · cases h

/-- What stands between two brackets is a range of whole characters. -/
theorem matching_whole (hm : m.Shows ps) {i c : Nat} (h : m.matching i = some c) :
    m.Whole (i + 1) c := by
  obtain ⟨hopen, hclose, hic, -⟩ := matching_spec h
  exact ⟨hic, (opens_boundary hm hopen).2, (closes_boundary hm hclose).1⟩

/-- Two brackets and what stands between them are a range of whole characters. -/
theorem matching_whole_outside (hm : m.Shows ps) {i c : Nat} (h : m.matching i = some c) :
    m.Whole i (c + 1) := by
  obtain ⟨hopen, hclose, hic, -⟩ := matching_spec h
  exact ⟨by omega, (opens_boundary hm hopen).1, (closes_boundary hm hclose).2⟩

/-- `matchFrom` with the count of open brackets checked: there is no answer if one would have to be
taken from none. -/
def matchFromChecked (m : CodeMap) : Nat → Nat → Nat → Option (Option Nat)
  | 0, _, _ => some none
  | count + 1, depth, i =>
    if m.has Slot.opens i then matchFromChecked m count (depth + 1) (i + 1)
    else if m.has Slot.closes i then
      if depth = 0 then none
      else if depth = 1 then some (some i)
      else matchFromChecked m count (depth - 1) (i + 1)
    else matchFromChecked m count depth (i + 1)

/-- `matching` with the count of open brackets checked. -/
def matchingChecked (m : CodeMap) (i : Nat) : Option (Option Nat) :=
  if m.has Slot.opens i then m.matchFromChecked (m.size - i) 0 i else some none

theorem matchFromChecked_eq {count depth i : Nat} (h : 0 < depth) :
    m.matchFromChecked count depth i = some (m.matchFrom count depth i) := by
  induction count generalizing depth i with
  | zero => rfl
  | succ count ih =>
    rw [matchFromChecked, matchFrom]
    split
    · exact ih (by omega)
    · split
      · rw [if_neg (by omega)]
        by_cases h1 : depth = 1
        · rw [if_pos h1, if_pos (by omega)]
        · rw [if_neg h1, if_neg (by omega)]
          exact ih (by omega)
      · exact ih h

/-- Matching never takes a bracket from a count of zero. -/
theorem matchingChecked_eq (m : CodeMap) (i : Nat) : m.matchingChecked i = some (m.matching i) := by
  unfold matchingChecked matching
  split
  · rename_i hopen
    cases m.size - i with
    | zero => rfl
    | succ count =>
      rw [matchFromChecked, matchFrom, if_pos hopen, if_pos hopen]
      exact matchFromChecked_eq (by omega)
  · rfl

end Matching

section Outer

variable {m : CodeMap} {ps : Painted} {p : Nat → Bool} {count depth i j start stop : Nat}

theorem mem_outerFrom (h : j ∈ m.outerFrom p count depth i) : i ≤ j ∧ j < i + count ∧ p j := by
  induction count generalizing depth i with
  | zero => simp [outerFrom] at h
  | succ count ih =>
    rw [outerFrom] at h
    split at h
    · have := ih h
      exact ⟨by omega, by omega, this.2.2⟩
    · split at h
      · have := ih h
        exact ⟨by omega, by omega, this.2.2⟩
      · split at h
        · rename_i hp
          rcases List.mem_cons.mp h with rfl | h
          · simp only [Bool.and_eq_true] at hp
            exact ⟨le_refl _, by omega, hp.2⟩
          · have := ih h
            exact ⟨by omega, by omega, this.2.2⟩
        · have := ih h
          exact ⟨by omega, by omega, this.2.2⟩

theorem outerFrom_pairwise : (m.outerFrom p count depth i).Pairwise (· < ·) := by
  induction count generalizing depth i with
  | zero => simp [outerFrom]
  | succ count ih =>
    rw [outerFrom]
    split
    · exact ih
    · split
      · exact ih
      · split
        · refine List.Pairwise.cons (fun j hj => ?_) ih
          have := mem_outerFrom hj
          omega
        · exact ih

/-- The first position outside brackets is the first of all of them. -/
theorem firstOuterFrom?_eq_head? :
    m.firstOuterFrom? p count depth i = (m.outerFrom p count depth i).head? := by
  induction count generalizing depth i with
  | zero => rfl
  | succ count ih =>
    rw [firstOuterFrom?, outerFrom, ih, ih, ih]
    split_ifs <;> rfl

theorem firstOuter?_spec (h : m.firstOuter? p start stop = some j) :
    start ≤ j ∧ j < stop ∧ p j := by
  rw [firstOuter?, firstOuterFrom?_eq_head?] at h
  have := mem_outerFrom (List.mem_of_head? h)
  exact ⟨this.1, by omega, this.2.2⟩

theorem findTop_spec {c : Char} (h : m.findTop start stop c = some j) :
    start ≤ j ∧ j < stop ∧ m.isCodeChar j c := firstOuter?_spec h

/-- The parts between cuts in order lie in the range in order, and their ends are ends of the range
or cuts. -/
theorem mem_cut {cuts : List Nat} {part : Span} (hsorted : cuts.Pairwise (· < ·))
    (hin : ∀ j ∈ cuts, start ≤ j ∧ j < stop) (hle : start ≤ stop) (h : part ∈ cut start stop cuts) :
    start ≤ part.start ∧ part.start ≤ part.stop ∧ part.stop ≤ stop ∧
      (part.start = start ∨ ∃ j ∈ cuts, part.start = j + 1) ∧
      (part.stop = stop ∨ part.stop ∈ cuts) := by
  induction cuts generalizing start with
  | nil =>
    obtain rfl : part = ⟨start, stop⟩ := by simpa [cut] using h
    exact ⟨le_refl _, hle, le_refl _, .inl rfl, .inl rfl⟩
  | cons i cuts ih =>
    have hi := hin i (by simp)
    rcases List.mem_cons.mp h with rfl | h
    · exact ⟨le_refl _, hi.1, by simp only; omega, .inl rfl, .inr (by simp)⟩
    · have hcuts : ∀ j ∈ cuts, i + 1 ≤ j ∧ j < stop := fun j hj =>
        ⟨(List.pairwise_cons.mp hsorted).1 j hj, (hin j (by simp [hj])).2⟩
      obtain ⟨h1, h2, h3, h4, h5⟩ := ih (List.pairwise_cons.mp hsorted).2 hcuts (by omega) h
      refine ⟨by omega, h2, h3, .inr ?_, ?_⟩
      · rcases h4 with h4 | ⟨j, hj, h4⟩
        · exact ⟨i, by simp, h4⟩
        · exact ⟨j, by simp [hj], h4⟩
      · rcases h5 with h5 | h5
        · exact .inl h5
        · exact .inr (by simp [h5])

/-- The parts of a range lie in it, and between separators they start and stop at boundaries. -/
theorem splitTop_part (hm : m.Shows ps) {sep : Char} (hle : start ≤ stop) (hsep : sep.utf8Size = 1)
    {part : Span} (h : part ∈ m.splitTop start stop sep) :
    start ≤ part.start ∧ part.start ≤ part.stop ∧ part.stop ≤ stop ∧
      (part.start = start ∨ m.isBoundary part.start) ∧
      (part.stop = stop ∨ m.isBoundary part.stop) := by
  have hcuts : ∀ j ∈ m.outer (m.isCodeChar · sep) start stop,
      (start ≤ j ∧ j < stop) ∧ m.isCodeChar j sep := by
    intro j hj
    have := mem_outerFrom hj
    exact ⟨⟨this.1, by omega⟩, this.2.2⟩
  obtain ⟨h1, h2, h3, h4, h5⟩ := mem_cut outerFrom_pairwise (fun j hj => (hcuts j hj).1) hle h
  refine ⟨h1, h2, h3, h4.imp_right ?_, h5.imp_right fun h5 => ?_⟩
  · rintro ⟨j, hj, h4⟩
    rw [h4]
    exact (codeChar_boundary hm (hcuts j hj).2 hsep).2
  · exact (codeChar_boundary hm (hcuts _ h5).2 hsep).1

/-- The parts of a range of whole characters are ranges of whole characters inside it. -/
theorem splitTop_whole (hm : m.Shows ps) {sep : Char} (hw : m.Whole start stop)
    (hsep : sep.utf8Size = 1) {part : Span} (h : part ∈ m.splitTop start stop sep) :
    m.Whole part.start part.stop ∧ start ≤ part.start ∧ part.stop ≤ stop := by
  obtain ⟨h1, h2, h3, h4, h5⟩ := splitTop_part hm hw.le hsep h
  exact ⟨⟨h2, h4.elim (fun h => h ▸ hw.left) id, h5.elim (fun h => h ▸ hw.right) id⟩, h1, h3⟩

end Outer

end CodeMap

end Declass
