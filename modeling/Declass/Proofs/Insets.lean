import Declass.Proofs.Windows

/-!
# A pair of brackets inside another text

**Input.** A code map with a pair of matching brackets, and a second map that has the same bytes from
one bracket to the other, `d` bytes further on.

**Results.** `Inset.window`: what stands between the brackets is a range that both texts have.
`Inset.matching_eq`: brackets match in both maps alike, and words stand at the same places.
-/

namespace Declass

namespace CodeMap

/-- The brackets at `o` and `c` match, and the second map has what stands from one to the other `d`
bytes further on. -/
structure Inset (m m' : CodeMap) (d o c : Nat) : Prop where
  matching : m.matching o = some c
  slots : ∀ i, o ≤ i → i ≤ c → m'.slots[d + i]? = m.slots[i]?

namespace Inset

variable {m m' : CodeMap} {d o c i start stop : Nat} {p : Slot → Bool} (h : Inset m m' d o c)
include h

theorem lt : o < c := (matching_spec h.matching).2.2.1

theorem opens : m.has Slot.opens o := (matching_spec h.matching).1

theorem closes : m.has Slot.closes c := (matching_spec h.matching).2.1

theorem has_eq (ho : o ≤ i) (hc : i ≤ c) (p : Slot → Bool) : m'.has p (d + i) = m.has p i := by
  rw [has, has, h.slots i ho hc]

theorem closes' : m'.has Slot.closes (d + c) :=
  (h.has_eq (le_of_lt h.lt) (le_refl c) _).trans h.closes

theorem window : Window m m' d o c where
  slots i ho hc := h.slots i ho (le_of_lt hc)
  ends := .code (ends_of_closes h.closes) (ends_of_closes h.closes')

theorem lt_size : d + c < m'.size := lt_size_of_has h.closes'

theorem isCode_eq (ho : o ≤ i) (hc : i ≤ c) : m'.isCode (d + i) = m.isCode i := h.has_eq ho hc _

theorem isCodeChar_eq (ho : o ≤ i) (hc : i ≤ c) (x : Char) :
    m'.isCodeChar (d + i) x = m.isCodeChar i x := h.has_eq ho hc _

theorem charAt?_eq (ho : o ≤ i) (hc : i ≤ c) : m'.charAt? (d + i) = m.charAt? i := by
  rw [charAt?, charAt?, h.slots i ho hc]

theorem charBefore?_eq (ho : o < i) (hc : i ≤ c + 1) :
    m'.charBefore? (d + i) = m.charBefore? i := by
  induction i with
  | zero => omega
  | succ i ih =>
    have hchar := h.charAt?_eq (i := i) (by omega) (by omega)
    rw [← Nat.add_assoc, charBefore?, charBefore?, hchar]
    cases hi : m.charAt? i with
    | some x => rfl
    | none =>
      -- A character starts at the opening bracket, so the walk back does not reach it.
      have hne : i ≠ o := by
        rintro rfl
        rcases opens_iff.mp h.opens with hopen | hopen | hopen <;>
          simp [isCodeChar_charAt? hopen] at hi
      exact ih (by omega) (by omega)

theorem walks {j e e' : Nat} (hw : Walks m i j e e') (ho : o ≤ i) (hc : j ≤ c + 1) :
    Walks m' (d + i) (d + j) e e' := by
  induction hw with
  | refl => exact .refl _ _
  | opens hopens hnext ih =>
    have := hnext.le
    exact .opens ((h.has_eq ho (by omega) _).trans hopens) (ih (by omega) hc)
  | closes hcloses hnext ih =>
    have := hnext.le
    exact .closes ((h.has_eq ho (by omega) _).trans hcloses) (ih (by omega) hc)
  | other hopens hcloses hnext ih =>
    have := hnext.le
    exact .other ((h.has_eq ho (by omega) _).trans hopens)
      ((h.has_eq ho (by omega) _).trans hcloses) (ih (by omega) hc)

theorem matching_lt {k : Nat} (ho : o < i) (hc : i ≤ c) (hk : m.matching i = some k) : k < c := by
  have hopens := (matching_spec hk).1
  have hne : i ≠ c := by
    rintro rfl
    rw [not_opens_of_closes h.closes] at hopens
    cases hopens
  obtain ⟨k', hk', hlt⟩ := matching_inside (walks_of_matching h.matching) ho (by omega) hopens
  rw [hk] at hk'
  cases hk'
  exact hlt

theorem matching_eq (ho : o ≤ i) (hc : i ≤ c) :
    m'.matching (d + i) = (m.matching i).map (d + ·) := by
  have hhas := h.has_eq ho hc Slot.opens
  cases hopens : m.has Slot.opens i with
  | false =>
    rw [CodeMap.matching, CodeMap.matching, hhas, hopens]
    rfl
  | true =>
    obtain ⟨k, hk, hle⟩ : ∃ k, m.matching i = some k ∧ k ≤ c := by
      rcases Nat.eq_or_lt_of_le ho with rfl | hlt
      · exact ⟨c, h.matching, le_refl c⟩
      · have hne : i ≠ c := by
          rintro rfl
          rw [not_opens_of_closes h.closes] at hopens
          cases hopens
        obtain ⟨k, hk, hkc⟩ := matching_inside (walks_of_matching h.matching) hlt (by omega) hopens
        exact ⟨k, hk, le_of_lt hkc⟩
    have hcloses := (matching_spec hk).2.1
    have hlt := (matching_spec hk).2.2.1
    have hwalks := h.walks (walks_of_matching hk) (by omega) (by omega)
    rw [hk]
    exact matching_of_walks (hhas.trans hopens) hwalks ((h.has_eq (by omega) hle _).trans hcloses)

section Words

variable {ps ps' : Painted} {w : Text}

theorem stands_eq (hm : m.Shows ps) (hw : ∀ x ∈ w, x ∉ endings)
    (ho : o < i) (hc : i ≤ c) : m'.stands (d + i) w = m.stands i w := by
  rw [stands, stands, h.window.spells_eq hm hw (le_of_lt ho) hc, h.charBefore?_eq ho (by omega)]
  cases hs : m.spells w i with
  | false => rfl
  | true =>
    have hle := h.window.spells_le hm hw hc hs
    rw [Nat.add_assoc, h.charAt?_eq (by omega) hle]

variable (hm : m.Shows ps) (hm' : m'.Shows ps') (hne : w ≠ []) (hw : ∀ x ∈ w, x ∉ endings)
include hm hm' hne hw

theorem wordAt_mirrors (ho : o < i) (hc : i ≤ c) :
    Mirrors (m.wordAt i w) (m'.wordAt (d + i) w) fun b b' => b' = b :=
  .of_eq (wordAt_eq hm hne i) (wordAt_eq hm' hne _) (h.stands_eq hm hw ho hc)

theorem keywords_mirrors (ho : o < start) (hc : stop ≤ c) :
    Mirrors (m.keywords start stop w) (m'.keywords (d + start) (d + stop) w) fun js js' =>
      js' = js.map (d + ·) ∧ ∀ j ∈ js, o < j ∧ j + w.size ≤ c := by
  refine .of_eq (keywords_eq hm hne _ _) (keywords_eq hm' hne _ _) ⟨?_, fun j hj => ?_⟩
  · rw [h.window.outer_eq (le_of_lt ho) hc fun j hj hjc => h.isCode_eq (by omega) (le_of_lt hjc),
      List.filter_map]
    refine congrArg (List.map (d + ·)) (List.filter_congr fun j hj => ?_)
    have hin := mem_outerFrom hj
    exact h.stands_eq hm hw (by omega) (by omega)
  · obtain ⟨hj, hstands⟩ := List.mem_filter.mp hj
    have hin := mem_outerFrom hj
    simp only [stands, Bool.and_eq_true] at hstands
    exact ⟨by omega, h.window.spells_le hm hw (by omega) hstands.1.1⟩

end Words

end Inset

end CodeMap

end Declass
