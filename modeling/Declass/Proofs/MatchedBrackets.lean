import Declass.Proofs.Nesting
import Mathlib.Order.Bounds.Basic

/-!
# Matching by counting

**Input.** A code map with any bytes.

**Algorithm.** A walk from behind an opening bracket keeps as many brackets open as it has passed
more opening than closing ones.  It can go on until the first position at which both counts are the
same, the opening bracket at its start included.

**Results.** `matching_least_laminar`: brackets match where the counts first agree, and what matches
between two matching brackets is a pairing of all brackets there.
-/

namespace Declass

namespace CodeMap

section Tallies

variable {m : CodeMap} {p : Slot → Bool} {i j k o c d d' : Nat}

/-- The number of bytes with property `p` from `i` on, up to `j` and without it. -/
def tally (m : CodeMap) (p : Slot → Bool) (i j : Nat) : Nat :=
  (List.range' i (j - i)).countP (m.has p)

theorem tally_of_lt (h : i < j) :
    m.tally p i j = m.tally p (i + 1) j + if m.has p i = true then 1 else 0 := by
  rw [tally, show j - i = j - (i + 1) + 1 by omega, List.range'_succ, List.countP_cons, tally]

theorem tally_succ (h : i ≤ j) :
    m.tally p i (j + 1) = m.tally p i j + if m.has p j = true then 1 else 0 := by
  rw [tally, Nat.sub_add_comm h, List.range'_1_concat, List.countP_append, List.countP_singleton,
    Nat.add_sub_cancel' h, tally]

theorem not_closes_of_opens (h : m.has Slot.opens i) : m.has Slot.closes i = false := by
  by_contra hcloses
  rw [not_opens_of_closes (by simpa using hcloses)] at h
  cases h

theorem Walks.tally (h : Walks m i j d d') :
    d + m.tally Slot.opens i j = d' + m.tally Slot.closes i j := by
  induction h with
  | refl => simp [CodeMap.tally]
  | opens h hnext ih =>
    rw [tally_of_lt hnext.le, tally_of_lt hnext.le, if_pos h, not_closes_of_opens h,
      if_neg (by simp)]
    omega
  | closes h hnext ih =>
    rw [tally_of_lt hnext.le, tally_of_lt hnext.le, if_pos h, not_opens_of_closes h,
      if_neg (by simp)]
    omega
  | other ho hc hnext ih =>
    rw [tally_of_lt hnext.le, tally_of_lt hnext.le, ho, hc]
    simpa using ih

/-- While a walk goes on behind an opening bracket, more brackets have been opened than closed. -/
theorem Walks.tally_lt (hopens : m.has Slot.opens o) (h : Walks m (o + 1) k 0 d) :
    m.tally Slot.closes o k < m.tally Slot.opens o k := by
  have hcount := h.tally
  rw [tally_of_lt h.le, tally_of_lt h.le, if_pos hopens, not_closes_of_opens hopens,
    if_neg (by simp)]
  omega

theorem walks_of_size_le (h : m.size ≤ i) (n : Nat) : Walks m i (i + n) d d := by
  induction n generalizing i with
  | zero => exact .refl _ _
  | succ n ih =>
    have hnone : ∀ q : Slot → Bool, m.has q i = false := by
      intro q
      by_contra hq
      have := lt_size_of_has (by simpa using hq : m.has q i)
      omega
    have hnext := @ih (i + 1) (by omega)
    rw [Nat.add_right_comm] at hnext
    exact .other (hnone _) (hnone _) hnext

/-- If the last open bracket is not closed, the walk goes on to the end. -/
theorem walks_of_matchFrom_none {count : Nat} (h : m.matchFrom count (d + 1) i = none) :
    ∃ e, Walks m i (i + count) d e := by
  induction count generalizing i d with
  | zero => exact ⟨d, .refl _ _⟩
  | succ count ih =>
    rw [← Nat.add_assoc, Nat.add_right_comm]
    rw [matchFrom] at h
    split at h
    · rename_i hopens
      obtain ⟨e, hnext⟩ := ih h
      exact ⟨e, .opens hopens hnext⟩
    · rename_i hopens
      split at h
      · rename_i hcloses
        split at h
        · cases h
        · obtain ⟨d, rfl⟩ : ∃ n, d = n + 1 := ⟨d - 1, by omega⟩
          obtain ⟨e, hnext⟩ := ih h
          exact ⟨e, .closes hcloses hnext⟩
      · rename_i hcloses
        obtain ⟨e, hnext⟩ := ih h
        exact ⟨e, .other (by simpa using hopens) (by simpa using hcloses) hnext⟩

/-- Behind an opening bracket without a partner there is a walk to any position. -/
theorem walks_of_matching_none (hopens : m.has Slot.opens o) (h : m.matching o = none)
    (hk : o < k) : ∃ e, Walks m (o + 1) k 0 e := by
  have hlt := lt_size_of_has hopens
  rw [matching_of_opens hopens] at h
  obtain ⟨e, hwalks⟩ := walks_of_matchFrom_none h
  rw [show o + 1 + (m.size - o - 1) = m.size by omega] at hwalks
  have hall := hwalks.trans (walks_of_size_le (le_refl _) k)
  obtain ⟨e', hfirst, -⟩ := hall.split (k := k) hk (by omega)
  exact ⟨e', hfirst⟩

/-- The positions behind `o` up to which as many brackets are closed as are opened. -/
def evenings (m : CodeMap) (o : Nat) : Set Nat :=
  {k | o < k ∧ m.tally Slot.closes o (k + 1) = m.tally Slot.opens o (k + 1)}

theorem isLeast_of_matching (h : m.matching o = some c) : IsLeast (m.evenings o) c := by
  obtain ⟨hopens, hcloses, hlt, -⟩ := matching_spec h
  have hwalks := walks_of_matching h
  refine ⟨⟨hlt, ?_⟩, fun k hk => ?_⟩
  · have hcount := hwalks.tally
    have hlt' : o < c + 1 := by omega
    have hle : o + 1 ≤ c := hlt
    rw [tally_of_lt (p := Slot.closes) hlt', tally_of_lt (p := Slot.opens) hlt', tally_succ hle,
      tally_succ hle, if_pos hopens, if_pos hcloses, not_closes_of_opens hopens,
      not_opens_of_closes hcloses]
    omega
  · by_contra hkc
    obtain ⟨e, hfirst, -⟩ := hwalks.split (k := k + 1) (Nat.succ_le_succ (le_of_lt hk.1)) (by omega)
    exact absurd hk.2 (Nat.ne_of_lt (hfirst.tally_lt hopens))

/-- Brackets match where the counts first agree. -/
theorem matching_iff_isLeast :
    m.matching o = some c ↔ m.has Slot.opens o ∧ IsLeast (m.evenings o) c := by
  constructor
  · exact fun h => ⟨(matching_spec h).1, isLeast_of_matching h⟩
  · rintro ⟨hopens, hleast⟩
    cases hmatch : m.matching o with
    | some c' => rw [hleast.unique (isLeast_of_matching hmatch)]
    | none =>
      obtain ⟨hlt, heven⟩ := hleast.1
      obtain ⟨e, hwalks⟩ := walks_of_matching_none hopens hmatch (Nat.lt_succ_of_lt hlt)
      exact absurd heven (Nat.ne_of_lt (hwalks.tally_lt hopens))

end Tallies

section Pairs

variable {m : CodeMap} {i j k o o' c d d' a b : Nat}

/-- On a walk to `b + a` open brackets, either one is passed that opens the last but `a` of them, or
there are always `b` open that are left alone. -/
theorem Walks.exists_opening_or_lower (h : Walks m i j d d') (hd : d' = b + a) :
    (∃ o, (i ≤ o ∧ o < j) ∧ m.has Slot.opens o ∧ Walks m (o + 1) j 0 a) ∨
      ∃ n, d = b + n ∧ Walks m i j n a := by
  induction h with
  | refl => exact .inr ⟨a, hd, .refl _ _⟩
  | @opens i _ _ _ hopens hnext ih =>
    rcases ih hd with ⟨o, hin, h⟩ | ⟨n, hn, hwalks⟩
    · exact .inl ⟨o, by omega, h⟩
    · cases n with
      | zero => exact .inl ⟨i, ⟨le_refl _, hnext.le⟩, hopens, hwalks⟩
      | succ n => exact .inr ⟨n, by omega, .opens hopens hwalks⟩
  | closes hcloses _ ih =>
    rcases ih hd with ⟨o, hin, h⟩ | ⟨n, hn, hwalks⟩
    · exact .inl ⟨o, by omega, h⟩
    · exact .inr ⟨n + 1, by omega, .closes hcloses hwalks⟩
  | other ho hc _ ih =>
    rcases ih hd with ⟨o, hin, h⟩ | ⟨n, hn, hwalks⟩
    · exact .inl ⟨o, by omega, h⟩
    · exact .inr ⟨n, hn, .other ho hc hwalks⟩

/-- A bracket that closes in a balanced range is opened in it. -/
theorem matching_inside_closes (h : Walks m i j 0 0) (hi : i ≤ k) (hj : k < j)
    (hcloses : m.has Slot.closes k) : ∃ o, i ≤ o ∧ o < k ∧ m.matching o = some k := by
  obtain ⟨e, hfirst, hlast⟩ := h.split hi (le_of_lt hj)
  obtain ⟨n, rfl⟩ : ∃ n, e = n + 1 := by
    cases hlast with
    | refl => omega
    | opens hopens _ => simp [not_opens_of_closes hcloses] at hopens
    | closes _ _ => exact ⟨_, rfl⟩
    | other _ hc _ => simp [hcloses] at hc
  rcases hfirst.exists_opening_or_lower (Nat.add_zero _).symm with
    ⟨o, hin, hopens, hwalks⟩ | ⟨n, hn, -⟩
  · exact ⟨o, hin.1, hin.2, matching_of_walks hopens hwalks hcloses⟩
  · omega

/-- No bracket closes two. -/
theorem matching_inj (h : m.matching o = some c) (h' : m.matching o' = some c) : o = o' := by
  have hnot : ∀ {o o' : Nat}, m.matching o = some c → m.matching o' = some c → ¬ o < o' := by
    intro o o' h h' hlt
    obtain ⟨hopens, -, hlt', -⟩ := matching_spec h'
    obtain ⟨c', hc', hin⟩ := matching_inside (walks_of_matching h) hlt hlt' hopens
    rw [h', Option.some.injEq] at hc'
    omega
  have := hnot h h'
  have := hnot h' h
  omega

end Pairs

/-- A bracket has the partner at which, for the first time behind it, as many brackets are closed as
opened; between the two, every bracket that opens is closed, and every one that closes is the
partner of exactly one that opens. -/
theorem matching_least_laminar (m : CodeMap) (o c : Nat) :
    (m.matching o = some c ↔ m.has Slot.opens o = true ∧ IsLeast (m.evenings o) c) ∧
    (m.matching o = some c →
      (∀ i, o < i → i < c → m.has Slot.opens i = true → ∃ k, m.matching i = some k ∧ k < c) ∧
      ∀ k, o < k → k < c → m.has Slot.closes k = true →
        ∃! i, (o < i ∧ i < c) ∧ m.matching i = some k) := by
  refine ⟨matching_iff_isLeast, fun h => ⟨fun i hi hc => ?_, fun k hk hc hcloses => ?_⟩⟩
  · exact matching_inside (walks_of_matching h) hi hc
  · obtain ⟨i, hi, hik, hmatch⟩ := matching_inside_closes (walks_of_matching h) hk hc hcloses
    exact ⟨i, ⟨⟨hi, by omega⟩, hmatch⟩, fun i' hi' => matching_inj hi'.2 hmatch⟩

end CodeMap

end Declass
