import Declass.Proofs.Brackets

/-!
# Walking over brackets

**Input.** A code map, and a range in which no bracket is closed that was not opened there.

**Algorithm.** `Walks m i j d d'` counts the brackets: `d` are open at `i` and `d'` at `j`.  A walk
of the library that starts with more brackets open than the range closes goes over the range without
an effect but on its count.

**Results.**
* `matching_of_walks`: brackets around a balanced range match, and `walks_of_matching`: matching
  brackets stand around one.
* `matching_inside`: a bracket that opens inside a pair of matching brackets is closed inside.
* `outerFrom_of_walks`: nothing inside brackets is found, and `outerFrom_append`: what is found in a
  range is found in its parts.
* `walks_of_depthAfter?`: the brackets can be counted in the text instead, character by character.
-/

namespace Declass

namespace CodeMap

/-- With `d` brackets open at `i`, there are `d'` open at `j`, and none is closed too many on the
way. -/
inductive Walks (m : CodeMap) : Nat → Nat → Nat → Nat → Prop
  | refl (i d : Nat) : Walks m i i d d
  | opens {i j d d' : Nat} (h : m.has Slot.opens i = true) (hnext : Walks m (i + 1) j (d + 1) d') :
      Walks m i j d d'
  | closes {i j d d' : Nat} (h : m.has Slot.closes i = true) (hnext : Walks m (i + 1) j d d') :
      Walks m i j (d + 1) d'
  | other {i j d d' : Nat} (hopens : m.has Slot.opens i = false)
      (hcloses : m.has Slot.closes i = false) (hnext : Walks m (i + 1) j d d') : Walks m i j d d'

section Walks

variable {m : CodeMap} {i j k d d' d'' : Nat}

theorem not_opens_of_closes (h : m.has Slot.closes i) : m.has Slot.opens i = false := by
  rcases closes_iff.mp h with h | h | h <;> simp [has, isCodeChar_iff.mp h, Slot.opens] <;> decide

theorem Walks.le (h : Walks m i j d d') : i ≤ j := by
  induction h with
  | refl => exact le_refl _
  | opens _ _ ih => omega
  | closes _ _ ih => omega
  | other _ _ _ ih => omega

theorem Walks.trans (h : Walks m i j d d') (h' : Walks m j k d' d'') : Walks m i k d d'' := by
  induction h with
  | refl => exact h'
  | opens h _ ih => exact .opens h (ih h')
  | closes h _ ih => exact .closes h (ih h')
  | other ho hc _ ih => exact .other ho hc (ih h')

theorem Walks.length_succ (h : Walks m (i + 1) j d d') : j - i = (j - (i + 1)) + 1 := by
  have := h.le
  omega

theorem matchFrom_of_walks (h : Walks m i j d d') (count : Nat) :
    m.matchFrom (j - i + count) (d + 1) i = m.matchFrom count (d' + 1) j := by
  induction h with
  | refl => simp
  | opens h hnext ih => rw [hnext.length_succ, Nat.add_right_comm, matchFrom, if_pos h, ih]
  | closes h hnext ih =>
    rw [hnext.length_succ, Nat.add_right_comm, matchFrom, if_neg (by simp [not_opens_of_closes h]),
      if_pos h, if_neg (by omega), Nat.add_sub_cancel, ih]
  | other ho hc hnext ih =>
    rw [hnext.length_succ, Nat.add_right_comm, matchFrom, if_neg (by simp [ho]),
      if_neg (by simp [hc]), ih]

theorem lt_size_of_has {p : Slot → Bool} (h : m.has p i) : i < m.size := by
  obtain ⟨s, hs, -⟩ := has_eq_true.mp h
  exact (Array.getElem?_eq_some_iff.mp hs).1

theorem matching_of_opens {o : Nat} (h : m.has Slot.opens o) :
    m.matching o = m.matchFrom (m.size - o - 1) 1 (o + 1) := by
  have hlt := lt_size_of_has h
  rw [matching, if_pos h, show m.size - o = m.size - o - 1 + 1 by omega, matchFrom, if_pos h]
  rfl

/-- Brackets around a balanced range match. -/
theorem matching_of_walks {o c : Nat} (hopens : m.has Slot.opens o)
    (h : Walks m (o + 1) c 0 0) (hcloses : m.has Slot.closes c) : m.matching o = some c := by
  have hle := h.le
  have hlt := lt_size_of_has hcloses
  have hcount : m.size - o - 1 = c - (o + 1) + (m.size - c - 1 + 1) := by omega
  rw [matching_of_opens hopens, hcount, matchFrom_of_walks h, matchFrom,
    not_opens_of_closes hcloses, if_neg (by simp), if_pos hcloses, if_pos (by omega)]

/-- Up to the bracket that closes the last open one, there is a walk. -/
theorem walks_of_matchFrom {count c : Nat} (h : m.matchFrom count (d + 1) i = some c) :
    Walks m i c d 0 := by
  induction count generalizing i d with
  | zero => simp [matchFrom] at h
  | succ count ih =>
    rw [matchFrom] at h
    split at h
    · rename_i hopens
      exact .opens hopens (ih h)
    · rename_i hopens
      split at h
      · rename_i hcloses
        split at h
        · obtain rfl : i = c := by simpa using h
          obtain rfl : d = 0 := by omega
          exact .refl _ _
        · obtain ⟨d, rfl⟩ : ∃ n, d = n + 1 := ⟨d - 1, by omega⟩
          exact .closes hcloses (ih h)
      · rename_i hcloses
        exact .other (by simpa using hopens) (by simpa using hcloses) (ih h)

/-- Matching brackets stand around a balanced range. -/
theorem walks_of_matching {o c : Nat} (h : m.matching o = some c) : Walks m (o + 1) c 0 0 := by
  rw [matching_of_opens (matching_spec h).1] at h
  exact walks_of_matchFrom h

theorem Walks.split (h : Walks m i j d d') (hi : i ≤ k) (hj : k ≤ j) :
    ∃ e, Walks m i k d e ∧ Walks m k j e d' := by
  rcases Nat.eq_or_lt_of_le hi with rfl | hlt
  · exact ⟨d, .refl _ _, h⟩
  induction h with
  | refl => omega
  | @opens i j d d' h hnext ih =>
    rcases Nat.eq_or_lt_of_le hlt with rfl | hlt
    · exact ⟨d + 1, .opens h (.refl _ _), hnext⟩
    · obtain ⟨e, hfirst, hlast⟩ := ih (by omega) hj hlt
      exact ⟨e, .opens h hfirst, hlast⟩
  | @closes i j d d' h hnext ih =>
    rcases Nat.eq_or_lt_of_le hlt with rfl | hlt
    · exact ⟨d, .closes h (.refl _ _), hnext⟩
    · obtain ⟨e, hfirst, hlast⟩ := ih (by omega) hj hlt
      exact ⟨e, .closes h hfirst, hlast⟩
  | @other i j d d' ho hc hnext ih =>
    rcases Nat.eq_or_lt_of_le hlt with rfl | hlt
    · exact ⟨d, .other ho hc (.refl _ _), hnext⟩
    · obtain ⟨e, hfirst, hlast⟩ := ih (by omega) hj hlt
      exact ⟨e, .other ho hc hfirst, hlast⟩

/-- On a walk to fewer open brackets, there is one that closes the first of them. -/
theorem Walks.exists_closing {e a : Nat} (h : Walks m i j e d') (he : e = a + (d + 1))
    (hle : d' ≤ d) : ∃ c, c < j ∧ m.has Slot.closes c ∧ Walks m i c a 0 := by
  induction h generalizing a with
  | refl => omega
  | opens h _ ih =>
    obtain ⟨c, hc, hcloses, hwalks⟩ := ih (a := a + 1) (by omega) hle
    exact ⟨c, hc, hcloses, .opens h hwalks⟩
  | closes h hnext ih =>
    cases a with
    | zero => exact ⟨_, hnext.le, h, .refl _ _⟩
    | succ a =>
      obtain ⟨c, hc, hcloses, hwalks⟩ := ih (a := a) (by omega) hle
      exact ⟨c, hc, hcloses, .closes h hwalks⟩
  | other ho hc _ ih =>
    obtain ⟨c, hlt, hcloses, hwalks⟩ := ih he hle
    exact ⟨c, hlt, hcloses, .other ho hc hwalks⟩

/-- A bracket that opens in a balanced range is closed in it. -/
theorem matching_inside (h : Walks m i j 0 0) {o : Nat} (hi : i ≤ o) (hj : o < j)
    (hopens : m.has Slot.opens o) : ∃ c, m.matching o = some c ∧ c < j := by
  obtain ⟨d, -, hlast⟩ := h.split hi (le_of_lt hj)
  have hinside : Walks m (o + 1) j (d + 1) 0 := by
    cases hlast with
    | refl => omega
    | opens _ hnext => exact hnext
    | closes hcloses _ =>
      rw [not_opens_of_closes hcloses] at hopens
      cases hopens
    | other ho _ _ =>
      rw [ho] at hopens
      cases hopens
  obtain ⟨c, hc, hcloses, hwalks⟩ := hinside.exists_closing (a := 0) (by omega) (Nat.zero_le d)
  exact ⟨c, matching_of_walks hopens hwalks hcloses, hc⟩

end Walks

section Outer

variable {m : CodeMap} {p : Nat → Bool} {count i j d d' : Nat}

theorem outerFrom_opens (h : m.has Slot.opens i) :
    m.outerFrom p (count + 1) d i = m.outerFrom p count (d + 1) (i + 1) := by
  rw [outerFrom, if_pos h]

theorem outerFrom_closes (h : m.has Slot.closes i) :
    m.outerFrom p (count + 1) d i = m.outerFrom p count (d - 1) (i + 1) := by
  rw [outerFrom, if_neg (by simp [not_opens_of_closes h]), if_pos h]

theorem outerFrom_other (ho : m.has Slot.opens i = false) (hc : m.has Slot.closes i = false) :
    m.outerFrom p (count + 1) d i = if d == 0 && p i then i :: m.outerFrom p count d (i + 1)
      else m.outerFrom p count d (i + 1) := by
  rw [outerFrom, if_neg (by simp [ho]), if_neg (by simp [hc])]

/-- Inside brackets nothing is found. -/
theorem outerFrom_of_walks (h : Walks m i j d d') (count : Nat) :
    m.outerFrom p (j - i + count) (d + 1) i = m.outerFrom p count (d' + 1) j := by
  induction h with
  | refl => simp
  | opens h hnext ih => rw [hnext.length_succ, Nat.add_right_comm, outerFrom_opens h, ih]
  | closes h hnext ih =>
    rw [hnext.length_succ, Nat.add_right_comm, outerFrom_closes h, Nat.add_sub_cancel, ih]
  | other ho hc hnext ih =>
    rw [hnext.length_succ, Nat.add_right_comm, outerFrom_other ho hc, if_neg (by simp), ih]

/-- What is found in a range is what is found in a beginning of it, and then in the rest. -/
theorem outerFrom_append (h : Walks m i j d d') (count : Nat) :
    m.outerFrom p (j - i + count) d i = m.outerFrom p (j - i) d i ++ m.outerFrom p count d' j := by
  induction h with
  | refl => simp [outerFrom]
  | opens h hnext ih =>
    rw [hnext.length_succ, Nat.add_right_comm, outerFrom_opens h, outerFrom_opens h, ih]
  | closes h hnext ih =>
    rw [hnext.length_succ, Nat.add_right_comm, outerFrom_closes h, outerFrom_closes h,
      Nat.add_sub_cancel, ih]
  | other ho hc hnext ih =>
    rw [hnext.length_succ, Nat.add_right_comm, outerFrom_other ho hc, outerFrom_other ho hc, ih]
    split
    · rw [List.cons_append]
    · rfl

/-- Positions at which nothing is found and no bracket stands are passed over. -/
theorem outerFrom_gap {n : Nat} (h : ∀ j, i ≤ j → j < i + n → m.has Slot.opens j = false ∧
      m.has Slot.closes j = false ∧ (d = 0 → p j = false)) (count : Nat) :
    m.outerFrom p (n + count) d i = m.outerFrom p count d (i + n) := by
  induction n generalizing i with
  | zero => rw [Nat.zero_add, Nat.add_zero]
  | succ n ih =>
    obtain ⟨ho, hc, hp⟩ := h i (by omega) (by omega)
    have hrest := @ih (i + 1) fun j hij hj => h j (by omega) (by omega)
    rw [Nat.add_right_comm, outerFrom_other ho hc, if_neg (by simpa using hp), hrest,
      Nat.add_assoc i 1 n, Nat.add_comm 1 n]

theorem outerFrom_gap_last {n : Nat} (h : ∀ j, i + count ≤ j → j < i + count + n →
      m.has Slot.opens j = false ∧ m.has Slot.closes j = false ∧ p j = false) :
    m.outerFrom p (count + n) d i = m.outerFrom p count d i := by
  induction count generalizing d i with
  | zero =>
    have hgap := outerFrom_gap (d := d) (fun j hij hj =>
      ⟨(h j hij hj).1, (h j hij hj).2.1, fun _ => (h j hij hj).2.2⟩) 0
    rwa [Nat.zero_add]
  | succ count ih =>
    have hrest := fun d => @ih (i + 1) d fun j hij hj => h j (by omega) (by omega)
    rw [Nat.add_right_comm, outerFrom, outerFrom, hrest, hrest, hrest]

theorem filter_outerFrom (q : Nat → Bool) :
    (m.outerFrom p count d i).filter q = m.outerFrom (fun j => p j && q j) count d i := by
  induction count generalizing d i with
  | zero => rfl
  | succ count ih =>
    rw [outerFrom, outerFrom]
    split
    · exact ih
    split
    · exact ih
    cases hzero : d == 0 with
    | false => simpa using ih
    | true =>
      cases hp : p i with
      | false => simpa [hp] using ih
      | true => cases hq : q i <;> simpa [hp, hq] using ih

end Outer

section Kinds

/-- The number of brackets open behind the characters, with `d` open before them; nothing if one is
closed too many. -/
def depthAfter? : List (Char × Kind) → Nat → Option Nat
  | [], d => some d
  | (c, k) :: ps, d =>
    if Slot.opens ⟨some c, k⟩ then depthAfter? ps (d + 1)
    else if Slot.closes ⟨some c, k⟩ then
      if d = 0 then none else depthAfter? ps (d - 1)
    else depthAfter? ps d

/-- Every bracket that opens among the characters is closed among them, and no other. -/
def Balanced (ps : List (Char × Kind)) : Prop := depthAfter? ps 0 = some 0

variable {m : CodeMap} {ps qs pre mid post : Painted} {d d' : Nat}

theorem depthAfter?_append (ps qs : Painted) (d : Nat) :
    depthAfter? (ps ++ qs) d = (depthAfter? ps d).bind (depthAfter? qs) := by
  induction ps generalizing d with
  | nil => rfl
  | cons p ps ih =>
    rw [List.cons_append, depthAfter?, depthAfter?]
    split_ifs
    · exact ih (d + 1)
    · rfl
    · exact ih (d - 1)
    · exact ih d

theorem depthAfter?_raise (h : depthAfter? ps d = some d') (n : Nat) :
    depthAfter? ps (d + n) = some (d' + n) := by
  induction ps generalizing d with
  | nil =>
    rw [depthAfter?, Option.some.injEq] at h
    rw [depthAfter?, h]
  | cons p ps ih =>
    rw [depthAfter?] at h ⊢
    split_ifs at h ⊢
    · rw [Nat.add_right_comm]
      exact ih h
    · omega
    · rw [Nat.sub_add_comm (by omega)]
      exact ih h
    · exact ih h

theorem Balanced.append (h : Balanced ps) (h' : Balanced qs) : Balanced (ps ++ qs) := by
  rw [Balanced, depthAfter?_append, h]
  exact h'

theorem Balanced.wrap {o c : Char} (ho : Slot.opens ⟨some o, .code⟩)
    (hc : Slot.closes ⟨some c, .code⟩) (h : Balanced ps) :
    Balanced ((o, .code) :: (ps ++ [(c, .code)])) := by
  have hc' : Slot.opens ⟨some c, .code⟩ = false := by
    simp only [Slot.closes, Slot.isCodeChar, Slot.isCode, Bool.or_eq_true, Bool.and_eq_true,
      beq_iff_eq, Option.some.injEq] at hc
    rcases hc with (hc | hc) | hc <;> rw [hc.2] <;> rfl
  rw [Balanced, depthAfter?, if_pos ho, depthAfter?_append, depthAfter?_raise h 1, Option.bind_some,
    depthAfter?, if_neg (by simp [hc']), if_pos hc]
  rfl

/-- Whether the character is no bracket. -/
def isBracketFree (c : Char) : Bool := !(['(', '[', '\x7b', ')', ']', '\x7d'].contains c)

theorem not_bracket {c : Char} (h : isBracketFree c) (k : Kind) :
    Slot.opens ⟨some c, k⟩ = false ∧ Slot.closes ⟨some c, k⟩ = false := by
  simp only [isBracketFree, List.contains_eq_mem, List.mem_cons, List.not_mem_nil, or_false,
    Bool.not_eq_true', decide_eq_false_iff_not, not_or] at h
  simp [Slot.opens, Slot.closes, Slot.isCodeChar, h]

theorem balanced_of_bracketFree {g : Text} (h : g.all isBracketFree) (k : Kind) :
    Balanced (g.map fun c => (c, k)) := by
  induction g with
  | nil => rfl
  | cons c g ih =>
    rw [List.all_cons, Bool.and_eq_true] at h
    obtain ⟨ho, hc⟩ := not_bracket h.1 k
    rw [Balanced, List.map_cons, depthAfter?, if_neg (by simp [ho]), if_neg (by simp [hc])]
    exact ih h.2

theorem utf8Size_of_opens {c : Char} {k : Kind} (h : Slot.opens ⟨some c, k⟩) : c.utf8Size = 1 := by
  simp only [Slot.opens, Slot.isCodeChar, Bool.or_eq_true, Bool.and_eq_true, beq_iff_eq,
    Option.some.injEq] at h
  rcases h with (⟨-, rfl⟩ | ⟨-, rfl⟩) | ⟨-, rfl⟩ <;> rfl

theorem utf8Size_of_closes {c : Char} {k : Kind} (h : Slot.closes ⟨some c, k⟩) :
    c.utf8Size = 1 := by
  simp only [Slot.closes, Slot.isCodeChar, Bool.or_eq_true, Bool.and_eq_true, beq_iff_eq,
    Option.some.injEq] at h
  rcases h with (⟨-, rfl⟩ | ⟨-, rfl⟩) | ⟨-, rfl⟩ <;> rfl

theorem walks_character (hm : m.Shows ps) {c : Char} {k : Kind} (hps : ps = pre ++ (c, k) :: post)
    (hopens : Slot.opens ⟨some c, k⟩ = false) (hcloses : Slot.closes ⟨some c, k⟩ = false) {n : Nat}
    (hn : n ≤ c.utf8Size) : Walks m (Slot.width pre) (Slot.width pre + n) d d := by
  induction n with
  | zero => exact .refl _ _
  | succ n ih =>
    have hslot := slots_inside hm hps hn
    refine (ih (by omega)).trans (.other ?_ ?_ (.refl _ _))
    · rw [has, hslot]
      split
      · exact hopens
      · cases k <;> rfl
    · rw [has, hslot]
      split
      · exact hcloses
      · cases k <;> rfl

/-- The brackets among characters of the text are those on the way through their bytes. -/
theorem walks_of_depthAfter? (hm : m.Shows ps) (hps : ps = pre ++ mid ++ post)
    (h : depthAfter? mid d = some d') : Walks m (Slot.width pre) (Slot.width (pre ++ mid)) d d' := by
  induction mid generalizing pre d with
  | nil =>
    rw [depthAfter?, Option.some.injEq] at h
    rw [List.append_nil, h]
    exact .refl _ _
  | cons p mid ih =>
    obtain ⟨c, k⟩ := p
    have hps' : ps = pre ++ (c, k) :: (mid ++ post) := by simp [hps]
    have hrest : ∀ {e : Nat}, depthAfter? mid e = some d' →
        Walks m (Slot.width pre + c.utf8Size) (Slot.width (pre ++ (c, k) :: mid)) e d' := by
      intro e he
      have := @ih (pre ++ [(c, k)]) e (by simp [hps]) he
      rwa [List.append_assoc, Slot.width_append] at this
    rw [depthAfter?] at h
    split_ifs at h with hopens hcloses hzero
    · have hnext := hrest h
      rw [utf8Size_of_opens hopens] at hnext
      exact .opens ((has_at hm hps' _).trans hopens) hnext
    · obtain ⟨d, rfl⟩ : ∃ n, d = n + 1 := ⟨d - 1, by omega⟩
      have hnext := hrest h
      rw [utf8Size_of_closes hcloses] at hnext
      exact .closes ((has_at hm hps' _).trans hcloses) hnext
    · exact (walks_character hm hps' (by simpa using hopens) (by simpa using hcloses)
        (le_refl _)).trans (hrest h)

end Kinds

end CodeMap

end Declass
