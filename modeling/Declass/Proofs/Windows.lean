import Declass.Proofs.Members
import Declass.Proofs.Nesting

/-!
# A range of one text in another

**Input.** Two code maps, the second of which has the bytes of a range of the first one `d` bytes
further on.  What stands before the range and behind it differs, but in both maps something comes
behind it that ends what is read: a closing bracket, a semicolon, a line feed or the end of the text.

**Algorithm.** `Mirrors x y R` relates two checked computations: if the first one ends with a value,
so does the second, and the two values are related.

**Results.** Every walk that starts in the range and is kept in it does the same in both maps, `d`
bytes further on.  Walks that have no limit of their own, for an identifier or a word, are held by
what ends the range.
-/

namespace Declass

/-- If the first computation ends with a value, so does the second, and the values are related. -/
def Mirrors {ε α β : Type} (x : Except ε α) (y : Except ε β) (R : α → β → Prop) : Prop :=
  ∀ a, x = .ok a → ∃ b, y = .ok b ∧ R a b

namespace Mirrors

variable {ε α β γ δ : Type} {R : α → β → Prop} {S : γ → δ → Prop}

theorem ok {a : α} {b : β} (h : R a b) : Mirrors (.ok a : Except ε α) (.ok b) R := by
  rintro _ ⟨⟩
  exact ⟨b, rfl, h⟩

theorem error (e : ε) (y : Except ε β) : Mirrors (.error e) y R := nofun

theorem of_eq {x : Except ε α} {y : Except ε β} {a : α} {b : β} (hx : x = .ok a) (hy : y = .ok b)
    (h : R a b) : Mirrors x y R := by
  subst hx hy
  exact ok h

theorem bind {x : Except ε α} {y : Except ε β} {f : α → Except ε γ} {g : β → Except ε δ}
    (hx : Mirrors x y R) (hf : ∀ a b, R a b → Mirrors (f a) (g b) S) :
    Mirrors (x >>= f) (y >>= g) S := by
  intro c hc
  obtain ⟨a, ha, hc⟩ := bind_eq_ok hc
  obtain ⟨b, hb, hR⟩ := hx a ha
  rw [bind_of_eq_ok hb]
  exact hf a b hR c hc

theorem with_eq {x : Except ε α} {y : Except ε β} (h : Mirrors x y R) :
    Mirrors x y fun a b => R a b ∧ x = .ok a := by
  intro a ha
  obtain ⟨b, hb, hR⟩ := h a ha
  exact ⟨b, hb, hR, ha⟩

theorem refl (x : Except ε α) : Mirrors x x fun a b => b = a ∧ x = .ok a :=
  fun a ha => ⟨a, ha, rfl, ha⟩

theorem mapM {f : α → Except ε γ} {g : β → Except ε δ} {k : α → β} {k' : γ → δ} {l : List α}
    (h : ∀ a ∈ l, Mirrors (f a) (g (k a)) fun c d => d = k' c) :
    Mirrors (l.mapM f) ((l.map k).mapM g) fun cs ds => ds = cs.map k' := by
  induction l with
  | nil => exact ok rfl
  | cons a l ih =>
    rw [List.map_cons, List.mapM_cons, List.mapM_cons]
    refine (h a (by simp)).bind fun c _ hc => ?_
    refine (ih fun a' ha' => h a' (by simp [ha'])).bind fun cs _ hcs => ?_
    subst hc hcs
    exact ok rfl

theorem foldlM {f : γ → α → Except ε γ} {g : δ → β → Except ε δ} {k : α → β} {l : List α}
    (h : ∀ a ∈ l, ∀ c d, S c d → Mirrors (f c a) (g d (k a)) S) {c : γ} {d : δ} (hcd : S c d) :
    Mirrors (l.foldlM f c) ((l.map k).foldlM g d) S := by
  induction l generalizing c d with
  | nil => exact ok hcd
  | cons a l ih =>
    refine (h a (by simp) c d hcd).bind fun c' d' hcd' => ?_
    exact ih (fun a' ha' => h a' (by simp [ha'])) hcd'

theorem check {x : Except Fault α} {y : Except Fault β} (h : Mirrors x y R) :
    Mirrors (Failure.check x) (Failure.check y) R := by
  intro a ha
  obtain ⟨b, hb, hR⟩ := h a (check_eq_ok ha)
  rw [hb]
  exact ⟨b, rfl, hR⟩

end Mirrors

/-- Characters that end what is read where they are code: closing brackets, a semicolon and a line
feed. -/
def endings : List Char := [')', ']', '\x7d', ';', '\n']

/-- Whether the byte is code that ends what is read. -/
def Slot.ends (s : Slot) : Bool := s.isCode && s.char?.any endings.contains

namespace CodeMap

/-- At both positions there is something that ends what is read, or both texts end there. -/
inductive EndsAlike (m m' : CodeMap) (c c' : Nat) : Prop
  | code (h : m.has Slot.ends c = true) (h' : m'.has Slot.ends c' = true)
  | text (h : c = m.size) (h' : c' = m'.size)

/-- The second map has what stands from `o` up to `c` in the first one `d` bytes further on, and
what is read ends there in both. -/
structure Window (m m' : CodeMap) (d o c : Nat) : Prop where
  slots : ∀ i, o ≤ i → i < c → m'.slots[d + i]? = m.slots[i]?
  ends : m.EndsAlike m' c (d + c)

section Ends

variable {m : CodeMap} {c : Nat} {p : Slot → Bool}

theorem exists_slot_of_ends (h : m.has Slot.ends c) :
    ∃ x ∈ endings, m.slots[c]? = some ⟨some x, .code⟩ := by
  obtain ⟨⟨char?, kind⟩, hs, hends⟩ := has_eq_true.mp h
  rw [Slot.ends, Bool.and_eq_true, Option.any_eq_true] at hends
  obtain ⟨hcode, x, hx, hmem⟩ := hends
  obtain rfl : kind = .code := by simpa [Slot.isCode] using hcode
  obtain rfl : char? = some x := hx
  exact ⟨x, by simpa using hmem, hs⟩

theorem ends_of_codeChar {x : Char} (hx : x ∈ endings) (h : m.isCodeChar c x) : m.has Slot.ends c :=
  has_eq_true.mpr ⟨_, isCodeChar_iff.mp h, by simpa [Slot.ends, Slot.isCode] using hx⟩

theorem ends_of_closes (h : m.has Slot.closes c) : m.has Slot.ends c := by
  rcases closes_iff.mp h with h | h | h
  · exact ends_of_codeChar (by decide) h
  · exact ends_of_codeChar (by decide) h
  · exact ends_of_codeChar (by decide) h

/-- What does not hold of any of these characters does not hold where one of them stands. -/
theorem has_of_ends (hp : ∀ x ∈ endings, p ⟨some x, .code⟩ = false)
    (h : m.has Slot.ends c) : m.has p c = false := by
  obtain ⟨x, hx, hslot⟩ := exists_slot_of_ends h
  rw [has, hslot, Option.any_some, hp x hx]

theorem has_size (p : Slot → Bool) : m.has p m.size = false := by
  rw [has, size, Array.getElem?_eq_none (le_refl _), Option.any_none]

theorem beq_of_ends {x : Char} (hx : x ∉ endings) : ∀ y ∈ endings, (y == x) = false := by
  intro y hy
  rw [beq_eq_false_iff_ne]
  rintro rfl
  exact hx hy

theorem isCodeChar_of_ends {x : Char} (hx : x ∉ endings) :
    ∀ y ∈ endings, Slot.isCodeChar x ⟨some y, .code⟩ = false := by
  intro y hy
  simpa [Slot.isCodeChar, Slot.isCode] using beq_of_ends hx y hy

theorem any_charAt? (m : CodeMap) (i : Nat) (q : Char → Bool) :
    (m.charAt? i).any q = m.has (fun s => s.char?.any q) i := by
  rw [charAt?, has]
  cases m.slots[i]? <;> rfl

theorem beq_charAt? (m : CodeMap) (i : Nat) (x : Char) :
    (m.charAt? i == some x) = (m.charAt? i).any (· == x) := by
  cases m.charAt? i <;> rfl

end Ends

namespace EndsAlike

variable {m m' : CodeMap} {c c' : Nat} {p : Slot → Bool} (h : m.EndsAlike m' c c')
include h

theorem le_size : c ≤ m.size ∧ c' ≤ m'.size := by
  cases h with
  | code h h' => exact ⟨le_of_lt (lt_size_of_has h), le_of_lt (lt_size_of_has h')⟩
  | text h h' => exact ⟨le_of_eq h, le_of_eq h'⟩

theorem has_eq_false (hp : ∀ x ∈ endings, p ⟨some x, .code⟩ = false) :
    m.has p c = false ∧ m'.has p c' = false := by
  cases h with
  | code h h' => exact ⟨has_of_ends hp h, has_of_ends hp h'⟩
  | text h h' =>
    subst h h'
    exact ⟨has_size p, has_size p⟩

theorem isCode_eq : m'.isCode c' = m.isCode c := by
  have hcode : ∀ {n : CodeMap} {i : Nat}, n.has Slot.ends i → n.isCode i := by
    intro n i hends
    obtain ⟨x, -, hslot⟩ := exists_slot_of_ends hends
    rw [isCode, has, hslot]
    rfl
  cases h with
  | code h h' => rw [hcode h, hcode h']
  | text h h' =>
    subst h h'
    rw [isCode, isCode, has_size, has_size]

theorem isBoundary : m.isBoundary c ∧ m'.isBoundary c' := by
  have hends : ∀ {n : CodeMap} {i : Nat}, n.has Slot.ends i → n.isBoundary i := by
    intro n i hends
    obtain ⟨x, -, hslot⟩ := exists_slot_of_ends hends
    rw [CodeMap.isBoundary, hslot]
    rfl
  have htext : ∀ {n : CodeMap}, n.isBoundary n.size := by
    intro n
    rw [CodeMap.isBoundary, size, Array.getElem?_eq_none (le_refl _), beq_iff_eq]
  cases h with
  | code h h' => exact ⟨hends h, hends h'⟩
  | text h h' =>
    subst h h'
    exact ⟨htext, htext⟩

end EndsAlike

namespace Window

variable {m m' : CodeMap} {d o c i start stop : Nat} {p : Slot → Bool} (h : Window m m' d o c)
include h

/-- Queries that nothing which ends a range answers are answered alike up to its end. -/
theorem has_eq (hp : ∀ x ∈ endings, p ⟨some x, .code⟩ = false)
    (ho : o ≤ i) (hc : i ≤ c) : m'.has p (d + i) = m.has p i := by
  rcases Nat.eq_or_lt_of_le hc with rfl | hlt
  · obtain ⟨hfalse, hfalse'⟩ := h.ends.has_eq_false hp
    rw [hfalse, hfalse']
  · rw [has, has, h.slots i ho hlt]

theorem has_inside (ho : o ≤ i) (hc : i < c) (p : Slot → Bool) : m'.has p (d + i) = m.has p i := by
  rw [has, has, h.slots i ho hc]

theorem isCodeChar_inside (ho : o ≤ i) (hc : i < c) (x : Char) :
    m'.isCodeChar (d + i) x = m.isCodeChar i x := h.has_inside ho hc _

theorem charAt?_inside (ho : o ≤ i) (hc : i < c) : m'.charAt? (d + i) = m.charAt? i := by
  rw [charAt?, charAt?, h.slots i ho hc]

theorem isCodeChar_eq (x : Char) (hx : x ∉ endings) (ho : o ≤ i)
    (hc : i ≤ c) : m'.isCodeChar (d + i) x = m.isCodeChar i x :=
  h.has_eq (isCodeChar_of_ends hx) ho hc

theorem isCode_eq (ho : o ≤ i) (hc : i ≤ c) : m'.isCode (d + i) = m.isCode i := by
  rcases Nat.eq_or_lt_of_le hc with rfl | hlt
  · exact h.ends.isCode_eq
  · exact h.has_inside ho hlt _

/-- A character that nothing which ends a range is stands at the same places. -/
theorem any_charAt?_eq {q : Char → Bool}
    (hq : ∀ x ∈ endings, q x = false) (ho : o ≤ i) (hc : i ≤ c) :
    (m'.charAt? (d + i)).any q = (m.charAt? i).any q := by
  rw [any_charAt?, any_charAt?]
  exact h.has_eq hq ho hc

theorem isBoundary_eq (ho : o ≤ i) (hc : i ≤ c) : m'.isBoundary (d + i) = m.isBoundary i := by
  rcases Nat.eq_or_lt_of_le hc with rfl | hlt
  · rw [h.ends.isBoundary.1, h.ends.isBoundary.2]
  · have hsize := h.ends.le_size.1
    rw [isBoundary, isBoundary, h.slots i ho hlt, Array.getElem?_eq_getElem (show i < m.slots.size by
      rw [← size]; omega)]

/-- A code character other than those that end a range stands in it. -/
theorem lt_of_codeChar {x : Char} (hc : i ≤ c) (hi : m.isCodeChar i x)
    (hx : x ∉ endings) : i < c := by
  refine lt_of_le_of_ne hc ?_
  rintro rfl
  obtain ⟨hfalse, -⟩ := h.ends.has_eq_false (isCodeChar_of_ends hx)
  rw [isCodeChar, hfalse] at hi
  cases hi

/-- A character other than those that end a range, of whatever kind, stands in it. -/
theorem lt_of_charAt? {q : Char → Bool} (hq : ∀ x ∈ endings, q x = false) (hc : i ≤ c)
    (hi : (m.charAt? i).any q) : i < c := by
  refine lt_of_le_of_ne hc ?_
  rintro rfl
  obtain ⟨hfalse, -⟩ := h.ends.has_eq_false (p := fun s => s.char?.any q) hq
  rw [any_charAt?, hfalse] at hi
  cases hi

theorem bytesFrom_eq {count : Nat} (ho : o ≤ i) (hc : i + count ≤ c) :
    m'.bytesFrom count (d + i) = m.bytesFrom count i := by
  induction count generalizing i with
  | zero => rfl
  | succ count ih =>
    rw [bytesFrom, bytesFrom, h.slots i ho (by omega), Nat.add_assoc d i 1,
      ih (by omega) (by omega)]

theorem slice_mirrors (ho : o ≤ start) (hc : stop ≤ c) :
    Mirrors (m.slice start stop) (m'.slice (d + start) (d + stop))
      fun t t' => t' = t ∧ start ≤ stop := by
  intro t ht
  unfold slice at ht
  split at ht
  · rename_i hslice
    simp only [Bool.and_eq_true, decide_eq_true_eq] at hslice
    obtain ⟨⟨⟨hle, -⟩, hleft⟩, hright⟩ := hslice
    have hsize := h.ends.le_size.2
    have hbytes : m'.bytesFrom (stop - start) (d + start) = m.bytesFrom (stop - start) start :=
      h.bytesFrom_eq ho (by omega)
    refine ⟨t, ?_, rfl, hle⟩
    rw [slice, h.isBoundary_eq ho (by omega), h.isBoundary_eq (by omega) hc, hleft, hright,
      Nat.add_sub_add_left, hbytes, if_pos (by simp; omega)]
    exact ht
  · cases ht

section Walks

theorem skipWhile_eq {count : Nat} (ho : o ≤ i) (hc : i + count ≤ c) :
    m'.skipWhile p count (d + i) = d + m.skipWhile p count i := by
  induction count generalizing i with
  | zero => rfl
  | succ count ih =>
    rw [skipWhile, skipWhile, h.has_inside ho (by omega)]
    split
    · exact ih (i := i + 1) (by omega) (by omega)
    · rfl

theorem skipTrivia_eq (ho : o ≤ i) (hc : stop ≤ c) :
    m'.skipTrivia (d + i) (d + stop) = d + m.skipTrivia i stop := by
  rw [skipTrivia, skipTrivia, Nat.add_sub_add_left]
  by_cases hle : i ≤ stop
  · exact h.skipWhile_eq ho (by omega)
  · rw [Nat.sub_eq_zero_of_le (by omega)]
    rfl

omit h in
theorem skipTrivia_bounds (hi : i ≤ c) (hc : stop ≤ c) :
    i ≤ m.skipTrivia i stop ∧ m.skipTrivia i stop ≤ c := by
  refine ⟨le_skipTrivia m i stop, ?_⟩
  have := skipWhile_le m Slot.isTrivia (stop - i) i
  rw [skipTrivia]
  omega

theorem skipBackWhile_eq {count : Nat} (ho : o + count ≤ i) (hc : i ≤ c) :
    m'.skipBackWhile p count (d + i) = d + m.skipBackWhile p count i := by
  induction count generalizing i with
  | zero => rfl
  | succ count ih =>
    have hsub : d + i - 1 = d + (i - 1) := by omega
    rw [skipBackWhile, skipBackWhile, hsub, h.has_inside (by omega) (by omega)]
    split
    · exact ih (by omega) (by omega)
    · rfl

theorem trimTrivia_eq (ho : o ≤ start) (hc : stop ≤ c) :
    m'.trimTrivia (d + start) (d + stop) = d + m.trimTrivia start stop := by
  rw [trimTrivia, trimTrivia, Nat.add_sub_add_left]
  by_cases hle : start ≤ stop
  · exact h.skipBackWhile_eq (by omega) hc
  · rw [Nat.sub_eq_zero_of_le (by omega)]
    rfl

/-- A walk that nothing which ends a range lets pass stops in the range, however far it may go. -/
theorem skipWhile_unlimited {count count' : Nat}
    (hp : ∀ x ∈ endings, p ⟨some x, .code⟩ = false) (ho : o ≤ i)
    (hi : i ≤ c) (hcount : c ≤ i + count) (hcount' : c ≤ i + count') :
    m'.skipWhile p count' (d + i) = d + m.skipWhile p count i ∧ m.skipWhile p count i ≤ c := by
  obtain ⟨hstop, hstop'⟩ := h.ends.has_eq_false hp
  induction count generalizing i count' with
  | zero =>
    obtain rfl : i = c := by omega
    cases count' with
    | zero => exact ⟨rfl, le_refl i⟩
    | succ count' =>
      rw [skipWhile, skipWhile, hstop']
      exact ⟨rfl, le_refl i⟩
  | succ count ih =>
    cases count' with
    | zero =>
      obtain rfl : i = c := by omega
      rw [skipWhile, skipWhile, hstop]
      exact ⟨rfl, le_refl i⟩
    | succ count' =>
      rw [skipWhile, skipWhile, h.has_eq hp ho hi]
      cases hnext : m.has p i with
      | false => exact ⟨rfl, hi⟩
      | true =>
        have hlt : i ≠ c := by
          rintro rfl
          rw [hstop] at hnext
          cases hnext
        exact ih (i := i + 1) (by omega) (by omega) (by omega) (by omega)

theorem identEnd_mirrors (ho : o ≤ i) (hc : i ≤ c) :
    Mirrors (m.identEnd i) (m'.identEnd (d + i)) fun e e' => e' = d + e ∧ i ≤ e ∧ e ≤ c := by
  intro e he
  obtain ⟨hsize, hsize'⟩ := h.ends.le_size
  unfold identEnd at he
  split at he
  · rename_i hbound
    rw [identEnd, h.isBoundary_eq ho hc, if_pos hbound, h.any_charAt?_eq (by decide) ho hc]
    split at he
    · rename_i hstart
      cases he
      have hlt := h.lt_of_charAt? (by decide) hc hstart
      have hge := le_skipWhile m (fun s => s.char?.all Character.isIdentPart) (m.size - (i + 1))
        (i + 1)
      have hcount : c ≤ i + 1 + (m.size - (i + 1)) := by omega
      have hcount' : c ≤ i + 1 + (m'.size - (d + i + 1)) := by omega
      obtain ⟨hwalk, hle⟩ := h.skipWhile_unlimited (i := i + 1)
        (p := fun s => s.char?.all Character.isIdentPart) (by decide) (by omega) hlt hcount hcount'
      rw [if_pos hstart]
      exact ⟨_, congrArg Except.ok hwalk, rfl, by omega, hle⟩
    · rename_i hstart
      cases he
      rw [if_neg hstart]
      exact ⟨_, rfl, rfl, le_refl i, hc⟩
  · cases he

end Walks

section Brackets

omit h in
/-- Among fewer positions, the same bracket is found if it is among them. -/
theorem matchFrom_filter {count depth : Nat} (hstop : stop ≤ i + count) :
    (m.matchFrom count depth i).filter (· < stop) = m.matchFrom (stop - i) depth i := by
  induction count generalizing depth i with
  | zero =>
    rw [Nat.sub_eq_zero_of_le (show stop ≤ i from hstop)]
    rfl
  | succ count ih =>
    by_cases hle : stop ≤ i
    · rw [Nat.sub_eq_zero_of_le hle, matchFrom, Option.filter_eq_none_iff]
      intro k hk hlt
      have hge := (matchFrom_spec hk).1
      rw [decide_eq_true_eq] at hlt
      omega
    · have hsub : stop - i = stop - (i + 1) + 1 := by omega
      have hnext : ∀ depth', (m.matchFrom count depth' (i + 1)).filter (· < stop) =
          m.matchFrom (stop - (i + 1)) depth' (i + 1) := fun depth' => ih (by omega)
      rw [hsub, matchFrom, matchFrom, ← hnext, ← hnext, ← hnext]
      split_ifs
      · rfl
      · rw [Option.filter_some, if_pos (by simpa using hle)]
      · rfl
      · rfl

theorem matchFrom_eq {count depth : Nat} (ho : o ≤ i) (hc : i + count ≤ c) :
    m'.matchFrom count depth (d + i) = (m.matchFrom count depth i).map (d + ·) := by
  induction count generalizing depth i with
  | zero => rfl
  | succ count ih =>
    have hnext : ∀ depth', m'.matchFrom count depth' (d + i + 1) =
        (m.matchFrom count depth' (i + 1)).map (d + ·) := fun depth' =>
      ih (i := i + 1) (by omega) (by omega)
    rw [matchFrom, matchFrom, h.has_inside ho (by omega), h.has_inside ho (by omega), hnext, hnext,
      hnext]
    split_ifs <;> rfl

theorem outerFrom_eq {q q' : Nat → Bool} {count depth : Nat} (ho : o ≤ i) (hc : i + count ≤ c)
    (hq : ∀ j, i ≤ j → j < c → q' (d + j) = q j) :
    m'.outerFrom q' count depth (d + i) = (m.outerFrom q count depth i).map (d + ·) := by
  induction count generalizing depth i with
  | zero => rfl
  | succ count ih =>
    have hnext : ∀ depth', m'.outerFrom q' count depth' (d + i + 1) =
        (m.outerFrom q count depth' (i + 1)).map (d + ·) := fun depth' =>
      ih (i := i + 1) (by omega) (by omega) fun j hj => hq j (by omega)
    rw [outerFrom, outerFrom, h.has_inside ho (by omega), h.has_inside ho (by omega),
      hq i (le_refl i) (by omega), hnext, hnext, hnext]
    split_ifs <;> rfl

theorem outer_eq {q q' : Nat → Bool} (ho : o ≤ start) (hc : stop ≤ c)
    (hq : ∀ j, start ≤ j → j < c → q' (d + j) = q j) :
    m'.outer q' (d + start) (d + stop) = (m.outer q start stop).map (d + ·) := by
  rw [outer, outer, Nat.add_sub_add_left]
  by_cases hle : start ≤ stop
  · exact h.outerFrom_eq ho (by omega) hq
  · rw [Nat.sub_eq_zero_of_le (by omega)]
    rfl

theorem firstOuter?_eq {q q' : Nat → Bool} (ho : o ≤ start) (hc : stop ≤ c)
    (hq : ∀ j, start ≤ j → j < c → q' (d + j) = q j) :
    m'.firstOuter? q' (d + start) (d + stop) = (m.firstOuter? q start stop).map (d + ·) := by
  have houter := h.outer_eq ho hc hq
  rw [outer, outer] at houter
  rw [firstOuter?, firstOuter?, firstOuterFrom?_eq_head?, firstOuterFrom?_eq_head?, houter,
    List.head?_map]

theorem findTop_eq (ho : o ≤ start) (hc : stop ≤ c) (x : Char) :
    m'.findTop (d + start) (d + stop) x = (m.findTop start stop x).map (d + ·) :=
  h.firstOuter?_eq ho hc fun _ hj hjc => h.isCodeChar_inside (by omega) hjc x

omit h in
theorem cut_shift (cuts : List Nat) (start stop : Nat) :
    cut (d + start) (d + stop) (cuts.map (d + ·)) = (cut start stop cuts).map (·.shift d) := by
  induction cuts generalizing start with
  | nil => rfl
  | cons i cuts ih =>
    rw [List.map_cons, cut, cut, List.map_cons, Nat.add_assoc, ih]
    rfl

theorem splitTop_eq (ho : o ≤ start) (hc : stop ≤ c) (x : Char) :
    m'.splitTop (d + start) (d + stop) x = (m.splitTop start stop x).map (·.shift d) := by
  have houter : m'.outer (m'.isCodeChar · x) (d + start) (d + stop) =
      (m.outer (m.isCodeChar · x) start stop).map (d + ·) :=
    h.outer_eq ho hc fun j hj hjc => h.isCodeChar_inside (by omega) hjc x
  rw [splitTop, splitTop, houter, cut_shift]

end Brackets

section Words

variable {ps : Painted} {w : Text}

theorem spells_le (hm : m.Shows ps) (hw : ∀ x ∈ w, x ∉ endings)
    (hc : i ≤ c) (hs : m.spells w i) : i + w.size ≤ c := by
  induction w generalizing i with
  | nil => exact hc
  | cons x w ih =>
    rw [spells, Bool.and_eq_true, beq_charAt?] at hs
    have hlt := h.lt_of_charAt? (beq_of_ends (hw x (by simp))) hc hs.1
    rw [← beq_charAt?, beq_iff_eq] at hs
    have hnext := charAt?_le_boundary hm hs.1 h.ends.isBoundary.1 hlt
    rw [Text.size_cons, ← Nat.add_assoc]
    exact ih (fun y hy => hw y (by simp [hy])) hnext hs.2

theorem spells_eq (hm : m.Shows ps) (hw : ∀ x ∈ w, x ∉ endings)
    (ho : o ≤ i) (hc : i ≤ c) : m'.spells w (d + i) = m.spells w i := by
  induction w generalizing i with
  | nil => rfl
  | cons x w ih =>
    have hne := beq_of_ends (hw x (by simp))
    rw [spells, spells, beq_charAt?, beq_charAt?, h.any_charAt?_eq hne ho hc]
    cases hx : (m.charAt? i).any (· == x) with
    | false => rfl
    | true =>
      have hlt := h.lt_of_charAt? hne hc hx
      rw [← beq_charAt?, beq_iff_eq] at hx
      have hnext := charAt?_le_boundary hm hx h.ends.isBoundary.1 hlt
      rw [Nat.add_assoc, ih (fun y hy => hw y (by simp [hy])) (by omega) hnext]

end Words

end Window

end CodeMap

end Declass
