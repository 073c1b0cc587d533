import Declass.Proofs.Checked
import Mathlib.Tactic

/-!
# Characters and byte positions

A code map has one slot per byte.  `Slot.paint` lays out a list of characters, each with one kind
for all of its bytes, and `CodeMap.Shows` says that a map is such a layout.

**Results.**
* `isBoundary_iff`: the boundaries of a map are the widths of the beginnings of its text.
* `slice_yields`: a range between two boundaries in order can be cut out, and what it gives is the
  text that lies there.
* `skipWhile_ends`, `skipBackWhile_ends`: a walk that does not part the bytes of one
  character leads from boundary to boundary.
-/

namespace Declass

/-- Decided along the list: the instance for all characters would try every one of them. -/
instance (priority := 2000) decidableForallMem {p : Char → Prop} [DecidablePred p]
    (l : List Char) : Decidable (∀ c ∈ l, p c) :=
  List.decidableBAll p l

instance (priority := 2000) decidableForallMemOption {p : Char → Prop} [DecidablePred p]
    (o : Option Char) : Decidable (∀ c ∈ o, p c) :=
  Option.decidableForallMem o

instance : LawfulBEq Text := inferInstance

namespace Text

@[simp] theorem size_nil : size [] = 0 := rfl

@[simp] theorem size_cons (c : Char) (t : Text) : size (c :: t) = c.utf8Size + size t := rfl

@[simp] theorem size_append (t u : Text) : size (t ++ u) = size t + size u := by
  induction t with
  | nil => simp
  | cons c t ih => simp [ih, Nat.add_assoc]

/-- Two beginnings of one text that are equally wide are the same. -/
theorem append_inj_of_size {a b c d : Text} (h : a ++ b = c ++ d) (hs : a.size = c.size) :
    a = c ∧ b = d := by
  induction a generalizing c with
  | nil =>
    cases c with
    | nil => exact ⟨rfl, h⟩
    | cons x c =>
      have := x.utf8Size_pos
      simp only [size_nil, size_cons] at hs
      omega
  | cons x a ih =>
    cases c with
    | nil =>
      have := x.utf8Size_pos
      simp only [size_nil, size_cons] at hs
      omega
    | cons y c =>
      simp only [List.cons_append, List.cons.injEq] at h
      obtain ⟨rfl, h⟩ := h
      obtain ⟨rfl, rfl⟩ := ih h (by simpa using hs)
      exact ⟨rfl, rfl⟩

/-- The text `u` lies at byte `i` of the text `t`. -/
def LiesAt (t : Text) (i : Nat) (u : Text) : Prop := ∃ pre post, t = pre ++ u ++ post ∧ size pre = i

end Text

/-- Characters, each with its kind. -/
abbrev Painted := List (Char × Kind)

namespace Slot

/-- The slots of characters one after the other, each with its kind. -/
def paint (ps : List (Char × Kind)) : List Slot := ps.flatMap fun p => ofChar p.2 p.1

/-- The number of bytes of characters with kinds. -/
def width (ps : List (Char × Kind)) : Nat := Text.size (ps.map Prod.fst)

@[simp] theorem paint_nil : paint [] = [] := rfl

@[simp] theorem paint_cons (p : Char × Kind) (ps : Painted) :
    paint (p :: ps) = ofChar p.2 p.1 ++ paint ps := rfl

@[simp] theorem paint_append (ps qs : Painted) : paint (ps ++ qs) = paint ps ++ paint qs := by
  simp [paint]

@[simp] theorem width_nil : width [] = 0 := rfl

@[simp] theorem width_cons (p : Char × Kind) (ps : Painted) :
    width (p :: ps) = p.1.utf8Size + width ps := rfl

@[simp] theorem width_append (ps qs : Painted) : width (ps ++ qs) = width ps + width qs := by
  simp [width]

/-- The characters and their kinds can be read off the bytes. -/
theorem paint_injective {ps qs : Painted} (h : paint ps = paint qs) : ps = qs := by
  induction ps generalizing qs with
  | nil =>
    cases qs with
    | nil => rfl
    | cons q qs => simp [ofChar] at h
  | cons p ps ih =>
    obtain ⟨c, k⟩ := p
    cases qs with
    | nil => simp [ofChar] at h
    | cons q qs =>
      obtain ⟨d, l⟩ := q
      obtain ⟨rfl, rfl⟩ : c = d ∧ k = l := by
        simp only [paint_cons, ofChar, List.cons_append, List.cons.injEq,
          mk.injEq, Option.some.injEq] at h
        exact h.1
      rw [ih (List.append_cancel_left h)]

/-- Two beginnings of one list of characters that are equally wide are the same. -/
theorem append_inj_of_width {a b c d : Painted} (h : a ++ b = c ++ d)
    (hw : width a = width c) : a = c ∧ b = d := by
  refine List.append_inj h ?_
  have hchars : a.map Prod.fst ++ b.map Prod.fst = c.map Prod.fst ++ d.map Prod.fst := by
    rw [← List.map_append, ← List.map_append, h]
  have := congrArg List.length (Text.append_inj_of_size hchars hw).1
  simpa using this

@[simp] theorem length_ofChar (k : Kind) (c : Char) : (ofChar k c).length = c.utf8Size := by
  have := c.utf8Size_pos
  simp only [ofChar, List.length_cons, List.length_replicate]
  omega

@[simp] theorem length_paint (ps : Painted) : (paint ps).length = width ps := by
  induction ps with
  | nil => rfl
  | cons p ps ih => simp [ih]

/-- The first byte of a character holds it, the others hold nothing but its kind. -/
theorem getElem?_ofChar {k : Kind} {c : Char} {j : Nat} (hj : j < c.utf8Size) :
    (ofChar k c)[j]? = some ⟨if j = 0 then some c else none, k⟩ := by
  cases j with
  | zero => simp [ofChar]
  | succ j =>
    have : j < c.utf8Size - 1 := by omega
    simp [ofChar, this]

theorem filterMap_ofChar (k : Kind) (c : Char) : (ofChar k c).filterMap char? = [c] := by
  simp [ofChar]

theorem filterMap_paint (ps : Painted) : (paint ps).filterMap char? = ps.map Prod.fst := by
  induction ps with
  | nil => rfl
  | cons p ps ih => simp [filterMap_ofChar, ih]

theorem getElem?_paint {ps : Painted} {i : Nat} {s : Slot} (h : (paint ps)[i]? = some s) :
    ∃ pre c k post j, ps = pre ++ (c, k) :: post ∧ i = width pre + j ∧ j < c.utf8Size ∧
      s = ⟨if j = 0 then some c else none, k⟩ := by
  induction ps generalizing i with
  | nil => simp at h
  | cons p ps ih =>
    obtain ⟨c, k⟩ := p
    rw [paint_cons] at h
    by_cases hi : i < c.utf8Size
    · rw [List.getElem?_append_left (by simpa using hi), getElem?_ofChar hi] at h
      exact ⟨[], c, k, ps, i, rfl, by simp, hi, (Option.some.inj h).symm⟩
    · rw [List.getElem?_append_right (by simpa using hi), length_ofChar] at h
      obtain ⟨pre, d, l, post, j, rfl, hij, hj, rfl⟩ := ih h
      refine ⟨(c, k) :: pre, d, l, post, j, rfl, ?_, hj, rfl⟩
      dsimp only [width_cons] at hij ⊢
      omega

theorem getElem?_paint_at (pre post : Painted) (c : Char) (k : Kind) {j : Nat}
    (hj : j < c.utf8Size) :
    (paint (pre ++ (c, k) :: post))[width pre + j]? = some ⟨if j = 0 then some c else none, k⟩ := by
  rw [paint_append, paint_cons, List.getElem?_append_right (by simp), length_paint,
    Nat.add_sub_cancel_left, List.getElem?_append_left (by simpa using hj), getElem?_ofChar hj]

end Slot

namespace CodeMap

open Slot (paint width)

/-- The map is the layout of the characters with these kinds. -/
def Shows (m : CodeMap) (ps : List (Char × Kind)) : Prop := m.slots.toList = paint ps

/-- The range from `start` to `stop` is one of whole characters. -/
structure Whole (m : CodeMap) (start stop : Nat) : Prop where
  le : start ≤ stop
  left : m.isBoundary start = true
  right : m.isBoundary stop = true

section Layout

variable {m : CodeMap} {ps : Painted} (hm : m.Shows ps)
include hm

variable {i j : Nat} {c : Char} {k : Kind} {pre post : Painted}

theorem getElem?_slots (i : Nat) : m.slots[i]? = (paint ps)[i]? := by
  rw [← hm, Array.getElem?_toList]

theorem size_eq_width : m.size = width ps := by
  have h : m.slots.toList.length = (paint ps).length := by rw [hm]
  simpa [size] using h

theorem slot_iff :
    m.slots[i]? = some ⟨some c, k⟩ ↔ ∃ pre post, ps = pre ++ (c, k) :: post ∧ width pre = i := by
  constructor
  · intro h
    rw [getElem?_slots hm] at h
    obtain ⟨pre, d, l, post, j, rfl, rfl, hj, hs⟩ := Slot.getElem?_paint h
    by_cases hj0 : j = 0
    · subst hj0
      obtain ⟨rfl, rfl⟩ : c = d ∧ k = l := by simpa using hs
      exact ⟨pre, post, rfl, rfl⟩
    · simp [hj0] at hs
  · rintro ⟨pre, post, rfl, rfl⟩
    rw [getElem?_slots hm]
    simpa using Slot.getElem?_paint_at pre post c k c.utf8Size_pos

/-- The bytes of a character: the first one holds it, the others hold nothing. -/
theorem slots_inside (hps : ps = pre ++ (c, k) :: post) (hj : j < c.utf8Size) :
    m.slots[width pre + j]? = some ⟨if j = 0 then some c else none, k⟩ := by
  rw [getElem?_slots hm, hps]
  exact Slot.getElem?_paint_at pre post c k hj

/-- The last byte of a character has the kind of the character. -/
theorem slots_last (hps : ps = pre ++ (c, k) :: post) (hi : i + 1 = width pre + c.utf8Size) :
    ∃ s, m.slots[i]? = some s ∧ s.kind = k := by
  have hc := c.utf8Size_pos
  have hbyte := slots_inside hm hps (show c.utf8Size - 1 < c.utf8Size by omega)
  rw [show width pre + (c.utf8Size - 1) = i by omega] at hbyte
  exact ⟨_, hbyte, rfl⟩

theorem charAt?_iff :
    m.charAt? i = some c ↔ ∃ pre k post, ps = pre ++ (c, k) :: post ∧ width pre = i := by
  constructor
  · intro h
    simp only [charAt?, Option.bind_eq_some_iff] at h
    obtain ⟨⟨_, k⟩, hs, rfl⟩ := h
    obtain ⟨pre, post, h⟩ := (slot_iff hm).mp hs
    exact ⟨pre, k, post, h⟩
  · rintro ⟨pre, k, post, h⟩
    simp [charAt?, (slot_iff hm).mpr ⟨pre, post, h⟩]

/-- A byte that starts no character follows a byte of the same kind that is not a whole character
itself. -/
theorem slot_before (h : m.slots[i]? = some ⟨none, k⟩) :
    ∃ j s, i = j + 1 ∧ m.slots[j]? = some s ∧ s.kind = k ∧
      ∀ c, s.char? = some c → 1 < c.utf8Size := by
  rw [getElem?_slots hm] at h
  obtain ⟨pre, c, l, post, j, rfl, rfl, hj, hs⟩ := Slot.getElem?_paint h
  cases j with
  | zero => simp at hs
  | succ j =>
    obtain rfl : k = l := by simpa using hs
    refine ⟨width pre + j, ⟨if j = 0 then some c else none, k⟩, rfl, ?_, rfl, ?_⟩
    · rw [getElem?_slots hm]
      exact Slot.getElem?_paint_at pre post c k (by omega)
    · intro d hd
      by_cases hj0 : j = 0
      · obtain rfl : c = d := by simpa [hj0] using hd
        omega
      · simp [hj0] at hd

theorem isBoundary_iff : m.isBoundary i ↔ ∃ pre post, ps = pre ++ post ∧ width pre = i := by
  constructor
  · intro h
    unfold isBoundary at h
    split at h
    · rename_i s hs
      obtain ⟨c, hc⟩ := Option.isSome_iff_exists.mp h
      obtain ⟨_, k⟩ := s
      subst hc
      obtain ⟨pre, post, hps, hi⟩ := (slot_iff hm).mp hs
      exact ⟨pre, _, hps, hi⟩
    · have hi : i = m.size := by simpa using h
      exact ⟨ps, [], by simp, by rw [hi, size_eq_width hm]⟩
  · rintro ⟨pre, post, rfl, rfl⟩
    unfold isBoundary
    cases post with
    | nil =>
      have hnone : m.slots[width pre]? = none := by
        rw [getElem?_slots hm]
        simp
      simp [hnone, size_eq_width hm]
    | cons p post =>
      have hs := (slot_iff hm).mpr ⟨pre, post, rfl, rfl⟩
      simp [hs]

theorem isBoundary_zero : m.isBoundary 0 := (isBoundary_iff hm).mpr ⟨[], ps, rfl, rfl⟩

theorem isBoundary_size : m.isBoundary m.size :=
  (isBoundary_iff hm).mpr ⟨ps, [], by simp, (size_eq_width hm).symm⟩

theorem isBoundary_le (h : m.isBoundary i) : i ≤ m.size := by
  obtain ⟨pre, post, rfl, rfl⟩ := (isBoundary_iff hm).mp h
  rw [size_eq_width hm]
  simp

/-- Where a character starts and where it ends are boundaries. -/
theorem charAt?_boundary (h : m.charAt? i = some c) :
    m.isBoundary i ∧ m.isBoundary (i + c.utf8Size) := by
  obtain ⟨pre, k, post, rfl, rfl⟩ := (charAt?_iff hm).mp h
  refine ⟨(isBoundary_iff hm).mpr ⟨pre, _, rfl, rfl⟩, (isBoundary_iff hm).mpr ?_⟩
  exact ⟨pre ++ [(c, k)], post, by simp, by simp⟩

/-- No boundary lies inside a character. -/
theorem charAt?_le_boundary (h : m.charAt? i = some c) (hj : m.isBoundary j) (hij : i < j) :
    i + c.utf8Size ≤ j := by
  obtain ⟨pre, k, post, rfl, rfl⟩ := (charAt?_iff hm).mp h
  obtain ⟨before, after, hps, rfl⟩ := (isBoundary_iff hm).mp hj
  rcases List.append_eq_append_iff.mp hps with ⟨mid, rfl, hmid⟩ | ⟨mid, rfl, hmid⟩
  · cases mid with
    | nil => simp at hij
    | cons q mid =>
      obtain ⟨rfl, -⟩ := List.cons.inj hmid
      simp only [Slot.width_append, Slot.width_cons]
      omega
  · simp only [Slot.width_append] at hij
    omega

/-- Two boundaries in order part the text in three. -/
theorem boundary_split (hi : m.isBoundary i) (hj : m.isBoundary j) (hij : i ≤ j) :
    ∃ pre mid post, ps = pre ++ mid ++ post ∧ width pre = i ∧ width (pre ++ mid) = j := by
  obtain ⟨pre, rest, rfl, rfl⟩ := (isBoundary_iff hm).mp hi
  obtain ⟨before, post, hps, rfl⟩ := (isBoundary_iff hm).mp hj
  rcases List.append_eq_append_iff.mp hps with ⟨mid, rfl, rfl⟩ | ⟨mid, rfl, rfl⟩
  · exact ⟨pre, mid, post, by simp, rfl, rfl⟩
  · have hmid : width mid = 0 := by
      simp only [Slot.width_append] at hij
      omega
    cases mid with
    | nil => exact ⟨before, [], rest, by simp, by simp, by simp⟩
    | cons p mid =>
      have := p.1.utf8Size_pos
      simp only [Slot.width_cons] at hmid
      omega

omit hm in
theorem bytesFrom_eq_take (m : CodeMap) (count i : Nat) :
    m.bytesFrom count i = (m.slots.toList.drop i).take count := by
  induction count generalizing i with
  | zero => simp [bytesFrom]
  | succ count ih =>
    rw [bytesFrom, ← Array.getElem?_toList, ih]
    cases h : m.slots.toList[i]? with
    | none =>
      have hi : m.slots.toList.length ≤ i := List.getElem?_eq_none_iff.mp h
      simp [List.drop_eq_nil_of_le hi]
    | some s =>
      obtain ⟨hi, hs⟩ := List.getElem?_eq_some_iff.mp h
      rw [List.drop_eq_getElem_cons hi, List.take_succ_cons, hs]

theorem bytesFrom_eq (count i : Nat) : m.bytesFrom count i = ((paint ps).drop i).take count := by
  rw [bytesFrom_eq_take, hm]

/-- What a range of whole characters gives when it is cut out. -/
theorem slice_eq_ok {mid : Painted} (hps : ps = pre ++ mid ++ post) :
    m.slice (width pre) (width (pre ++ mid)) = .ok (mid.map Prod.fst) := by
  have hi : m.isBoundary (width pre) :=
    (isBoundary_iff hm).mpr ⟨pre, mid ++ post, by simp [hps], rfl⟩
  have hj : m.isBoundary (width (pre ++ mid)) :=
    (isBoundary_iff hm).mpr ⟨pre ++ mid, post, hps, rfl⟩
  have hle := isBoundary_le hm hj
  have hbytes : m.bytesFrom (width (pre ++ mid) - width pre) (width pre) = paint mid := by
    rw [bytesFrom_eq hm, hps]
    simp
  rw [slice, hbytes, Slot.filterMap_paint]
  have h := And.intro hle hj
  simpa [hi] using h

/-- A range of whole characters can be cut out, and gives the text that lies there. -/
theorem slice_yields (hw : m.Whole i j) :
    Yields (m.slice i j) fun u => Text.LiesAt (ps.map Prod.fst) i u ∧ i + u.size = j := by
  obtain ⟨pre, mid, post, hps, rfl, rfl⟩ := boundary_split hm hw.left hw.right hw.le
  refine ⟨_, slice_eq_ok hm hps, ⟨pre.map Prod.fst, post.map Prod.fst, ?_, rfl⟩, ?_⟩
  · simp [hps]
  · simp [width]

/-- Text that lies in the source is what is cut out at its place. -/
theorem slice_of_liesAt {u : Text} (h : Text.LiesAt (ps.map Prod.fst) i u) :
    m.Whole i (i + u.size) ∧ m.slice i (i + u.size) = .ok u := by
  obtain ⟨pre, post, ht, rfl⟩ := h
  obtain ⟨ps', post', rfl, hps', rfl⟩ := List.map_eq_append_iff.mp ht
  obtain ⟨pre', mid', rfl, rfl, rfl⟩ := List.map_eq_append_iff.mp hps'
  have hwidth : Text.size (pre'.map Prod.fst) + Text.size (mid'.map Prod.fst) =
      width (pre' ++ mid') := by simp [width]
  rw [hwidth]
  refine ⟨⟨?_, ?_, ?_⟩, slice_eq_ok hm rfl⟩
  · simp [width]
  · exact (isBoundary_iff hm).mpr ⟨pre', mid' ++ post', by simp, rfl⟩
  · exact (isBoundary_iff hm).mpr ⟨pre' ++ mid', post', rfl, rfl⟩

end Layout

section Walks

variable (m : CodeMap) (p : Slot → Bool)

theorem le_skipWhile (count i : Nat) : i ≤ m.skipWhile p count i := by
  induction count generalizing i with
  | zero => exact le_refl i
  | succ count ih =>
    rw [skipWhile]
    split
    · have := ih (i + 1)
      omega
    · exact le_refl i

theorem skipWhile_le (count i : Nat) : m.skipWhile p count i ≤ i + count := by
  induction count generalizing i with
  | zero => exact le_refl i
  | succ count ih =>
    rw [skipWhile]
    split
    · have := ih (i + 1)
      omega
    · omega

/-- Every byte that was skipped has the property. -/
theorem has_of_skipWhile (count i j : Nat) (hij : i ≤ j) (hj : j < m.skipWhile p count i) :
    m.has p j := by
  induction count generalizing i with
  | zero =>
    rw [skipWhile] at hj
    omega
  | succ count ih =>
    rw [skipWhile] at hj
    split at hj
    · rename_i hi
      rcases Nat.eq_or_lt_of_le hij with rfl | hlt
      · exact hi
      · exact ih (i + 1) hlt hj
    · omega

/-- A walk stops at its limit or at a byte without the property. -/
theorem skipWhile_stop (count i : Nat) (h : m.skipWhile p count i < i + count) :
    m.has p (m.skipWhile p count i) = false := by
  induction count generalizing i with
  | zero =>
    rw [skipWhile] at h
    omega
  | succ count ih =>
    rw [skipWhile] at h ⊢
    split
    · rename_i hi
      rw [if_pos hi] at h
      exact ih (i + 1) (by omega)
    · rename_i hi
      simpa using hi

theorem skipBackWhile_le (count i : Nat) : m.skipBackWhile p count i ≤ i := by
  induction count generalizing i with
  | zero => exact le_refl i
  | succ count ih =>
    rw [skipBackWhile]
    split
    · have := ih (i - 1)
      omega
    · exact le_refl i

theorem le_skipBackWhile (count i : Nat) : i - count ≤ m.skipBackWhile p count i := by
  induction count generalizing i with
  | zero => simp [skipBackWhile]
  | succ count ih =>
    rw [skipBackWhile]
    split
    · have := ih (i - 1)
      omega
    · omega

theorem has_of_skipBackWhile (count i j : Nat) (hij : m.skipBackWhile p count i ≤ j) (hj : j < i) :
    m.has p j := by
  induction count generalizing i with
  | zero =>
    rw [skipBackWhile] at hij
    omega
  | succ count ih =>
    rw [skipBackWhile] at hij
    split at hij
    · rename_i hi
      by_cases hlast : j = i - 1
      · rw [hlast]
        exact hi
      · exact ih (i - 1) hij (by omega)
    · omega

/-- A walk back stops at its limit or behind a byte without the property. -/
theorem skipBackWhile_stop (count i : Nat) (h : i - count < m.skipBackWhile p count i) :
    m.has p (m.skipBackWhile p count i - 1) = false := by
  induction count generalizing i with
  | zero => simp [skipBackWhile] at h
  | succ count ih =>
    rw [skipBackWhile] at h ⊢
    split
    · rename_i hi
      rw [if_pos hi] at h
      exact ih (i - 1) (by omega)
    · rename_i hi
      simpa using hi

/-- With a byte, the property holds of the next byte of the same character. -/
def Carries : Prop := ∀ s : Slot, p s = true →
  (∃ c, s.char? = some c ∧ c.utf8Size = 1) ∨ p ⟨none, s.kind⟩ = true

/-- With a later byte of a character, the property holds of the byte before it. -/
def CarriesBack : Prop := ∀ s : Slot, p ⟨none, s.kind⟩ = true → p s = true

variable {m p} {ps : Painted}

theorem has_eq_true {i : Nat} : m.has p i ↔ ∃ s, m.slots[i]? = some s ∧ p s := by
  unfold has
  cases m.slots[i]? <;> simp

theorem has_at (hm : m.Shows ps) {pre post : Painted} {c : Char} {k : Kind}
    (hps : ps = pre ++ (c, k) :: post) (p : Slot → Bool) : m.has p (width pre) = p ⟨some c, k⟩ := by
  rw [has, (slot_iff hm).mpr ⟨pre, post, hps, rfl⟩, Option.any_some]

variable (hm : m.Shows ps)
include hm

/-- A position inside the text that is no boundary follows a byte of the same character. -/
theorem inside_character {i : Nat} (hi : i < m.size) (hb : m.isBoundary i = false) :
    ∃ j k s, i = j + 1 ∧ m.slots[i]? = some ⟨none, k⟩ ∧ m.slots[j]? = some s ∧ s.kind = k ∧
      ∀ c, s.char? = some c → 1 < c.utf8Size := by
  have hsome : m.slots[i]? = some m.slots[i] := Array.getElem?_eq_getElem hi
  have hnone : m.slots[i].char? = none := by
    unfold isBoundary at hb
    rw [hsome] at hb
    simpa using hb
  have hslot : m.slots[i]? = some ⟨none, m.slots[i].kind⟩ := by
    rw [hsome, ← hnone]
  obtain ⟨j, s, rfl, hs, hk, hc⟩ := slot_before hm hslot
  exact ⟨j, _, s, rfl, hslot, hs, hk, hc⟩

/-- A walk over bytes whose property holds of whole characters leads to a boundary, unless it comes to
its limit. -/
theorem skipWhile_ends (hp : Carries p) (count : Nat) {i : Nat} (hi : m.isBoundary i) :
    m.isBoundary (m.skipWhile p count i) ∨ m.skipWhile p count i = i + count := by
  have hle := skipWhile_le m p count i
  have hge := le_skipWhile m p count i
  by_contra hnot
  obtain ⟨hb, hne⟩ := not_or.mp hnot
  have hnei : m.skipWhile p count i ≠ i := fun h => hb (by rwa [h])
  -- The byte before the end of the walk has the property, so the byte at its end has it too.
  obtain ⟨s', hs', hps'⟩ := has_eq_true.mp
    (has_of_skipWhile m p count i (m.skipWhile p count i - 1) (by omega) (by omega))
  obtain ⟨hlast, -⟩ := Array.getElem?_eq_some_iff.mp hs'
  have hinside : m.skipWhile p count i < m.size := by
    rcases Nat.eq_or_lt_of_le (show m.skipWhile p count i ≤ m.size by unfold size; omega) with h | h
    · exact absurd (by rw [h]; exact isBoundary_size hm) hb
    · exact h
  obtain ⟨j, k, s, hj, hslot, hs, rfl, hc⟩ := inside_character hm hinside (by simpa using hb)
  rw [hj] at hs'
  obtain rfl : s = s' := Option.some.inj (hs.symm.trans hs')
  have hend := skipWhile_stop m p count i (by omega)
  rcases hp s hps' with ⟨c, hsc, hc1⟩ | hnext
  · have := hc c hsc
    omega
  · rw [has_eq_true.mpr ⟨_, hslot, hnext⟩] at hend
    cases hend

/-- A walk back over bytes whose property holds of whole characters leads to a boundary, unless it
comes to its limit. -/
theorem skipBackWhile_ends (hp : CarriesBack p) (count : Nat) {i : Nat} (hi : m.isBoundary i) :
    m.isBoundary (m.skipBackWhile p count i) ∨ m.skipBackWhile p count i = i - count := by
  have hle := skipBackWhile_le m p count i
  have hge := le_skipBackWhile m p count i
  by_contra hnot
  obtain ⟨hb, hne⟩ := not_or.mp hnot
  have hnei : m.skipBackWhile p count i ≠ i := fun h => hb (by rwa [h])
  have hsize := isBoundary_le hm hi
  obtain ⟨j, k, s, hj, hslot, hs, rfl, -⟩ :=
    inside_character hm (show m.skipBackWhile p count i < m.size by omega) (by simpa using hb)
  obtain ⟨s', hs', hps'⟩ :=
    has_eq_true.mp (has_of_skipBackWhile m p count i _ (le_refl _) (by omega))
  obtain rfl : ⟨none, s.kind⟩ = s' := Option.some.inj (hslot.symm.trans hs')
  have hend := skipBackWhile_stop m p count i (by omega)
  rw [hj, Nat.add_sub_cancel, has_eq_true.mpr ⟨s, hs, hp s hps'⟩] at hend
  cases hend

end Walks

section Trivia

variable {m : CodeMap} {ps : Painted} {i stop start : Nat}

@[elab_as_elim]
theorem of_isLayout {p : Char → Prop} {c : Char} (h : Character.isLayout c)
    (hp : ∀ d ∈ [' ', '\t', '\n', '\x0C', '\r'], p d) : p c :=
  hp c (by simpa [Character.isLayout, or_assoc] using h)

theorem utf8Size_of_isLayout {c : Char} (h : Character.isLayout c) : c.utf8Size = 1 :=
  of_isLayout h (by decide)

theorem isTrivia_carries : Carries Slot.isTrivia := by
  rintro ⟨c, k⟩ h
  cases k with
  | comment => exact .inr rfl
  | code =>
    cases c with
    | none => simp [Slot.isTrivia, Slot.isCode, Slot.isLayout] at h
    | some c =>
      have hc : Character.isLayout c := by
        simpa [Slot.isTrivia, Slot.isCode, Slot.isLayout] using h
      exact .inl ⟨c, rfl, utf8Size_of_isLayout hc⟩
  | literal => simp [Slot.isTrivia, Slot.isCode] at h
  | markup => simp [Slot.isTrivia, Slot.isCode] at h

theorem isTrivia_carriesBack : CarriesBack Slot.isTrivia := by
  rintro ⟨c, k⟩ h
  cases k <;> simp_all [Slot.isTrivia, Slot.isCode, Slot.isLayout]

theorem le_skipTrivia (m : CodeMap) (i stop : Nat) : i ≤ m.skipTrivia i stop := le_skipWhile m _ _ _

theorem skipTrivia_le (h : i ≤ stop) : m.skipTrivia i stop ≤ stop := by
  have := skipWhile_le m Slot.isTrivia (stop - i) i
  unfold skipTrivia
  omega

theorem skipTrivia_stop (h : m.skipTrivia i stop < stop) :
    m.has Slot.isTrivia (m.skipTrivia i stop) = false := by
  exact skipWhile_stop m Slot.isTrivia (stop - i) i (by unfold skipTrivia at *; omega)

theorem skipTrivia_ends (hm : m.Shows ps) (hi : m.isBoundary i) :
    m.isBoundary (m.skipTrivia i stop) ∨ m.skipTrivia i stop = stop := by
  by_cases h : i ≤ stop
  · have hends := skipWhile_ends hm isTrivia_carries (stop - i) hi
    rwa [Nat.add_sub_cancel' h] at hends
  · rw [skipTrivia, Nat.sub_eq_zero_of_le (by omega)]
    exact .inl hi

theorem skipTrivia_boundary (hm : m.Shows ps) (hi : m.isBoundary i)
    (hstop : m.isBoundary stop) : m.isBoundary (m.skipTrivia i stop) :=
  (skipTrivia_ends hm hi).elim id fun h => by rwa [h]

theorem trimTrivia_le (m : CodeMap) (start stop : Nat) : m.trimTrivia start stop ≤ stop :=
  skipBackWhile_le m _ _ _

theorem le_trimTrivia (h : start ≤ stop) : start ≤ m.trimTrivia start stop := by
  have := le_skipBackWhile m Slot.isTrivia (stop - start) stop
  unfold trimTrivia
  omega

/-- Behind the end of a trimmed range there is trivia, or the range was not trimmed at all. -/
theorem trimTrivia_next (h : m.trimTrivia start stop < stop) :
    m.has Slot.isTrivia (m.trimTrivia start stop) := has_of_skipBackWhile m _ _ _ _ (le_refl _) h

theorem trimTrivia_last (h : start < m.trimTrivia start stop) :
    m.has Slot.isTrivia (m.trimTrivia start stop - 1) = false := by
  exact skipBackWhile_stop m Slot.isTrivia (stop - start) stop (by unfold trimTrivia at *; omega)

theorem trimTrivia_ends (hm : m.Shows ps) (hstop : m.isBoundary stop) :
    m.isBoundary (m.trimTrivia start stop) ∨ m.trimTrivia start stop = start := by
  by_cases h : start ≤ stop
  · have hends := skipBackWhile_ends hm isTrivia_carriesBack (stop - start) hstop
    rwa [Nat.sub_sub_self h] at hends
  · rw [trimTrivia, Nat.sub_eq_zero_of_le (by omega)]
    exact .inl hstop

theorem trimTrivia_boundary (hm : m.Shows ps) (hstart : m.isBoundary start)
    (hstop : m.isBoundary stop) : m.isBoundary (m.trimTrivia start stop) :=
  (trimTrivia_ends hm hstop).elim id fun h => by rwa [h]

end Trivia

end CodeMap

section Reports

variable {m : CodeMap} {ps : Painted} {start stop : Nat}

theorem Span.clamp_of_le (h : start ≤ stop) (hlimit : stop ≤ Span.limit) :
    Span.clamp ⟨start, stop⟩ = ⟨start, stop⟩ := by
  rw [Span.clamp, Nat.min_eq_left (le_trans h hlimit), Nat.min_eq_left hlimit]

/-- A range that is in order is reported, however far behind it lies. -/
theorem Span.reported_yields (h : start ≤ stop) :
    Yields (Span.reported start stop) fun s => s = Span.clamp ⟨start, stop⟩ := by
  have hclamp : (Span.clamp ⟨start, stop⟩).start ≤ (Span.clamp ⟨start, stop⟩).stop := by
    simp only [Span.clamp]
    omega
  exact ⟨_, by simp [Span.reported, hclamp], rfl⟩

theorem Span.eq_clamp_of_reported {s : Span} (h : Span.reported start stop = .ok s) :
    s = Span.clamp ⟨start, stop⟩ := by
  unfold Span.reported at h
  dsimp only at h
  split at h
  · cases h
    rfl
  · cases h

theorem Warning.about_yields (notice : Notice) (h : start ≤ stop) :
    Yields (Warning.about notice start stop) fun w =>
      w = ⟨notice, Span.clamp ⟨start, stop⟩⟩ := by
  refine (Span.reported_yields h).bind fun s hs => ?_
  exact .ok (by rw [hs])

/-- The snippet is the text of a range of whole characters. -/
theorem Snippet.cut_yields (hm : m.Shows ps) (hw : m.Whole start stop) :
    Yields (Snippet.cut m start stop) fun s =>
      Text.LiesAt (ps.map Prod.fst) start s.text ∧ start + s.text.size = stop ∧
        s.range = Span.clamp ⟨start, stop⟩ := by
  refine (CodeMap.slice_yields hm hw).bind fun u hu => ?_
  refine (Span.reported_yields hw.le).bind fun s hs => ?_
  exact .ok ⟨hu.1, hu.2, hs⟩

end Reports

end Declass
