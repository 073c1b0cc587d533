import Declass.Proofs.Nesting

/-!
# Parts between separators

**Input.** A code map, a range, and a character that is no bracket.

**Algorithm.** Two walks count the brackets open since the start of the range, and neither counts a
bracket that closes too many.  One lists the separators that it meets with none open, the other stops
at the first.

**Results.** `splitTop_separated`: the parts and the separators between them make up the range, all
separators outside brackets stand between parts, and the first of them is the one that is found.
-/

namespace Declass

namespace CodeMap

section Depths

variable {m : CodeMap} {p : Nat → Bool} {i j d count : Nat}

/-- The number of brackets open behind the byte at `i`, with `d` open before it. -/
def depthBehind (m : CodeMap) (d i : Nat) : Nat :=
  if m.has Slot.opens i then d + 1 else if m.has Slot.closes i then d - 1 else d

/-- The number of brackets open before `j`, with `d` open before `i`.  A closing bracket too many does
not count. -/
def depthAt (m : CodeMap) (d i j : Nat) : Nat := (List.range' i (j - i)).foldl m.depthBehind d

theorem depthAt_self : m.depthAt d i i = d := by simp [depthAt]

theorem depthAt_of_lt (h : i < j) : m.depthAt d i j = m.depthAt (m.depthBehind d i) (i + 1) j := by
  rw [depthAt, show j - i = j - (i + 1) + 1 by omega, List.range'_succ, List.foldl_cons, depthAt]

theorem outerFrom_succ : m.outerFrom p (count + 1) d i =
    (if m.has Slot.opens i = false ∧ m.has Slot.closes i = false ∧ d = 0 ∧ p i = true then [i]
      else []) ++ m.outerFrom p count (m.depthBehind d i) (i + 1) := by
  rw [outerFrom, depthBehind]
  split_ifs <;> simp_all

/-- The walk lists every position outside brackets that has the property and is no bracket. -/
theorem mem_outerFrom_of_depthAt (hij : i ≤ j) (hj : j < i + count)
    (ho : m.has Slot.opens j = false) (hc : m.has Slot.closes j = false) (hp : p j) :
    j ∈ m.outerFrom p count d i ↔ m.depthAt d i j = 0 := by
  induction count generalizing i d with
  | zero => omega
  | succ count ih =>
    rw [outerFrom_succ, List.mem_append]
    rcases Nat.eq_or_lt_of_le hij with rfl | hlt
    · have hlater : i ∉ m.outerFrom p count (m.depthBehind d i) (i + 1) := by
        intro h
        have := mem_outerFrom h
        omega
      simp [ho, hc, hp, hlater, depthAt_self]
    · rw [ih hlt (by omega), depthAt_of_lt hlt, or_iff_right]
      intro h
      split at h
      · exact absurd (List.mem_singleton.mp h) (by omega)
      · cases h

end Depths

section Cuts

variable {m : CodeMap} {start stop i j : Nat} {cuts : List Nat} {sep : Char} {part : Span}

/-- The bytes of a range. -/
def bytesOf (m : CodeMap) (part : Span) : List Slot :=
  m.bytesFrom (part.stop - part.start) part.start

theorem bytesOf_split (hi : start ≤ i) (hstop : i < stop) (h : m.isCodeChar i sep) :
    m.bytesOf ⟨start, stop⟩ =
      m.bytesOf ⟨start, i⟩ ++ ⟨some sep, .code⟩ :: m.bytesOf ⟨i + 1, stop⟩ := by
  obtain ⟨hlt, hslot⟩ := Array.getElem?_eq_some_iff.mp (isCodeChar_iff.mp h)
  have hlength : i < m.slots.toList.length := by simpa using hlt
  simp only [bytesOf, bytesFrom_eq_take]
  rw [show stop - start = i - start + (stop - (i + 1) + 1) by omega, List.take_add,
    List.drop_drop, Nat.add_sub_cancel' hi, List.drop_eq_getElem_cons hlength, List.take_succ_cons,
    Array.getElem_toList, hslot]

theorem cut_ne_nil (start stop : Nat) (cuts : List Nat) : cut start stop cuts ≠ [] := by
  cases cuts <;> simp [cut]

theorem head?_cut (start stop : Nat) (cuts : List Nat) :
    (cut start stop cuts).head?.map Span.start = some start := by
  cases cuts <;> rfl

theorem getLast?_cut : (cut start stop cuts).getLast?.map Span.stop = some stop := by
  induction cuts generalizing start with
  | nil => rfl
  | cons i cuts ih => rw [cut, List.getLast?_cons_of_ne_nil (cut_ne_nil _ _ _), ih]

/-- The bytes of the parts, with the separators between them, are those of the range. -/
theorem intercalate_cut (hsorted : cuts.Pairwise (· < ·))
    (hcuts : ∀ j ∈ cuts, (start ≤ j ∧ j < stop) ∧ m.isCodeChar j sep) :
    [⟨some sep, .code⟩].intercalate ((cut start stop cuts).map m.bytesOf) =
      m.bytesOf ⟨start, stop⟩ := by
  induction cuts generalizing start with
  | nil => simp [cut]
  | cons i cuts ih =>
    obtain ⟨⟨⟨hi, hstop⟩, hsep⟩, hrest⟩ := List.forall_mem_cons.mp hcuts
    obtain ⟨hfirst, hsorted⟩ := List.pairwise_cons.mp hsorted
    have hnext := ih hsorted fun j hj => ⟨⟨hfirst j hj, (hrest j hj).1.2⟩, (hrest j hj).2⟩
    rw [cut, List.map_cons, List.intercalate_cons_of_ne_nil (by simpa using cut_ne_nil _ _ _),
      hnext, bytesOf_split hi hstop hsep]
    simp

theorem isChain_cut :
    (cut start stop cuts).IsChain fun a b => b.start = a.stop + 1 ∧ a.stop ∈ cuts := by
  induction cuts generalizing start with
  | nil => exact .singleton _
  | cons i cuts ih =>
    refine List.isChain_cons.mpr ⟨fun part hpart => ⟨?_, List.mem_cons_self⟩,
      ih.imp fun _ _ h => ⟨h.1, List.mem_cons_of_mem _ h.2⟩⟩
    have hhead := head?_cut (i + 1) stop cuts
    rw [Option.mem_def.mp hpart] at hhead
    exact Option.some.inj hhead

theorem not_mem_of_mem_cut (hsorted : cuts.Pairwise (· < ·))
    (hin : ∀ j ∈ cuts, start ≤ j ∧ j < stop) (h : part ∈ cut start stop cuts)
    (hi : part.start ≤ i) (hstop : i < part.stop) : i ∉ cuts := by
  induction cuts generalizing start with
  | nil => exact List.not_mem_nil
  | cons j cuts ih =>
    obtain ⟨hfirst, hsorted⟩ := List.pairwise_cons.mp hsorted
    obtain ⟨hj, hin⟩ := List.forall_mem_cons.mp hin
    rw [List.mem_cons, not_or]
    rcases List.mem_cons.mp h with rfl | h
    · refine ⟨Nat.ne_of_lt hstop, fun hmem => ?_⟩
      have := hfirst i hmem
      dsimp only at hstop
      omega
    · have hcuts : ∀ k ∈ cuts, j + 1 ≤ k ∧ k < stop := fun k hk => ⟨hfirst k hk, (hin k hk).2⟩
      have hstart := (mem_cut hsorted hcuts hj.2 h).1
      exact ⟨by omega, ih hsorted hcuts h⟩

end Cuts

/-- The parts make up the range, with one separator of code outside brackets between neighbours and
none inside a part. -/
structure Separated (m : CodeMap) (start stop : Nat) (sep : Char) (parts : List Span) : Prop where
  first : parts.head?.map Span.start = some start
  last : parts.getLast?.map Span.stop = some stop
  ordered : ∀ part ∈ parts, part.start ≤ part.stop
  next : parts.IsChain fun a b => b.start = a.stop + 1 ∧ m.isCodeChar a.stop sep = true ∧
    m.depthAt 0 start a.stop = 0
  joined : [⟨some sep, .code⟩].intercalate (parts.map m.bytesOf) = m.bytesOf ⟨start, stop⟩
  inside : ∀ part ∈ parts, ∀ i, part.start ≤ i → i < part.stop → m.isCodeChar i sep = true →
    m.depthAt 0 start i ≠ 0

section Separators

variable {m : CodeMap} {start stop i : Nat} {sep : Char}

theorem not_bracket_of_isCodeChar (hsep : isBracketFree sep) (h : m.isCodeChar i sep) :
    m.has Slot.opens i = false ∧ m.has Slot.closes i = false := by
  simpa [has, isCodeChar_iff.mp h] using not_bracket hsep .code

theorem mem_outer_iff (hsep : isBracketFree sep) : i ∈ m.outer (m.isCodeChar · sep) start stop ↔
      (start ≤ i ∧ i < stop) ∧ m.isCodeChar i sep ∧ m.depthAt 0 start i = 0 := by
  constructor
  · intro h
    obtain ⟨hstart, hstop, hi⟩ := mem_outerFrom h
    obtain ⟨ho, hc⟩ := not_bracket_of_isCodeChar hsep hi
    exact ⟨⟨hstart, by omega⟩, hi, (mem_outerFrom_of_depthAt hstart hstop ho hc hi).mp h⟩
  · rintro ⟨⟨hstart, hstop⟩, hi, hdepth⟩
    obtain ⟨ho, hc⟩ := not_bracket_of_isCodeChar hsep hi
    exact (mem_outerFrom_of_depthAt hstart (by omega) ho hc hi).mpr hdepth

theorem findTop_eq_some_iff : m.findTop start stop sep = some i ↔
    2 ≤ (m.splitTop start stop sep).length ∧
      (m.splitTop start stop sep).head? = some ⟨start, i⟩ := by
  rw [findTop, firstOuter?, firstOuterFrom?_eq_head?, splitTop, outer]
  cases m.outerFrom (m.isCodeChar · sep) (stop - start) 0 start with
  | nil => simp [cut]
  | cons j cuts =>
    have hrest := List.length_pos_of_ne_nil (cut_ne_nil (j + 1) stop cuts)
    simp [cut, Nat.succ_le_iff.mpr hrest]

end Separators

/-- Cutting a range at the separators outside brackets parts it, and looking for a separator finds the
end of the first part if there is more than one. -/
theorem splitTop_separated (m : CodeMap) (start stop : Nat) (sep : Char) (hle : start ≤ stop)
    (hsep : isBracketFree sep = true) :
    m.Separated start stop sep (m.splitTop start stop sep) ∧
      ∀ i, m.findTop start stop sep = some i ↔ 2 ≤ (m.splitTop start stop sep).length ∧
        (m.splitTop start stop sep).head? = some ⟨start, i⟩ := by
  refine ⟨?_, fun i => findTop_eq_some_iff⟩
  have hcuts : ∀ j ∈ m.outer (m.isCodeChar · sep) start stop, (start ≤ j ∧ j < stop) ∧
      m.isCodeChar j sep = true ∧ m.depthAt 0 start j = 0 := fun j => (mem_outer_iff hsep).mp
  have hin := fun j hj => (hcuts j hj).1
  constructor
  case first => exact head?_cut _ _ _
  case last => exact getLast?_cut
  case ordered => exact fun part h => (mem_cut outerFrom_pairwise hin hle h).2.1
  case next => exact isChain_cut.imp fun a b h => ⟨h.1, (hcuts _ h.2).2⟩
  case joined => exact intercalate_cut outerFrom_pairwise fun j hj => ⟨hin j hj, (hcuts j hj).2.1⟩
  case inside =>
    intro part hpart i hi hstop hchar hdepth
    obtain ⟨hstart, -, hend, -⟩ := mem_cut outerFrom_pairwise hin hle hpart
    refine not_mem_of_mem_cut outerFrom_pairwise hin hpart hi hstop ?_
    exact (mem_outer_iff hsep).mpr ⟨⟨by omega, by omega⟩, hchar, hdepth⟩

/-- A closing bracket too many, a separator inside brackets and two outside. -/
theorem splitTop_separated_stray :
    (ofText "),f(a,b),c".toList).splitTop 0 10 ',' = [⟨0, 1⟩, ⟨2, 8⟩, ⟨9, 10⟩] ∧
      (ofText "),f(a,b),c".toList).Separated 0 10 ','
        ((ofText "),f(a,b),c".toList).splitTop 0 10 ',') ∧
      (ofText "),f(a,b),c".toList).findTop 0 10 ',' = some 1 := by
  obtain ⟨hparts, hfound⟩ :=
    splitTop_separated (ofText "),f(a,b),c".toList) 0 10 ',' (by decide) (by decide)
  exact ⟨by decide, hparts, (hfound 1).mpr (by decide)⟩

end CodeMap

end Declass
