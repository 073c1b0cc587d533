import Declass.Proofs.Members

/-!
# Regions of a class body

**Input.** The map of a text and a class body in it: a range of whole characters that ends at a
closing bracket, or with the text.

**Algorithm.** `Delimited.Takes` says what reading at one place takes in and what it leaves behind.
Place after place, the regions taken in `Tile` the class body.

**Results.** `list_covers_body`: the members and the ranges given up follow each other without
overlap, none of them is empty, and nothing but separators lies between them.
-/

namespace Declass

open CodeMap

namespace Member

/-- The byte belongs to no member: it is trivia, or a semicolon of code. -/
def Separates (m : CodeMap) (i : Nat) : Prop :=
  m.has Slot.isTrivia i = true ∨ m.isCodeChar i ';' = true

/-- A part of a class body: a member, or a range in which none could be read, with its first line. -/
inductive Region where
  | member (member : Member)
  | lost (line : Text) (range : Span)

namespace Region

/-- The range of a region. -/
def range : Region → Span
  | member m => m.range
  | lost _ range => range

/-- The member, if the region is one. -/
def member? : Region → Option Member
  | member m => some m
  | lost _ _ => none

/-- The warning about the region, if it was given up. -/
def warning? : Region → Option Warning
  | member _ => none
  | lost line range => some ⟨.undelimitedMember line, range.clamp⟩

end Region

/-- The members and the warnings of a list of regions. -/
def Listing.of (regions : List Region) : Listing :=
  ⟨regions.filterMap Region.member?, regions.filterMap Region.warning?⟩

section Reading

/-- What reading at `start` takes in is not empty and does not reach beyond `stop`, and what it
leaves before the place where reading goes on is separators. -/
def Delimited.Takes (m : CodeMap) (start stop : Nat) : Delimited → Prop
  | .member found next => found.range.start = start ∧ start < found.range.stop ∧
      found.range.stop ≤ next ∧ next ≤ stop ∧
      ∀ i, found.range.stop ≤ i → i < next → Separates m i
  | .lost resume => start < resume ∧ resume ≤ stop

variable {m : CodeMap}

theorem isTrivia_of_feed {i : Nat} (h : m.isCodeChar i '\n') : m.has Slot.isTrivia i :=
  has_eq_true.mpr ⟨_, isCodeChar_iff.mp h, rfl⟩

/-- What ends a value is a semicolon or a line feed of code, or is left to be read. -/
theorem valueEndFrom_next {start stop count depth i e next : Nat} (hcount : i + count = stop)
    (h : valueEndFrom m start stop count depth i = (e, next)) :
    i ≤ e ∧ next ≤ stop ∧ (next = e ∨ next = e + 1 ∧ Separates m e) := by
  obtain ⟨hle, ⟨rfl, rfl⟩ | ⟨hlt, ⟨rfl, -⟩ | ⟨rfl, hsep⟩⟩⟩ := valueEndFrom_cases hcount h
  · exact ⟨hle, le_refl _, .inl rfl⟩
  · exact ⟨hle, le_of_lt hlt, .inl rfl⟩
  · exact ⟨hle, hlt, .inr ⟨rfl, hsep.symm.imp_left isTrivia_of_feed⟩⟩

theorem lt_recover {start stop : Nat} (h : start < stop) :
    start < recover m start stop ∧ recover m start stop ≤ stop := by
  unfold recover
  split
  · rename_i i hi
    obtain ⟨h1, h2, -⟩ := firstOuter?_spec hi
    exact ⟨by omega, by omega⟩
  · exact ⟨h, le_refl _⟩

/-- Behind the value of a field there are separators up to the place where reading goes on. -/
theorem value_takes {equals stop : Nat} (hlt : equals < stop) :
    equals < valueStop m equals stop ∧ valueStop m equals stop ≤ valueNext m equals stop ∧
      valueNext m equals stop ≤ stop ∧
      ∀ i, valueStop m equals stop ≤ i → i < valueNext m equals stop → Separates m i := by
  have hge : equals + 1 ≤ valueStart m equals stop := le_skipTrivia m (equals + 1) stop
  have hle : valueStart m equals stop ≤ stop := skipTrivia_le hlt
  generalize hraw : valueEnd m (valueStart m equals stop) stop = raw
  obtain ⟨e, next⟩ := raw
  obtain ⟨h1, h2, h3⟩ := valueEndFrom_next (by omega) hraw
  have hstop : valueStop m equals stop = m.trimTrivia (valueStart m equals stop) e := by
    rw [valueStop, hraw]
  have htrim : valueStart m equals stop ≤ m.trimTrivia (valueStart m equals stop) e :=
    le_trimTrivia h1
  have htrim' := trimTrivia_le m (valueStart m equals stop) e
  have hnext : valueNext m equals stop = next := by
    rw [valueNext, hraw]
    omega
  rw [hnext, hstop]
  refine ⟨by omega, by omega, h2, fun i hi hi' => ?_⟩
  by_cases hie : i < e
  · exact .inl (has_of_skipBackWhile m _ _ _ _ hi hie)
  · rcases h3 with rfl | ⟨rfl, hsep⟩
    · omega
    · rwa [show i = e by omega]

theorem Reading.takes {ps : Painted} (hm : m.Shows ps) {start stop : Nat}
    {d : Delimited} (hlt : start < stop) (h : Reading m start stop d) : d.Takes m start stop := by
  cases h with
  | lost => exact lt_recover hlt
  | @method mods name nameEnd params block hname hparts =>
    have hge := le_skipTrivia m nameEnd stop
    have hstart := hname.lt
    obtain ⟨-, hopen, hblock, hstop, -⟩ := paramsAndBlock?_spec hm hparts mods.isAsync
    exact ⟨rfl, by dsimp only; omega, le_refl _, hstop, fun i h h' => by dsimp only at h; omega⟩
  | @value isStatic name nameEnd equals f hname hequals hlt' heq hf =>
    have hge := le_skipTrivia m nameEnd stop
    have hstart := hname.lt
    obtain ⟨h1, h2, h3, h4⟩ := value_takes (m := m) hlt'
    exact ⟨rfl, by dsimp only; omega, h2, h3, h4⟩
  | @bare isStatic name nameEnd next hname hnext =>
    have hge := le_skipTrivia m nameEnd stop
    have hle := skipTrivia_le (m := m) hname.le
    have hgap : ∀ i, nameEnd ≤ i → i < m.skipTrivia nameEnd stop → Separates m i :=
      fun i hi hi' => .inl (has_of_skipWhile m _ _ _ _ hi hi')
    rcases hnext with rfl | ⟨rfl, hstop, hsemi⟩
    · exact ⟨rfl, hname.lt, hge, hle, hgap⟩
    · refine ⟨rfl, hname.lt, by dsimp only; omega, hstop, fun i hi hi' => ?_⟩
      by_cases hlast : i < m.skipTrivia nameEnd stop
      · exact hgap i hi hlast
      · rw [show i = m.skipTrivia nameEnd stop by omega]
        exact .inr hsemi

end Reading

section Tiling

/-- From `pos` to `stop` the regions follow each other, with separators between them. -/
def Tiles (m : CodeMap) (stop : Nat) : Nat → List Region → Prop
  | pos, [] => ∀ i, pos ≤ i → i < stop → Separates m i
  | pos, r :: regions =>
    pos ≤ r.range.start ∧ r.range.start < r.range.stop ∧ r.range.stop ≤ stop ∧
      (∀ i, pos ≤ i → i < r.range.start → Separates m i) ∧ Tiles m stop r.range.stop regions

variable {m : CodeMap} {stop pos : Nat} {regions : List Region}

theorem Tiles.before {next : Nat} (h : Tiles m stop next regions) (hle : pos ≤ next)
    (hsep : ∀ i, pos ≤ i → i < next → Separates m i) : Tiles m stop pos regions := by
  have hgap : ∀ {j : Nat}, (∀ i, next ≤ i → i < j → Separates m i) →
      ∀ i, pos ≤ i → i < j → Separates m i := by
    intro j hj i hi hij
    by_cases hin : i < next
    · exact hsep i hi hin
    · exact hj i (by omega) hij
  cases regions with
  | nil => exact hgap h
  | cons r regions =>
    obtain ⟨h1, h2, h3, h4, h5⟩ := h
    exact ⟨by omega, h2, h3, hgap h4, h5⟩

theorem Tiles.mem (h : Tiles m stop pos regions) {r : Region} (hr : r ∈ regions) :
    pos ≤ r.range.start ∧ r.range.start < r.range.stop ∧ r.range.stop ≤ stop := by
  induction regions generalizing pos with
  | nil => simp at hr
  | cons first regions ih =>
    obtain ⟨h1, h2, h3, -, h5⟩ := h
    rcases List.mem_cons.mp hr with rfl | hr
    · exact ⟨h1, h2, h3⟩
    · have := ih h5 hr
      exact ⟨by omega, this.2⟩

theorem Tiles.ordered (h : Tiles m stop pos regions) :
    regions.Pairwise fun r r' => r.range.stop ≤ r'.range.start := by
  induction regions generalizing pos with
  | nil => exact .nil
  | cons first regions ih =>
    obtain ⟨-, -, -, -, h5⟩ := h
    exact .cons (fun r hr => (h5.mem hr).1) (ih h5)

theorem Tiles.separates (h : Tiles m stop pos regions) {i : Nat} (hi : pos ≤ i) (hstop : i < stop)
    (hout : ∀ r ∈ regions, ¬(r.range.start ≤ i ∧ i < r.range.stop)) : Separates m i := by
  induction regions generalizing pos with
  | nil => exact h i hi hstop
  | cons first regions ih =>
    obtain ⟨-, -, -, h4, h5⟩ := h
    by_cases hbefore : i < first.range.start
    · exact h4 i hi hbefore
    · have := hout first (by simp)
      exact ih h5 (by omega) fun r hr => hout r (by simp [hr])

theorem skipSeparators_separates {i : Nat} (hi : pos ≤ i)
    (hlt : i < skipSeparators m pos stop) : Separates m i := by
  obtain ⟨s, hs, hsep⟩ := has_eq_true.mp (has_of_skipWhile m _ _ _ _ hi hlt)
  rw [Bool.or_eq_true] at hsep
  exact hsep.imp (fun h => has_eq_true.mpr ⟨s, hs, h⟩) fun h => has_eq_true.mpr ⟨s, hs, h⟩

variable {t : Text} (ht : m = CodeMap.ofText t)
include ht

/-- However many members are allowed for, as long as they are enough, the class body is read to its
end. -/
theorem exists_tiling (hend : m.BodyEnd stop) (n : Nat) : ∀ {pos : Nat}, stop - pos = n →
    pos ≤ stop → m.isBoundary pos → ∃ regions, Tiles m stop pos regions ∧
      ∀ count, stop < pos + count → listFrom m stop count pos = .ok (Listing.of regions) := by
  induction n using Nat.strong_induction_on with
  | h n ih =>
    intro pos hn hle hpos
    have hm := shows ht
    have hstop := (hend.limit hm).fence.1
    have hge : pos ≤ skipSeparators m pos stop := le_skipWhile m _ _ _
    by_cases hdone : stop ≤ skipSeparators m pos stop
    · refine ⟨[], fun i hi hi' => skipSeparators_separates hi (lt_of_lt_of_le hi' hdone),
        fun count hcount => ?_⟩
      obtain ⟨count, rfl⟩ : ∃ k, count = k + 1 := ⟨count - 1, by omega⟩
      rw [listFrom]
      rw [if_pos hdone]
      rfl
    have hstart := skipSeparators_boundary hm hpos hle hstop
    have hwhole : m.Whole (skipSeparators m pos stop) stop := ⟨by omega, hstart, hstop⟩
    obtain ⟨d, hread, hreading⟩ := read_reading ht hwhole hend
    have htakes := hreading.takes hm (by omega)
    have hlies := hreading.lies ht hwhole hend
    cases d with
    | member found next =>
      obtain ⟨h1, h2, h3, h4, h5⟩ := htakes
      obtain ⟨regions, htiles, hlist⟩ := ih (stop - next) (by omega) rfl h4 hlies.2
      have htiles' := htiles.before h3 h5
      refine ⟨.member found :: regions, ⟨h1 ▸ hge, h1 ▸ h2, by
        simp only [Region.range]; omega, fun i hi hi' => ?_, htiles'⟩, fun count hcount => ?_⟩
      · exact skipSeparators_separates hi (h1 ▸ hi')
      · obtain ⟨count, rfl⟩ : ∃ k, count = k + 1 := ⟨count - 1, by omega⟩
        rw [listFrom]
        rw [if_neg hdone, bind_of_eq_ok hread]
        dsimp only
        rw [bind_of_eq_ok (hlist count (by omega))]
        rfl
    | lost resume =>
      obtain ⟨text, hslice, -⟩ := slice_yields hm hlies
      obtain ⟨w, hw, rfl⟩ := Warning.about_yields (.undelimitedMember text.trim.firstLine) hlies.le
      obtain ⟨h1, h2⟩ := htakes
      obtain ⟨regions, htiles, hlist⟩ := ih (stop - resume) (by omega) rfl h2 hlies.right
      refine ⟨.lost text.trim.firstLine ⟨skipSeparators m pos stop, resume⟩ :: regions,
        ⟨hge, h1, h2, fun i hi hi' => skipSeparators_separates hi hi', htiles⟩,
        fun count hcount => ?_⟩
      obtain ⟨count, rfl⟩ : ∃ k, count = k + 1 := ⟨count - 1, by omega⟩
      rw [listFrom]
      rw [if_neg hdone, bind_of_eq_ok hread]
      dsimp only
      rw [bind_of_eq_ok hslice, bind_of_eq_ok hw, bind_of_eq_ok (hlist count (by omega))]
      rfl

end Tiling

/-- Reading a class body comes to an end and leaves nothing out: the members and the ranges given up
are not empty, follow each other inside the class body, and everything else there is separators. -/
theorem list_covers_body {t : Text} {start stop : Nat} (hw : (ofText t).Whole start stop)
    (hend : (ofText t).BodyEnd stop) :
    ∃ regions, list (ofText t) start stop = .ok (Listing.of regions) ∧
      (∀ count, stop < start + count →
        listFrom (ofText t) stop count start = list (ofText t) start stop) ∧
      (∀ r ∈ regions, start ≤ r.range.start ∧ r.range.start < r.range.stop ∧
        r.range.stop ≤ stop) ∧
      (regions.Pairwise fun r r' => r.range.stop ≤ r'.range.start) ∧
      (∀ i, start ≤ i → i < stop → (∀ r ∈ regions, ¬(r.range.start ≤ i ∧ i < r.range.stop)) →
        Separates (ofText t) i) ∧
      (stop ≤ Span.limit → ∀ r ∈ regions, r.range.clamp = r.range) := by
  have hsize := isBoundary_le (shows rfl) hw.right
  obtain ⟨regions, htiles, hcount⟩ := exists_tiling rfl hend _ rfl hw.le hw.left
  have hlist : list (ofText t) start stop = .ok (Listing.of regions) := hcount _ (by omega)
  refine ⟨regions, hlist, fun count h => (hcount count h).trans hlist.symm, fun r => htiles.mem,
    htiles.ordered, fun i => htiles.separates, fun hlimit r hr => ?_⟩
  obtain ⟨-, hlt, hstop⟩ := htiles.mem hr
  exact Span.clamp_of_le (le_of_lt hlt) (le_trans hstop hlimit)

/-- A class body with a member whose name is computed, which is given up. -/
def computedSource : Text :=
  "class A extends Component\x7ba=1 // x\n[k]()\x7b\x7d\n;render()\x7breturn 0\x7d\x7d"

theorem list_covers_computed :
    (ofText computedSource).Whole 26 62 ∧ (ofText computedSource).BodyEnd 62 ∧
      ∃ regions, list (ofText computedSource) 26 62 = .ok (Listing.of regions) ∧
        regions.Pairwise fun r r' => r.range.stop ≤ r'.range.start := by
  have hw : (ofText computedSource).Whole 26 62 := ⟨by decide, by decide, by decide⟩
  have hend : (ofText computedSource).BodyEnd 62 := .inr (by decide)
  obtain ⟨regions, hlist, -, -, hordered, -⟩ := list_covers_body hw hend
  exact ⟨hw, hend, regions, hlist, hordered⟩

end Member

end Declass
