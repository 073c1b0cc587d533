import Declass.Proofs.Insets
import Declass.Proofs.Places
import Declass.Proofs.Regions

/-!
# Reading members inside another text

**Input.** A range of a class body, and a second text that has the same bytes `d` bytes further on.

**Results.**
* `Member.functionValue?_mirrors`: a value is the same function in both texts.
* `Member.listFrom_mirrors`: the members up to the end of the class body are the same.
* `Member.list_mirrors`: so are those between matching brackets, and the same ranges are given up,
  each of them `d` bytes further on.
-/

namespace Declass

open CodeMap

/-- The body moved to the right. -/
def Body.shift (d : Nat) : Body → Body
  | block range => block (range.shift d)
  | expression range => expression (range.shift d)

/-- The function moved to the right. -/
def FunctionParts.shift (f : FunctionParts) (d : Nat) : FunctionParts :=
  ⟨f.isAsync, f.params.shift d, f.body.shift d⟩

/-- What the member is, moved to the right. -/
def MemberKind.shift (d : Nat) : MemberKind → MemberKind
  | function parts => function (parts.shift d)
  | field value => field (value.map (·.shift d))
  | accessor => accessor

/-- The member moved to the right. -/
def Member.shift (member : Member) (d : Nat) : Member :=
  ⟨member.name, member.isStatic, member.range.shift d, member.kind.shift d⟩

/-- What was read, moved to the right. -/
def Member.Delimited.shift (d : Nat) : Delimited → Delimited
  | member found next => member (found.shift d) (d + next)
  | lost resume => lost (d + resume)

/-- The warning moved to the right. -/
def Warning.shift (w : Warning) (d : Nat) : Warning := ⟨w.notice, w.range.shift d⟩

/-- The listing moved to the right. -/
def Member.Listing.shift (listing : Listing) (d : Nat) : Listing :=
  ⟨listing.members.map (·.shift d), listing.warnings.map (·.shift d)⟩

/-- Both ends lie behind `o` and not behind `c`. -/
structure Span.Between (o c : Nat) (s : Span) : Prop where
  start : o < s.start ∧ s.start ≤ c
  stop : o < s.stop ∧ s.stop ≤ c

/-- The ranges of the function lie between `o` and `c`. -/
structure FunctionParts.Between (o c : Nat) (f : FunctionParts) : Prop where
  params : f.params.Between o c
  body : f.body.range.Between o c

/-- The ranges of the member lie between `o` and `c`. -/
structure Member.Between (o c : Nat) (member : Member) : Prop where
  range : member.range.Between o c
  parts : ∀ parts, member.kind = .function parts → parts.Between o c
  value : ∀ value, member.kind = .field (some value) → value.Between o c

/-- What was read lies between `o` and `c`, and so does the place where reading goes on. -/
def Member.Delimited.Between (o c : Nat) : Delimited → Prop
  | member found next => found.Between o c ∧ o < next ∧ next ≤ c
  | lost resume => o < resume ∧ resume ≤ c

/-- Ranges are reported further on, exactly so if they do not reach the limit. -/
theorem Span.reported_moves {d a b : Nat} :
    Mirrors (Span.reported a b) (Span.reported (d + a) (d + b)) fun r r' =>
      d + a ≤ Span.limit → d + b ≤ Span.limit → r' = r.shift d := by
  have hclamp : ∀ {x y : Nat}, x ≤ Span.limit → y ≤ Span.limit → Span.clamp ⟨x, y⟩ = ⟨x, y⟩ := by
    intro x y hx hy
    rw [Span.clamp, Nat.min_eq_left hx, Nat.min_eq_left hy]
  intro r hr
  unfold Span.reported at hr ⊢
  dsimp only at hr ⊢
  split at hr
  · rename_i hle
    cases hr
    refine ⟨_, if_pos ?_, fun ha hb => ?_⟩
    · simp only [Span.clamp] at hle ⊢
      omega
    · rw [hclamp ha hb, hclamp (by omega) (by omega)]
      rfl
  · cases hr

theorem Span.reported_mirrors {d a b : Nat} (ha : d + a ≤ Span.limit) (hb : d + b ≤ Span.limit) :
    Mirrors (Span.reported a b) (Span.reported (d + a) (d + b)) fun r r' => r' = r.shift d := by
  intro r hr
  obtain ⟨r', hr', hshift⟩ := Span.reported_moves (d := d) r hr
  exact ⟨r', hr', hshift ha hb⟩

theorem Warning.about_moves {d a b : Nat} (notice : Notice) :
    Mirrors (Warning.about notice a b) (Warning.about notice (d + a) (d + b)) fun w w' =>
      w'.notice = w.notice ∧ (d + a ≤ Span.limit → d + b ≤ Span.limit → w' = w.shift d) := by
  refine Span.reported_moves.bind fun r r' hr => ?_
  refine .ok ⟨rfl, fun ha hb => ?_⟩
  rw [hr ha hb]
  rfl

theorem Warning.about_mirrors {d a b : Nat} (notice : Notice) (ha : d + a ≤ Span.limit)
    (hb : d + b ≤ Span.limit) :
    Mirrors (Warning.about notice a b) (Warning.about notice (d + a) (d + b))
      fun w w' => w' = w.shift d := by
  intro w hw
  obtain ⟨w', hw', -, hshift⟩ := Warning.about_moves (d := d) notice w hw
  exact ⟨w', hw', hshift ha hb⟩

@[simp] theorem Body.range_shift (d : Nat) (b : Body) : (b.shift d).range = b.range.shift d := by
  cases b <;> rfl

@[simp] theorem Member.name_shift (member : Member) (d : Nat) :
    (member.shift d).name = member.name := rfl

@[simp] theorem Member.isStatic_shift (member : Member) (d : Nat) :
    (member.shift d).isStatic = member.isStatic := rfl

@[simp] theorem Member.kind_shift (member : Member) (d : Nat) :
    (member.shift d).kind = member.kind.shift d := rfl

namespace Member

variable {m m' : CodeMap} {d o c i start stop : Nat} (h : Window m m' d o c)
include h

section Functions

omit h in
theorem closing?_eq_matchFrom (hstop : stop ≤ m.size) :
    closing? m i stop = if m.has Slot.opens i then m.matchFrom (stop - i) 0 i else none := by
  rw [closing?, matching]
  split
  · exact Window.matchFrom_filter (by omega)
  · rfl

theorem closing?_eq (ho : o ≤ i) (hc : i ≤ c) (hstop : stop ≤ c) :
    closing? m' (d + i) (d + stop) = (closing? m i stop).map (d + ·) := by
  obtain ⟨hsize, hsize'⟩ := h.ends.le_size
  rw [closing?_eq_matchFrom (by omega), closing?_eq_matchFrom (by omega), h.has_eq (by decide) ho hc,
    Nat.add_sub_add_left, h.matchFrom_eq ho (by omega)]
  split <;> rfl

omit h in
theorem closing?_lt {k : Nat} (hk : closing? m i stop = some k) : i < k ∧ k < stop := by
  obtain ⟨hmatch, hlt⟩ := closing?_spec hk
  exact ⟨(matching_spec hmatch).2.2.1, hlt⟩

theorem paramsAndBlock?_eq (ho : o ≤ i) (hc : i ≤ c) (hstop : stop ≤ c) :
    paramsAndBlock? m' (d + i) (d + stop) =
      (paramsAndBlock? m i stop).map fun parts => (parts.1.shift d, parts.2.shift d) := by
  simp only [paramsAndBlock?, closing?_eq h ho hc hstop]
  cases hclose : closing? m i stop with
  | none => rfl
  | some close =>
    have hlt := closing?_lt hclose
    have hskip : m'.skipTrivia (d + close + 1) (d + stop) = d + m.skipTrivia (close + 1) stop :=
      h.skipTrivia_eq (i := close + 1) (by omega) hstop
    obtain ⟨hge, hle⟩ := Window.skipTrivia_bounds (m := m) (i := close + 1) (by omega) hstop
    simp only [Option.map_some, Option.bind_eq_bind, Option.bind_some, hskip,
      h.isCodeChar_eq '\x7b' (by decide) (show o ≤ m.skipTrivia (close + 1) stop by omega) hle,
      closing?_eq h (show o ≤ m.skipTrivia (close + 1) stop by omega) hle hstop]
    cases hbrace : m.isCodeChar (m.skipTrivia (close + 1) stop) '\x7b' with
    | false => rfl
    | true =>
      cases hblock : closing? m (m.skipTrivia (close + 1) stop) stop with
      | none => rfl
      | some blockClose => rfl

omit h in
theorem paramsAndBlock?_between {params block : Span} (ho : o ≤ i) (hstop : stop ≤ c)
    (hp : paramsAndBlock? m i stop = some (params, block)) :
    params.Between o c ∧ block.Between o c ∧ block.stop < stop := by
  obtain ⟨close, hclose, hp⟩ := Option.bind_eq_some_iff.mp hp
  obtain ⟨-, -, hp⟩ := Option.bind_eq_some_iff.mp hp
  obtain ⟨blockClose, hblock, hp⟩ := Option.bind_eq_some_iff.mp hp
  cases hp
  have hlt := closing?_lt hclose
  have hlt' := closing?_lt hblock
  have hge := le_skipTrivia m (close + 1) stop
  refine ⟨⟨⟨?_, ?_⟩, ?_, ?_⟩, ⟨⟨?_, ?_⟩, ?_, ?_⟩, ?_⟩
  all_goals
    dsimp only
    omega

/-- A function, if there is one, is the same function further on, between the brackets. -/
def Moves (d o c : Nat) (f f' : Option FunctionParts) : Prop :=
  f' = f.map (·.shift d) ∧ ∀ parts, f = some parts → parts.Between o c

omit h in
theorem moves_none : Moves d o c none none := ⟨rfl, nofun⟩

omit h in
theorem moves_some {parts : FunctionParts} (hp : parts.Between o c) :
    Moves d o c (some parts) (some (parts.shift d)) := by
  refine ⟨rfl, fun _ heq => ?_⟩
  cases heq
  exact hp

/-- The star of a generator does not end the range, so what it is put before starts inside. -/
theorem skipStar_eq (ho : o ≤ i) (hc : i ≤ c) (hstop : stop ≤ c) : ∃ pos,
    (if m.isCodeChar i '*' then m.skipTrivia (i + 1) stop else i) = pos ∧
    (if m.isCodeChar i '*' then m'.skipTrivia (d + i + 1) (d + stop) else d + i) = d + pos ∧
      i ≤ pos ∧ pos ≤ c := by
  by_cases hstar : m.isCodeChar i '*' = true
  · have hlt := h.lt_of_codeChar hc hstar (by decide)
    have hbounds := Window.skipTrivia_bounds (m := m) (i := i + 1) hlt hstop
    refine ⟨_, if_pos hstar, ?_, by omega, hbounds.2⟩
    rw [if_pos hstar]
    exact h.skipTrivia_eq (i := i + 1) (by omega) hstop
  · exact ⟨_, if_neg hstar, if_neg hstar, le_refl i, hc⟩

theorem functionWord?_mirrors (isAsync : Bool) {wordEnd : Nat} (ho : o ≤ wordEnd) (hc : wordEnd ≤ c)
    (hstop : stop ≤ c) :
    Mirrors (functionWord? m isAsync wordEnd stop) (functionWord? m' isAsync (d + wordEnd) (d + stop))
      (Moves d o c) := by
  obtain ⟨hge, hle⟩ := Window.skipTrivia_bounds (m := m) hc hstop
  unfold functionWord?
  dsimp only
  rw [h.skipTrivia_eq ho hstop, h.isCodeChar_eq '*' (by decide) (by omega) hle]
  generalize m.skipTrivia wordEnd stop = star at hge hle ⊢
  obtain ⟨nameStart, hname, hname', hnameGe, hnameLe⟩ := skipStar_eq h (by omega) hle hstop
  rw [hname, hname']
  refine (h.identEnd_mirrors (by omega) hnameLe).bind fun e e' he => ?_
  obtain ⟨rfl, he, hec⟩ := he
  obtain ⟨hge', hle'⟩ := Window.skipTrivia_bounds (m := m) hec hstop
  rw [h.skipTrivia_eq (by omega) hstop, h.isCodeChar_eq '(' (by decide) (by omega) hle',
    paramsAndBlock?_eq h (by omega) hle' hstop]
  split
  · exact .ok moves_none
  cases hparts : paramsAndBlock? m (m.skipTrivia e stop) stop with
  | none => exact .ok moves_none
  | some parts =>
    obtain ⟨params, block⟩ := parts
    obtain ⟨hparams, hblock, hlt⟩ :=
      paramsAndBlock?_between (show o ≤ m.skipTrivia e stop by omega) hstop hparts
    have hskip : m'.skipTrivia ((block.shift d).stop + 1) (d + stop) =
        d + m.skipTrivia (block.stop + 1) stop :=
      h.skipTrivia_eq (i := block.stop + 1) (by have := hblock.stop; omega) hstop
    dsimp only [Option.map_some]
    simp only [hskip, Nat.add_lt_add_iff_left]
    split
    · exact .ok moves_none
    · exact .ok (moves_some ⟨hparams, hblock⟩)

theorem arrowBody?_eq (ho : o ≤ start) (hc : start ≤ c) (hstop : stop ≤ c) :
    arrowBody? m' (d + start) (d + stop) = (arrowBody? m start stop).map (·.shift d) := by
  unfold arrowBody?
  dsimp only
  rw [h.isCodeChar_eq '\x7b' (by decide) ho hc, closing?_eq h ho hc hstop, h.trimTrivia_eq ho hstop]
  generalize hblock : (if m.isCodeChar start '\x7b' then closing? m start stop else none) = block
  have hblock' : (if m.isCodeChar start '\x7b' then (closing? m start stop).map (d + ·) else none) =
      block.map (d + ·) := by
    rw [← hblock]
    split <;> rfl
  have hlt : ∀ close, block = some close → start < close ∧ close < stop := by
    intro close hclose
    rw [hclose] at hblock
    split at hblock
    · exact closing?_lt hblock
    · cases hblock
  have hfilter : (block.map (d + ·)).filter
      (fun close => d + stop ≤ m'.skipTrivia (close + 1) (d + stop)) =
        (block.filter fun close => stop ≤ m.skipTrivia (close + 1) stop).map (d + ·) := by
    cases block with
    | none => rfl
    | some close =>
      have hclose := hlt close rfl
      have hskip : m'.skipTrivia (d + close + 1) (d + stop) = d + m.skipTrivia (close + 1) stop :=
        h.skipTrivia_eq (i := close + 1) (by omega) hstop
      simp only [Option.map_some, Option.filter_some, hskip, Nat.add_le_add_iff_left]
      split <;> rfl
  rw [hblock', hfilter]
  cases block.filter fun close => decide (stop ≤ m.skipTrivia (close + 1) stop) with
  | some close => rfl
  | none =>
    simp only [Option.map_none, Nat.add_le_add_iff_left]
    split <;> rfl

omit h in
theorem arrowBody?_between {body : Body} (ho : o < start) (hstop : stop ≤ c)
    (hbody : arrowBody? m start stop = some body) : body.range.Between o c := by
  unfold arrowBody? at hbody
  dsimp only at hbody
  split at hbody
  · rename_i close hclose
    cases hbody
    have hblock := (Option.filter_eq_some_iff.mp hclose).1
    split at hblock
    · have hlt := closing?_lt hblock
      exact ⟨by dsimp only [Body.range]; omega, by dsimp only [Body.range]; omega⟩
    · cases hblock
  · split at hbody
    · cases hbody
    · cases hbody
      have hle := trimTrivia_le m start stop
      exact ⟨by dsimp only [Body.range]; omega, by dsimp only [Body.range]; omega⟩

theorem arrowParams?_eq {wordEnd : Nat} (ho : o ≤ i) (hc : i ≤ c) (hstop : stop ≤ c) :
    arrowParams? m' (d + i) (d + wordEnd) (d + stop) =
      (arrowParams? m i wordEnd stop).map fun found => (found.1.shift d, d + found.2) := by
  unfold arrowParams?
  rw [h.isCodeChar_eq '(' (by decide) ho hc, closing?_eq h ho hc hstop]
  split
  · cases closing? m i stop <;> rfl
  · simp only [Nat.add_lt_add_iff_left]
    split <;> rfl

omit h in
theorem arrowParams?_between {wordEnd next : Nat} {params : Span} (ho : o < i) (hc : wordEnd ≤ c)
    (hstop : stop ≤ c) (hp : arrowParams? m i wordEnd stop = some (params, next)) :
    params.Between o c ∧ o < next ∧ next ≤ c := by
  unfold arrowParams? at hp
  split at hp
  · obtain ⟨close, hclose, hp⟩ := Option.map_eq_some_iff.mp hp
    cases hp
    have hlt := closing?_lt hclose
    exact ⟨⟨by dsimp only; omega, by dsimp only; omega⟩, by omega, by omega⟩
  · split at hp
    · cases hp
      exact ⟨⟨by dsimp only; omega, by dsimp only; omega⟩, by omega, hc⟩
    · cases hp

theorem functionValue?_mirrors {ps : Painted} (hm : m.Shows ps) (ho : o < start)
    (hc : start ≤ c) (hstop : stop ≤ c) :
    Mirrors (functionValue? m start stop) (functionValue? m' (d + start) (d + stop))
      (Moves d o c) := by
  refine (h.identEnd_mirrors (le_of_lt ho) hc).bind fun firstEnd _ hfirst => ?_
  obtain ⟨rfl, hge, hle⟩ := hfirst
  refine (h.slice_mirrors (le_of_lt ho) hle).bind fun first _ htext => ?_
  obtain ⟨rfl, -⟩ := htext
  obtain ⟨hafter, hafterLe⟩ := Window.skipTrivia_bounds (m := m) hle hstop
  simp only [h.skipTrivia_eq (show o ≤ firstEnd by omega) hstop, Nat.add_lt_add_iff_left,
    h.isCodeChar_eq '(' (by decide) (show o ≤ m.skipTrivia firstEnd stop by omega) hafterLe,
    h.isCodeChar_eq '=' (by decide) (show o ≤ m.skipTrivia firstEnd stop by omega) hafterLe]
  generalize (_ && !m.isCodeChar (m.skipTrivia firstEnd stop) '=') = isAsync
  obtain ⟨pos, hpos, hpos', hposGe, hposLe⟩ : ∃ pos,
      (if isAsync = true then m.skipTrivia firstEnd stop else start) = pos ∧
      (if isAsync = true then d + m.skipTrivia firstEnd stop else d + start) = d + pos ∧
        o < pos ∧ pos ≤ c := by
    cases isAsync with
    | true => exact ⟨m.skipTrivia firstEnd stop, rfl, rfl, by omega, hafterLe⟩
    | false => exact ⟨start, rfl, rfl, ho, hc⟩
  rw [hpos, hpos']
  refine (h.identEnd_mirrors (le_of_lt hposGe) hposLe).bind fun wordEnd _ hword => ?_
  obtain ⟨rfl, hwordGe, hwordLe⟩ := hword
  refine (h.slice_mirrors (le_of_lt hposGe) hwordLe).bind fun word _ htext => ?_
  obtain ⟨rfl, -⟩ := htext
  split
  · exact functionWord?_mirrors h isAsync (by omega) hwordLe hstop
  rw [arrowParams?_eq h (le_of_lt hposGe) hposLe hstop]
  cases hparams : arrowParams? m pos wordEnd stop with
  | none => exact .ok moves_none
  | some found =>
    obtain ⟨params, paramsEnd⟩ := found
    obtain ⟨hbetween, hend, hendLe⟩ := arrowParams?_between hposGe hwordLe hstop hparams
    obtain ⟨harrow, harrowLe⟩ := Window.skipTrivia_bounds (m := m) hendLe hstop
    have hspells : m'.spells "=>" (d + m.skipTrivia paramsEnd stop) =
        m.spells "=>" (m.skipTrivia paramsEnd stop) :=
      h.spells_eq hm (by decide) (by omega) harrowLe
    dsimp only [Option.map_some]
    rw [h.skipTrivia_eq (by omega) hstop, h.isCode_eq (by omega) harrowLe, hspells]
    simp only [Nat.add_lt_add_iff_left, Nat.add_assoc d]
    split
    · exact .ok moves_none
    split
    · exact .error _ _
    split
    · exact .ok moves_none
    rename_i hlong
    have hshort : m.skipTrivia paramsEnd stop + 2 ≤ stop := by
      simp only [Bool.or_eq_true, decide_eq_true_eq, not_or] at hlong
      omega
    obtain ⟨hbody, hbodyLe⟩ := Window.skipTrivia_bounds (m := m) (le_trans hshort hstop) hstop
    rw [h.skipTrivia_eq (by omega) hstop, arrowBody?_eq h (by omega) hbodyLe hstop]
    cases hvalue : arrowBody? m (m.skipTrivia (m.skipTrivia paramsEnd stop + 2) stop) stop with
    | none => exact .ok moves_none
    | some body =>
      exact .ok (moves_some ⟨hbetween, arrowBody?_between (by omega) hstop hvalue⟩)

end Functions

theorem isOpenEnded_eq (ho : o + 1 < i) (hc : i ≤ c) :
    isOpenEnded m' (d + i) = isOpenEnded m i := by
  have hone : d + i - 1 = d + (i - 1) := by omega
  have htwo : d + i - 2 = d + (i - 2) := by omega
  have hlong : decide (2 ≤ d + i) = decide (2 ≤ i) := by
    rw [decide_eq_decide]
    omega
  rw [isOpenEnded, isOpenEnded, hone, htwo, hlong, h.isCode_eq (by omega) (by omega),
    h.charAt?_inside (by omega) (by omega), h.charAt?_inside (by omega) (by omega)]

theorem isComplete_eq (ho : o < start) (hi : start ≤ i) (hc : i ≤ c) (hstop : stop ≤ c) :
    isComplete m' (d + start) (d + stop) (d + i) = isComplete m start stop i := by
  obtain ⟨hnext, hnextLe⟩ := Window.skipTrivia_bounds (m := m) hc hstop
  have hlast := trimTrivia_le m start i
  have hlastGe := le_trimTrivia (m := m) hi
  unfold isComplete
  dsimp only
  rw [h.trimTrivia_eq (by omega) hc, h.skipTrivia_eq (by omega) hstop,
    h.isCode_eq (by omega) hnextLe, h.any_charAt?_eq (by decide) (by omega) hnextLe]
  simp only [Nat.add_le_add_iff_left]
  by_cases hempty : m.trimTrivia start i = start
  · simp [hempty]
  · have hempty' : d + m.trimTrivia start i ≠ d + start := by omega
    rw [isOpenEnded_eq h (by omega) (by omega), bne_iff_ne.mpr hempty, bne_iff_ne.mpr hempty']

/-- A pair of positions moved to the right. -/
def shiftPair (d : Nat) (ends : Nat × Nat) : Nat × Nat := (d + ends.1, d + ends.2)

theorem valueEndFrom_eq {count depth : Nat} (ho : o < start) (hi : start ≤ i) (hstop : stop ≤ c)
    (hcount : i + count ≤ stop) : valueEndFrom m' (d + start) (d + stop) count depth (d + i) =
      shiftPair d (valueEndFrom m start stop count depth i) := by
  induction count generalizing depth i with
  | zero => rfl
  | succ count ih =>
    have hnext : ∀ depth', valueEndFrom m' (d + start) (d + stop) count depth' (d + i + 1) =
        shiftPair d (valueEndFrom m start stop count depth' (i + 1)) := fun depth' =>
      ih (i := i + 1) (by omega) (by omega)
    rw [valueEndFrom, valueEndFrom, h.has_inside (by omega) (by omega),
      h.has_inside (by omega) (by omega), h.isCodeChar_inside (by omega) (by omega),
      h.isCodeChar_inside (by omega) (by omega), isComplete_eq h ho hi (by omega) hstop, hnext,
      hnext, hnext]
    split_ifs <;> rfl

theorem valueEnd_eq (ho : o < start) (hstop : stop ≤ c) :
    valueEnd m' (d + start) (d + stop) = shiftPair d (valueEnd m start stop) := by
  rw [valueEnd, valueEnd, Nat.add_sub_add_left]
  by_cases hle : start ≤ stop
  · exact valueEndFrom_eq h ho (le_refl start) hstop (by omega)
  · rw [Nat.sub_eq_zero_of_le (by omega)]
    rfl

theorem recover_eq (ho : o ≤ start) (hstop : stop ≤ c) :
    recover m' (d + start) (d + stop) = d + recover m start stop := by
  have hfirst : m'.firstOuter? (fun i => m'.isCodeChar i '\n' && d + start < i) (d + start) (d + stop) =
      (m.firstOuter? (fun i => m.isCodeChar i '\n' && start < i) start stop).map (d + ·) := by
    refine h.firstOuter?_eq ho hstop fun j hj hjc => ?_
    rw [h.isCodeChar_inside (by omega) hjc]
    simp only [Nat.add_lt_add_iff_left]
  rw [recover, recover, hfirst]
  cases m.firstOuter? (fun i => m.isCodeChar i '\n' && start < i) start stop <;> rfl

section Reading

variable {ps ps' : Painted} (hm : m.Shows ps) (hm' : m'.Shows ps')
  (hend : m.BodyEnd c) (hend' : m'.BodyEnd (d + c))

include hm hm'

omit h hm' in
/-- The text from a position to the end starts with the character there. -/
theorem head?_of_slice_size {t : Text} (ht : m.slice i m.size = .ok t) : t.head? = m.charAt? i := by
  have hwhole := (whole_of_slice hm ht).1
  rcases Nat.eq_or_lt_of_le hwhole.le with rfl | hlt
  · rw [slice, Nat.sub_self] at ht
    split at ht
    · cases ht
      rw [charAt?, size, Array.getElem?_eq_none (le_refl _)]
      rfl
    · cases ht
  · obtain ⟨x, -, hx⟩ := isBoundary_charAt? hwhole.left (Array.getElem?_eq_getElem hlt)
    obtain ⟨pre, k, post, hps, hwidth⟩ := (charAt?_iff hm).mp hx
    have hlies : Slot.LiesAt ps i ((x, k) :: post) := ⟨pre, [], by simpa using hps, hwidth⟩
    obtain ⟨rest, hrest⟩ := slice_size_of_liesAt hm hlies
    rw [ht] at hrest
    cases hrest
    exact hx.symm

/-- The text from a position in the range to the end starts with something that can be named in both
maps or in none. -/
theorem slice_size_mirrors (ho : o ≤ i) (hc : i ≤ c) :
    Mirrors (m.slice i m.size) (m'.slice (d + i) m'.size)
      fun t t' => t'.head?.any startsName = t.head?.any startsName := by
  intro t ht
  have hwhole := (whole_of_slice hm ht).1
  have hsize := h.ends.le_size.2
  obtain ⟨t', ht', -⟩ := slice_yields hm'
    ⟨show d + i ≤ m'.size by omega, (h.isBoundary_eq ho hc).trans hwhole.left, isBoundary_size hm'⟩
  refine ⟨t', ht', ?_⟩
  dsimp only
  rw [head?_of_slice_size hm ht, head?_of_slice_size hm' ht']
  exact h.any_charAt?_eq (by decide) ho hc

/-- Each modifier takes at least one byte, so that no reading of modifiers comes to its limit. -/
theorem modifiersFrom_mirrors {count count' : Nat} {mods : Modifiers} (ho : o < i) (hc : i ≤ c)
    (hcount : c < i + count) (hcount' : c < i + count') :
    Mirrors (modifiersFrom m c count mods i) (modifiersFrom m' (d + c) count' mods (d + i))
      fun r r' => r' = (r.1, d + r.2) ∧ o < r.2 ∧ r.2 ≤ c := by
  induction count generalizing count' mods i with
  | zero => omega
  | succ count ih =>
    obtain ⟨count', rfl⟩ : ∃ n, count' = n + 1 := ⟨count' - 1, by omega⟩
    have hhere : Mirrors (.ok (mods, i) : Except Fault (Modifiers × Nat)) (.ok (mods, d + i))
        fun r r' => r' = (r.1, d + r.2) ∧ o < r.2 ∧ r.2 ≤ c := .ok ⟨rfl, ho, hc⟩
    refine (h.identEnd_mirrors (le_of_lt ho) hc).bind fun wordEnd _ hword => ?_
    obtain ⟨rfl, hge, hle⟩ := hword
    refine (h.slice_mirrors (le_of_lt ho) hle).bind fun _ word htext => ?_
    obtain ⟨rfl, -⟩ := htext
    obtain ⟨hafter, hafterLe⟩ := Window.skipTrivia_bounds (m := m) hle (le_refl c)
    rw [h.skipTrivia_eq (by omega) (le_refl c)]
    cases mods.add? word with
    | none => exact hhere
    | some more =>
      simp only [Nat.add_lt_add_iff_left]
      split
      · refine (slice_size_mirrors h hm hm' (by omega) hafterLe).bind fun t t' ht => ?_
        rw [ht]
        split
        · exact ih (by omega) hafterLe (by omega) (by omega)
        · exact hhere
      · exact hhere

omit hm' in
theorem fieldWithValue_mirrors (name : Text) (isStatic : Bool) {equals : Nat} (ho : o < start)
    (hc : start ≤ c) (hequals : o ≤ equals) (hlt : equals < c) :
    Mirrors (fieldWithValue m name isStatic start equals c)
      (fieldWithValue m' name isStatic (d + start) (d + equals) (d + c))
      fun r r' => r' = r.shift d ∧ r.Between o c := by
  obtain ⟨h1, h2, h3, -⟩ := value_takes (m := m) hlt
  have hge : equals + 1 ≤ valueStart m equals c := le_skipTrivia m (equals + 1) c
  have hle : valueStart m equals c ≤ c := skipTrivia_le hlt
  have hstart : m'.skipTrivia (d + equals + 1) (d + c) = d + valueStart m equals c :=
    h.skipTrivia_eq (i := equals + 1) (by omega) (le_refl c)
  have hend : valueEnd m' (d + valueStart m equals c) (d + c) =
      shiftPair d (valueEnd m (valueStart m equals c) c) := valueEnd_eq h (by omega) (le_refl c)
  have hrawLe : (valueEnd m (valueStart m equals c) c).1 ≤ c := by
    have := valueEndFrom_next (show valueStart m equals c + (c - valueStart m equals c) = c by omega)
      (Prod.mk.eta (p := valueEnd m (valueStart m equals c) c)).symm
    omega
  have hstop : m'.trimTrivia (d + valueStart m equals c)
      (d + (valueEnd m (valueStart m equals c) c).1) = d + valueStop m equals c :=
    h.trimTrivia_eq (by omega) hrawLe
  have hnext : max (max (d + (valueEnd m (valueStart m equals c) c).2) (d + valueStop m equals c))
      (d + equals + 1) = d + valueNext m equals c := by
    rw [valueNext]
    omega
  unfold fieldWithValue
  dsimp only
  rw [hstart, hend]
  dsimp only [shiftPair]
  rw [hstop, hnext]
  change Mirrors (functionValue? m (valueStart m equals c) (valueStop m equals c) >>= _) _ _
  refine (functionValue?_mirrors h hm (by omega) hle (by omega)).bind fun f _ hf => ?_
  obtain ⟨rfl, hbetween⟩ := hf
  have hrange : Span.Between o c ⟨start, valueStop m equals c⟩ :=
    ⟨⟨ho, hc⟩, by dsimp only; omega, by dsimp only; omega⟩
  have hvalue : Span.Between o c ⟨valueStart m equals c, valueStop m equals c⟩ :=
    ⟨by dsimp only; omega, by dsimp only; omega⟩
  cases f with
  | none =>
    refine .ok ⟨rfl, ⟨hrange, fun parts hp => ?_, fun value hv => ?_⟩, by omega, h3⟩
    · cases hp
    · cases hv
      exact hvalue
  | some parts =>
    refine .ok ⟨rfl, ⟨hrange, fun parts' hp => ?_, fun value hv => ?_⟩, by omega, h3⟩
    · cases hp
      exact hbetween parts rfl
    · cases hv

omit hm hm'

theorem lost_mirrors (ho : o < start) (hc : start ≤ c) :
    Mirrors (pure (.lost (recover m start c)) : Except Fault Delimited)
      (pure (.lost (recover m' (d + start) (d + c))))
      fun r r' => r' = r.shift d ∧ r.Between o c := by
  rw [recover_eq h (le_of_lt ho) (le_refl c)]
  refine .ok ⟨rfl, ?_⟩
  unfold recover
  split
  · rename_i j hj
    obtain ⟨h1, h2, -⟩ := firstOuter?_spec hj
    exact ⟨by omega, h2⟩
  · exact ⟨by omega, le_refl c⟩

omit h in
theorem method_between {params block : Span} (hi : o ≤ i) (ho : o < start) (hc : start ≤ c)
    (hparts : paramsAndBlock? m i c = some (params, block)) (name : Text) (mods : Modifiers) :
    Delimited.Between o c (.member ⟨name, mods.isStatic, ⟨start, block.stop + 1⟩,
      if mods.isAccessor then .accessor else .function ⟨mods.isAsync, params, .block block⟩⟩
      (block.stop + 1)) := by
  obtain ⟨hparams, hblock, hlt⟩ := paramsAndBlock?_between hi (le_refl c) hparts
  have hstop : o < block.stop + 1 := Nat.lt_succ_of_lt hblock.stop.1
  refine ⟨⟨⟨⟨ho, hc⟩, hstop, hlt⟩, fun parts hp => ?_, fun value hv => ?_⟩, hstop, hlt⟩
  · dsimp only at hp
    split at hp <;> cases hp
    exact ⟨hparams, hblock⟩
  · dsimp only at hv
    split at hv <;> cases hv

/-- A sign of equality is no second one in both maps or in none. -/
theorem assigns_eq (ho : o ≤ i) (hc : i ≤ c) :
    (m.isCodeChar i '=' && !m'.isCodeChar (d + i + 1) '=') =
      (m.isCodeChar i '=' && !m.isCodeChar (i + 1) '=') := by
  cases heq : m.isCodeChar i '=' with
  | false => rfl
  | true =>
    have hlt := h.lt_of_codeChar hc heq (by decide)
    exact congrArg (!·) (h.isCodeChar_eq (i := i + 1) '=' (by decide) (by omega) hlt)

include hend hend'

theorem isCodeChar_semicolon_eq (ho : o ≤ i) (hc : i ≤ c) :
    m'.isCodeChar (d + i) ';' = m.isCodeChar i ';' := by
  rcases Nat.eq_or_lt_of_le hc with rfl | hlt
  · rw [hend.isCodeChar_eq_false rfl, hend'.isCodeChar_eq_false rfl]
  · exact h.isCodeChar_inside ho hlt ';'

include hm hm'

theorem read_mirrors (ho : o < start) (hc : start ≤ c) :
    Mirrors (read m start c) (read m' (d + start) (d + c))
      fun r r' => r' = r.shift d ∧ r.Between o c := by
  have hlost := lost_mirrors h ho hc
  obtain ⟨hsize, hsize'⟩ := h.ends.le_size
  unfold read
  dsimp only
  refine (modifiersFrom_mirrors h hm hm' ho hc (by omega) (by omega)).bind fun found _ hfound => ?_
  obtain ⟨rfl, hmods, hmodsLe⟩ := hfound
  obtain ⟨mods, modsEnd⟩ := found
  rw [h.isCodeChar_eq '*' (by decide) (le_of_lt hmods) hmodsLe]
  obtain ⟨pos, hpos, hpos', hposGe, hposLe⟩ :=
    skipStar_eq h (le_of_lt hmods) hmodsLe (le_refl c)
  rw [hpos, hpos', h.isCodeChar_eq '#' (by decide) (by omega) hposLe]
  obtain ⟨nameStart, hname, hname', hnameGe, hnameLe⟩ : ∃ nameStart,
      (if m.isCodeChar pos '#' then pos + 1 else pos) = nameStart ∧
      (if m.isCodeChar pos '#' then d + pos + 1 else d + pos) = d + nameStart ∧
        o < nameStart ∧ nameStart ≤ c := by
    by_cases hhash : m.isCodeChar pos '#' = true
    · have hlt := h.lt_of_codeChar hposLe hhash (by decide)
      exact ⟨pos + 1, if_pos hhash, if_pos hhash, by omega, hlt⟩
    · exact ⟨pos, if_neg hhash, if_neg hhash, by omega, hposLe⟩
  rw [hname, hname']
  refine (h.identEnd_mirrors (le_of_lt hnameGe) hnameLe).bind fun nameEnd _ hend => ?_
  obtain ⟨rfl, hendGe, hendLe⟩ := hend
  have hempty : (d + nameEnd == d + nameStart) = (nameEnd == nameStart) := by
    simp
  rw [hempty]
  split
  · exact hlost
  refine (h.slice_mirrors (le_of_lt hnameGe) hendLe).bind fun _ name htext => ?_
  obtain ⟨rfl, -⟩ := htext
  obtain ⟨hafter, hafterLe⟩ := Window.skipTrivia_bounds (m := m) hendLe (le_refl c)
  rw [h.skipTrivia_eq (by omega) (le_refl c)]
  generalize m.skipTrivia nameEnd c = afterName at hafter hafterLe ⊢
  rw [h.isCodeChar_eq '(' (by decide) (by omega) hafterLe,
    h.isCodeChar_eq '=' (by decide) (by omega) hafterLe,
    isCodeChar_semicolon_eq h hend hend' (by omega) hafterLe]
  split
  · rw [paramsAndBlock?_eq h (by omega) hafterLe (le_refl c)]
    cases hparts : paramsAndBlock? m afterName c with
    | none => exact hlost
    | some parts =>
      refine .ok ⟨?_, method_between (show o ≤ afterName by omega) ho hc hparts name mods⟩
      cases mods.isAccessor <;> rfl
  rw [assigns_eq h (by omega) hafterLe]
  split
  · rename_i heq
    rw [Bool.and_eq_true] at heq
    exact fieldWithValue_mirrors h hm name mods.isStatic ho hc (by omega)
      (h.lt_of_codeChar hafterLe heq.1 (by decide))
  have hbare : Member.Between o c ⟨name, mods.isStatic, ⟨start, nameEnd⟩, .field none⟩ :=
    ⟨⟨⟨ho, hc⟩, by dsimp only; omega, hendLe⟩, nofun, nofun⟩
  split
  · rename_i hsemi
    have hlt := hend.lt hafterLe hsemi rfl
    exact .ok ⟨rfl, hbare, by omega, hlt⟩
  simp only [Nat.add_le_add_iff_left]
  split
  · exact .ok ⟨rfl, hbare, by omega, hafterLe⟩
  refine (h.slice_mirrors (by omega) hafterLe).bind fun _ gap htext => ?_
  obtain ⟨rfl, -⟩ := htext
  split
  · exact .ok ⟨rfl, hbare, by omega, hafterLe⟩
  · exact hlost

/-- The listing is the same further on.  What is reported of positions is the same only if no
position reaches the limit. -/
structure Listing.Moves (d c : Nat) (l l' : Listing) : Prop where
  members : l'.members = l.members.map (·.shift d)
  notices : l'.warnings.map Warning.notice = l.warnings.map Warning.notice
  warnings : d + c ≤ Span.limit → l'.warnings = l.warnings.map (·.shift d)

theorem listFrom_mirrors {count : Nat} (ho : o < i) (hc : i ≤ c) :
    Mirrors (listFrom m c count i) (listFrom m' (d + c) count (d + i)) fun l l' =>
      l.Moves d c l' ∧ ∀ member ∈ l.members, member.Between o c := by
  induction count generalizing i with
  | zero => exact .ok ⟨⟨rfl, rfl, fun _ => rfl⟩, by simp⟩
  | succ count ih =>
    have hstart : skipSeparators m' (d + i) (d + c) = d + skipSeparators m i c := by
      rw [skipSeparators, Nat.add_sub_add_left]
      exact h.skipWhile_eq (le_of_lt ho) (by omega)
    have hge : i ≤ skipSeparators m i c := le_skipWhile m _ _ _
    rw [listFrom, listFrom]
    rw [hstart]
    simp only [Nat.add_le_add_iff_left]
    split
    · exact .ok ⟨⟨rfl, rfl, fun _ => rfl⟩, by simp⟩
    refine (read_mirrors h hm hm' hend hend' (by omega) (by omega)).bind fun r _ hr => ?_
    obtain ⟨rfl, hbetween⟩ := hr
    cases r with
    | member found next =>
      obtain ⟨hfound, hnext, hnextLe⟩ := hbetween
      refine (ih hnext hnextLe).bind fun rest rest' hrest => ?_
      obtain ⟨hmoves, hmembers⟩ := hrest
      refine .ok ⟨⟨?_, hmoves.notices, hmoves.warnings⟩,
        List.forall_mem_cons.mpr ⟨hfound, hmembers⟩⟩
      rw [List.map_cons, hmoves.members]
    | lost resume =>
      obtain ⟨hresume, hresumeLe⟩ := hbetween
      refine (h.slice_mirrors (by omega) hresumeLe).bind fun _ line htext => ?_
      obtain ⟨rfl, hle⟩ := htext
      refine (Warning.about_moves _).bind fun w w' hw => ?_
      obtain ⟨hnotice, hshift⟩ := hw
      refine (ih hresume hresumeLe).bind fun rest rest' hrest => ?_
      obtain ⟨hmoves, hmembers⟩ := hrest
      refine .ok ⟨⟨hmoves.members, ?_, fun hlimit => ?_⟩, hmembers⟩
      · rw [List.map_cons, List.map_cons, hnotice, hmoves.notices]
      · rw [List.map_cons, hshift (by omega) (by omega), hmoves.warnings hlimit]

end Reading

omit h in
/-- The same members are read in both texts. -/
theorem list_mirrors {t t' : Text} (h : Inset (ofText t) (ofText t') d o c)
    (hlimit : d + c ≤ Span.limit) :
    Mirrors (list (ofText t) (o + 1) c) (list (ofText t') (d + (o + 1)) (d + c)) fun l l' =>
      l' = l.shift d ∧ ∀ member ∈ l.members, member.Between o c := by
  have hm := Scan.ofText_shows t
  have hm' := Scan.ofText_shows t'
  have hlt := h.lt
  have hsize := h.lt_size
  have hsize' := lt_size_of_has h.closes
  have hopens : (ofText t').has Slot.opens (d + o) :=
    (h.has_eq (le_refl o) (le_of_lt hlt) _).trans h.opens
  -- The number of members that are allowed for makes no difference, as long as it is enough.
  obtain ⟨regions, -, hlist⟩ := exists_tiling rfl (.inr h.closes) _ rfl hlt
    (opens_boundary hm h.opens).2
  obtain ⟨regions', -, hlist'⟩ := exists_tiling rfl (.inr h.closes') _ rfl
    (show d + (o + 1) ≤ d + c by omega) (opens_boundary hm' hopens).2
  have hmirrors : Mirrors (listFrom (ofText t) c (c + 1) (o + 1))
      (listFrom (ofText t') (d + c) (c + 1) (d + (o + 1))) _ :=
    listFrom_mirrors h.window hm hm' (.inr h.closes) (.inr h.closes') (Nat.lt_succ_self o) hlt
  rw [hlist _ (by omega), hlist' _ (by omega)] at hmirrors
  rw [list, list, hlist _ (by omega), hlist' _ (by omega)]
  intro l hl
  obtain ⟨l', hl', hmoves, hbetween⟩ := hmirrors l hl
  refine ⟨l', hl', ?_, hbetween⟩
  rw [Listing.shift, ← hmoves.members, ← hmoves.warnings hlimit]

end Member

end Declass
