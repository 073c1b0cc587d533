import Declass.Proofs.Extraction
import Declass.Proofs.InsetMembers
import Declass.Proofs.Matches

/-!
# Extraction inside another text

**Input.** A class body between matching brackets, and a second text that has the same bytes `d`
bytes further on.  Nothing of either text reaches the limit of reported positions.

**Results.** `Component.findings_mirrors` and `Component.splitRender_mirrors`: what the members
amount to, and how the render method is cut, is the same in both texts, with every range `d` bytes
further on.
-/

namespace Declass

open CodeMap

/-- The snippet moved to the right. -/
def Snippet.shift (s : Snippet) (d : Nat) : Snippet := ⟨s.text, s.range.shift d⟩

/-- The method moved to the right. -/
def Method.shift (method : Method) (d : Nat) : Method :=
  { method with body := method.body.shift d }

namespace Component

/-- A state literal moved to the right. -/
def shiftLiteral (d : Nat) (literal : Nat × Snippet) : Nat × Snippet :=
  (d + literal.1, literal.2.shift d)

/-- The findings moved to the right. -/
def Findings.shift (f : Findings) (d : Nat) : Findings where
  literals := f.literals.map (shiftLiteral d)
  mount := f.mount.map (·.shift d)
  unmount := f.unmount.map (·.shift d)
  methods := f.methods.map (·.shift d)
  render := f.render.map (·.shift d)
  warnings := f.warnings.map (·.shift d)

/-- The component moved to the right. -/
def shift (component : Component) (d : Nat) : Component where
  name := component.name
  state := component.state.map (·.shift d)
  mount := component.mount.map (·.shift d)
  unmount := component.unmount.map (·.shift d)
  methods := component.methods.map (·.shift d)
  prelude := component.prelude.shift d
  template := component.template.shift d
  warnings := component.warnings.map (·.shift d)

theorem earliest_shift (d : Nat) (literals : List (Nat × Snippet)) :
    earliest (literals.map (shiftLiteral d)) = (earliest literals).map (shiftLiteral d) := by
  induction literals with
  | nil => rfl
  | cons l literals ih =>
    rw [List.map_cons, earliest, earliest, ih]
    cases earliest literals with
    | none => rfl
    | some best =>
      simp only [Option.map_some, shiftLiteral, Nat.add_le_add_iff_left]
      split <;> rfl

theorem of_shift (d : Nat) (name : Text) (found : Findings) (render : Snippet × Snippet) :
    of name (found.shift d) (render.1.shift d, render.2.shift d) = (of name found render).shift d := by
  simp only [of, shift, Findings.shift, earliest_shift, Option.map_map]
  rfl

end Component

namespace Matcher

theorem lt_of_mem_seq {ms : List Matcher} {p : Char → Bool} {c e : Cursor}
    (hms : ∀ m ∈ ms, Forward m) (he : e ∈ seq (ms ++ [one p]) c) : c.offset < e.offset := by
  rw [seq_concat] at he
  obtain ⟨s, hs, he⟩ := List.mem_flatMap.mp he
  obtain ⟨mid, -, hoffset⟩ := seq_forward hms c s hs
  unfold one at he
  split at he
  · simp at he
  · split at he
    · rename_i x rest hrest hx
      obtain rfl := List.mem_singleton.mp he
      have := x.utf8Size_pos
      dsimp only
      omega
    · simp at he

end Matcher

/-- A pattern whose first part consumes something has no empty matches. -/
theorem Pattern.lt_of_mem_matchesFrom {p : Pattern} (hf : p.Forward)
    (hp : ∀ c, ∀ e ∈ p.before c, c.offset < e.offset) {found : Match} {rest : Text} {resume : Nat}
    {before : Option Char} {offset : Nat}
    (h : found ∈ p.matchesFrom resume before offset rest) : found.start < found.stop := by
  induction rest generalizing resume before offset with
  | nil => simp [matchesFrom] at h
  | cons x rest ih =>
    rw [matchesFrom] at h
    split at h
    · rename_i first hfirst
      rcases List.mem_cons.mp h with rfl | h
      · split at hfirst
        · cases hfirst
        · obtain ⟨a, ha, hmem⟩ := List.mem_flatMap.mp (List.mem_of_head? hfirst)
          obtain ⟨b, hb, hmem⟩ := List.mem_flatMap.mp hmem
          obtain ⟨e, he, rfl⟩ := List.mem_map.mp hmem
          obtain ⟨mid, -, hoffset⟩ := (hf.group a b hb).trans (hf.after b e he)
          have hlt := hp _ a ha
          dsimp only at hlt ⊢
          omega
      · exact ih h
    · exact ih h

namespace Component

theorem stateAssignment_forward (receivers : List Text) : (stateAssignment receivers).Forward where
  before := by
    apply Matcher.seq_forward
    simp
  group := Matcher.skip_forward
  after := Matcher.skip_forward

theorem stateAssignment_before (receivers : List Text) (c e : Cursor)
    (he : e ∈ (stateAssignment receivers).before c) : c.offset < e.offset := by
  have hinit : (stateAssignment receivers).before = Matcher.seq ([.edge, .anyWord receivers, .spaces,
      .one (· == '.'), .spaces, .word "state", .spaces, .one (· == '='), .spaces] ++
        [.one (· == '\x7b')]) := by
    dsimp only [stateAssignment, List.cons_append, List.nil_append]
  rw [hinit] at he
  refine Matcher.lt_of_mem_seq ?_ he
  simp

theorem stateAssignment_lt {receivers : List Text} {t : Text} {found : Match}
    (h : found ∈ stateAssignments receivers t) : found.start < found.stop ∧ found.stop ≤ t.size := by
  unfold stateAssignments at h
  split at h
  · simp at h
  have hf := stateAssignment_forward receivers
  refine ⟨Pattern.lt_of_mem_matchesFrom hf (stateAssignment_before receivers) h, ?_⟩
  obtain ⟨mid, ⟨pre, post, ht, hpre⟩, hstop⟩ := Pattern.mem_occurrences hf h
  rw [ht, Text.size_append, Text.size_append]
  omega

end Component

section Pieces

variable {m m' : CodeMap} {d o c start stop : Nat} (h : Inset m m' d o c)
  (hlimit : d + c ≤ Span.limit)
include h hlimit

theorem Snippet.cut_mirrors (ho : o ≤ start) (hc : stop ≤ c) :
    Mirrors (Snippet.cut m start stop) (Snippet.cut m' (d + start) (d + stop))
      fun s s' => s' = s.shift d := by
  refine (h.window.slice_mirrors ho hc).bind fun _ text htext => ?_
  obtain ⟨rfl, hle⟩ := htext
  refine (Span.reported_mirrors (by omega) (by omega)).bind fun range _ hrange => ?_
  subst hrange
  exact .ok rfl

namespace Component

theorem assignedState_mirrors {ps : Painted} (hm : m.Shows ps) (receivers : List Text) :
    Mirrors (assignedState m receivers (o + 1) c) (assignedState m' receivers (d + (o + 1)) (d + c))
      fun l l' => l' = l.map (shiftLiteral d) := by
  intro l hl
  obtain ⟨_, hbody, hl⟩ := bind_eq_ok hl
  obtain ⟨body, hbody', rfl, -⟩ := h.window.slice_mirrors (Nat.le_succ o) (le_refl c) _ hbody
  have hsize := (whole_of_slice hm hbody).2
  have hfind : (stateAssignments receivers body).find?
      (fun found => m'.isCode (d + (o + 1) + found.start)) =
        (stateAssignments receivers body).find? fun found => m.isCode (o + 1 + found.start) := by
    refine List.find?_congr fun found hfound => ?_
    have hlt := stateAssignment_lt hfound
    rw [Nat.add_assoc]
    exact h.isCode_eq (by omega) (by omega)
  unfold assignedState
  rw [bind_of_eq_ok hbody', hfind]
  cases hfound : (stateAssignments receivers body).find? _ with
  | none =>
    rw [hfound] at hl
    cases hl
    exact ⟨_, rfl, rfl⟩
  | some found =>
    rw [hfound] at hl
    have hlt := stateAssignment_lt (List.mem_of_find?_eq_some hfound)
    have hbrace : d + (o + 1) + found.stop - 1 = d + (o + 1 + found.stop - 1) := by omega
    have hin : o < o + 1 + found.stop - 1 ∧ o + 1 + found.stop - 1 ≤ c := by omega
    dsimp only at hl ⊢
    rw [hbrace, h.matching_eq (le_of_lt hin.1) hin.2]
    cases hmatch : m.matching (o + 1 + found.stop - 1) with
    | none =>
      rw [hmatch] at hl
      cases hl
      exact ⟨_, rfl, rfl⟩
    | some close =>
      rw [hmatch] at hl
      obtain ⟨s, hs, hl⟩ := bind_eq_ok hl
      cases hl
      have hclose := h.matching_lt hin.1 hin.2 hmatch
      obtain ⟨_, hs', rfl⟩ := Snippet.cut_mirrors h hlimit (le_of_lt hin.1) hclose _ hs
      refine ⟨_, bind_of_eq_ok hs', ?_⟩
      simp [shiftLiteral, Nat.add_assoc]

section Constructor

variable {ps ps' : Painted} (hm : m.Shows ps) (hm' : m'.Shows ps')
include hm hm'

omit h hlimit hm hm' in
theorem splitTop_between {part : Span} {x : Char} (hrange : Span.Between o c ⟨start, stop⟩)
    (hpart : part ∈ m.splitTop start stop x) : part.Between o c := by
  obtain ⟨⟨hstart, hstartLe⟩, hstop, hstopLe⟩ := hrange
  dsimp only at hstart hstartLe hstop hstopLe
  by_cases hle : start ≤ stop
  · have hcuts : ∀ j ∈ m.outer (m.isCodeChar · x) start stop, start ≤ j ∧ j < stop := by
      intro j hj
      have := mem_outerFrom hj
      omega
    obtain ⟨h1, h2, h3, -, -⟩ := mem_cut outerFrom_pairwise hcuts hle hpart
    exact ⟨by omega, by omega⟩
  · rw [splitTop, outer, Nat.sub_eq_zero_of_le (by omega)] at hpart
    obtain rfl := List.mem_singleton.mp hpart
    exact ⟨⟨hstart, hstartLe⟩, hstop, hstopLe⟩

theorem droppedStatement_mirrors (receivers : List Text) {part : Span} (hpart : part.Between o c) :
    Mirrors (droppedStatement m receivers part) (droppedStatement m' receivers (part.shift d))
      fun ws ws' => ws' = ws.map (·.shift d) := by
  obtain ⟨⟨hstart, hstartLe⟩, hstop, hstopLe⟩ := hpart
  obtain ⟨hge, hle⟩ := Window.skipTrivia_bounds (m := m) hstartLe hstopLe
  unfold droppedStatement
  dsimp only [Span.shift]
  rw [h.window.skipTrivia_eq (le_of_lt hstart) hstopLe]
  generalize m.skipTrivia part.start part.stop = start at hge hle ⊢
  simp only [Nat.add_le_add_iff_left]
  split
  · exact .ok rfl
  have htrim := trimTrivia_le m start part.stop
  rw [h.window.trimTrivia_eq (by omega) hstopLe]
  refine (h.window.slice_mirrors (by omega) (by omega)).bind fun _ statement htext => ?_
  obtain ⟨rfl, hle'⟩ := htext
  have hcounterpart : Mirrors (hasCounterpart m receivers start statement)
      (hasCounterpart m' receivers (d + start) statement) fun b b' => b' = b := by
    have hword : ∀ x ∈ ("super" : Text), x ∉ endings := by decide
    refine (h.wordAt_mirrors hm hm' (by decide) hword (by omega) hle).bind fun _ b hb => ?_
    subst hb
    exact .ok rfl
  refine hcounterpart.bind fun _ b hb => ?_
  subst hb
  split
  · exact .ok rfl
  · refine (Warning.about_mirrors _ (by omega) (by omega)).bind fun w _ hw => ?_
    subst hw
    exact .ok rfl

theorem droppedStatements_mirrors (receivers : List Text) {parts : FunctionParts}
    (hparts : parts.body.range.Between o c) :
    Mirrors (droppedStatements m receivers parts) (droppedStatements m' receivers (parts.shift d))
      fun ws ws' => ws' = ws.map (·.shift d) := by
  obtain ⟨isAsync, params, body⟩ := parts
  cases body with
  | expression range => exact .ok rfl
  | block range =>
    have hsplit := h.window.splitTop_eq (le_of_lt hparts.start.1) hparts.stop.2 ';'
    have hall : Mirrors ((m.splitTop range.start range.stop ';').mapM (droppedStatement m receivers))
        ((m'.splitTop (d + range.start) (d + range.stop) ';').mapM (droppedStatement m' receivers))
        fun ws ws' => ws' = ws.map (List.map (·.shift d)) := by
      dsimp only [Body.range] at hsplit
      rw [hsplit]
      exact .mapM fun part hpart =>
        droppedStatement_mirrors h hlimit hm hm' receivers (splitTop_between hparts hpart)
    refine hall.bind fun ws _ hws => ?_
    subst hws
    exact .ok List.map_flatten.symm

end Constructor

/-- Snippets that are moved to the right. -/
def shiftPieces (d : Nat) (pieces : Snippet × Snippet) : Snippet × Snippet :=
  (pieces.1.shift d, pieces.2.shift d)

theorem unwrapParens_mirrors (ho : o < start) (hc : start ≤ c) (hstop : stop ≤ c) :
    Mirrors (unwrapParens m start stop) (unwrapParens m' (d + start) (d + stop))
      fun s s' => s' = s.shift d := by
  have hparens : (m'.isCodeChar (d + start) '(' && m'.matching (d + start) == some (d + stop - 1)) =
      (m.isCodeChar start '(' && m.matching start == some (stop - 1)) := by
    rw [h.isCodeChar_eq (le_of_lt ho) hc, h.matching_eq (le_of_lt ho) hc]
    cases hmatch : m.matching start with
    | none => rfl
    | some k =>
      have hlt := (matching_spec hmatch).2.2.1
      have hbeq : (d + k == d + stop - 1) = (k == stop - 1) := by
        rw [Bool.eq_iff_iff, beq_iff_eq, beq_iff_eq]
        omega
      simp only [Option.map_some, Option.some_beq_some, hbeq]
  unfold unwrapParens
  rw [hparens]
  split
  · rename_i hwrapped
    simp only [Bool.and_eq_true, beq_iff_eq] at hwrapped
    have hlt := (matching_spec hwrapped.2).2.2.1
    have hsub : d + stop - 1 = d + (stop - 1) := by omega
    have hinside : Mirrors (Snippet.cut m (start + 1) (stop - 1))
        (Snippet.cut m' (d + (start + 1)) (d + (stop - 1))) fun s s' => s' = s.shift d :=
      Snippet.cut_mirrors h hlimit (by omega) (by omega)
    rw [hsub]
    exact hinside
  · exact Snippet.cut_mirrors h hlimit (le_of_lt ho) hstop

theorem splitRender_mirrors {ps ps' : Painted} (hm : m.Shows ps) (hm' : m'.Shows ps')
    {body : Body} (hbody : body.range.Between o c) :
    Mirrors (splitRender m body) (splitRender m' (body.shift d))
      fun pieces pieces' => pieces' = shiftPieces d pieces := by
  cases body with
  | expression range =>
    obtain ⟨⟨hstart, hstartLe⟩, hstop, hstopLe⟩ := hbody
    refine (Mirrors.check (Snippet.cut_mirrors h hlimit (le_of_lt hstart) hstartLe)).bind
      fun prelude _ hprelude => ?_
    refine (Mirrors.check (unwrapParens_mirrors h hlimit hstart hstartLe hstopLe)).bind
      fun template _ htemplate => ?_
    subst hprelude htemplate
    exact .ok rfl
  | block range =>
    obtain ⟨⟨hstart, hstartLe⟩, hstop, hstopLe⟩ := hbody
    dsimp only [Body.range] at hstart hstartLe hstop hstopLe
    dsimp only [Body.shift, Span.shift]
    have hword : ∀ x ∈ ("return" : Text), x ∉ endings := by decide
    refine (Mirrors.check (h.keywords_mirrors hm hm' (by decide) hword hstart hstopLe)).bind
      fun returns _ hreturns => ?_
    obtain ⟨rfl, hin⟩ := hreturns
    rw [List.getLast?_map]
    cases hlast : returns.getLast? with
    | none => exact .error _ _
    | some ret =>
      obtain ⟨hret, hretLe⟩ := hin ret (List.mem_of_getLast? hlast)
      obtain ⟨hge, hle⟩ := Window.skipTrivia_bounds (m := m) hretLe hstopLe
      dsimp only [Option.map_some]
      rw [Nat.add_assoc d ret, h.window.skipTrivia_eq (by omega) hstopLe]
      generalize m.skipTrivia (ret + Text.size "return") range.stop = start at hge hle ⊢
      rw [h.isCodeChar_eq (by omega) hle, h.window.findTop_eq (by omega) hstopLe]
      split
      · exact .error _ _
      have hlim : ((m.findTop start range.stop ';').map (d + ·)).getD (d + range.stop) =
          d + (m.findTop start range.stop ';').getD range.stop := by
        cases m.findTop start range.stop ';' <;> rfl
      have hlimLe : (m.findTop start range.stop ';').getD range.stop ≤ c := by
        cases hsemi : m.findTop start range.stop ';' with
        | none => exact hstopLe
        | some semi =>
          have := (findTop_spec hsemi).2.1
          rw [Option.getD_some]
          omega
      rw [hlim]
      generalize (m.findTop start range.stop ';').getD range.stop = lim at hlimLe ⊢
      have htrim := trimTrivia_le m start lim
      rw [h.window.trimTrivia_eq (by omega) hlimLe]
      simp only [Nat.add_le_add_iff_left]
      split
      · exact .error _ _
      refine (Mirrors.check (Snippet.cut_mirrors h hlimit (le_of_lt hstart) (by omega))).bind
        fun prelude _ hprelude => ?_
      refine (Mirrors.check (unwrapParens_mirrors h hlimit (by omega) hle (by omega))).bind
        fun template _ htemplate => ?_
      subst hprelude htemplate
      exact .ok rfl

section Findings

variable {ps ps' : Painted} (hm : m.Shows ps) (hm' : m'.Shows ps')

namespace Findings

/-- The second findings are the first ones moved, and the render method lies between the brackets. -/
def MovesTo (d o c : Nat) (f f' : Findings) : Prop :=
  f' = f.shift d ∧ ∀ parts, f.render = some parts → parts.Between o c

omit h hlimit in
theorem warn_shift (f : Findings) (notice : Notice) (range : Span) :
    (f.shift d).warn notice (range.shift d) = (f.warn notice range).shift d := by
  simp [warn, shift, Warning.shift]

theorem cutBody_mirrors {parts : FunctionParts} (hparts : parts.Between o c) :
    Mirrors (Snippet.cut m parts.body.range.start parts.body.range.stop)
      (Snippet.cut m' (parts.shift d).body.range.start (parts.shift d).body.range.stop)
      fun s s' => s' = s.shift d := by
  simp only [FunctionParts.shift, Body.range_shift]
  exact Snippet.cut_mirrors h hlimit (le_of_lt hparts.body.start.1) hparts.body.stop.2

variable {f : Findings} (hf : ∀ parts, f.render = some parts → parts.Between o c)
include hf

theorem addCallback_mirrors (callback : Lifecycle) (range : Span)
    {parts : FunctionParts} (hparts : parts.Between o c) :
    Mirrors (f.addCallback m callback range parts)
      ((f.shift d).addCallback m' callback (range.shift d) (parts.shift d)) (MovesTo d o c) := by
  unfold addCallback
  cases callback with
  | mount =>
    simp only [shift, Option.isSome_map]
    split
    · exact .ok ⟨warn_shift f _ range, hf⟩
    · refine (cutBody_mirrors h hlimit hparts).bind fun s _ hs => ?_
      subst hs
      exact .ok ⟨rfl, hf⟩
  | unmount =>
    simp only [shift, Option.isSome_map]
    split
    · exact .ok ⟨warn_shift f _ range, hf⟩
    · refine (cutBody_mirrors h hlimit hparts).bind fun s _ hs => ?_
      subst hs
      exact .ok ⟨rfl, hf⟩

theorem addMethod_mirrors (member : Member) {parts : FunctionParts} (hparts : parts.Between o c) :
    Mirrors (f.addMethod m member parts) ((f.shift d).addMethod m' (member.shift d) (parts.shift d))
      (MovesTo d o c) := by
  refine (h.window.slice_mirrors (le_of_lt hparts.params.start.1) hparts.params.stop.2).bind
    fun _ params hparams => ?_
  obtain ⟨rfl, -⟩ := hparams
  refine (cutBody_mirrors h hlimit hparts).bind fun s _ hs => ?_
  subst hs
  refine .ok ⟨?_, hf⟩
  obtain ⟨isAsync, params, body⟩ := parts
  cases body <;> simp [shift, Method.shift, Member.shift, FunctionParts.shift, Body.shift]

include hm hm' in
theorem addFunction_mirrors (receivers : List Text) (member : Member) (range : Span)
    {parts : FunctionParts} (hparts : parts.Between o c) :
    Mirrors (f.addFunction m receivers member range parts)
      ((f.shift d).addFunction m' receivers (member.shift d) (range.shift d) (parts.shift d))
      (MovesTo d o c) := by
  unfold addFunction
  rw [Member.name_shift]
  split
  · refine (droppedStatements_mirrors h hlimit hm hm' receivers hparts.body).bind fun ws _ hws => ?_
    subst hws
    exact .ok ⟨by simp [shift], hf⟩
  split
  · cases hrender : f.render with
    | none => exact .ok ⟨by simp [shift, hrender], by simpa [hrender] using hparts⟩
    | some kept => exact .ok ⟨by simp [shift, hrender], by simpa [hrender] using hf kept hrender⟩
  cases Lifecycle.ofCallback? member.name with
  | some callback => exact addCallback_mirrors h hlimit hf callback range hparts
  | none => exact addMethod_mirrors h hlimit hf member hparts

theorem addField_mirrors (member : Member) (range : Span) {value : Option Span}
    (hvalue : ∀ v, value = some v → v.Between o c) : Mirrors (f.addField m member range value)
      ((f.shift d).addField m' (member.shift d) (range.shift d) (value.map (·.shift d)))
      (MovesTo d o c) := by
  have hfilter : (value.map (·.shift d)).filter
      (fun v => member.name == "state" && m'.isCodeChar v.start '\x7b') =
        (value.filter fun v => member.name == "state" && m.isCodeChar v.start '\x7b').map
          (·.shift d) := by
    cases value with
    | none => rfl
    | some v =>
      have hstart := (hvalue v rfl).start
      have hbrace : m'.isCodeChar (v.shift d).start '\x7b' = m.isCodeChar v.start '\x7b' :=
        h.isCodeChar_eq (by omega) hstart.2 _
      simp only [Option.map_some, Option.filter_some, hbrace]
      split <;> rfl
  unfold addField
  rw [Member.name_shift, hfilter]
  cases hliteral : value.filter fun v => member.name == "state" && m.isCodeChar v.start '\x7b' with
  | none => exact .ok ⟨warn_shift f _ range, hf⟩
  | some v =>
    have hbetween := hvalue v (Option.filter_eq_some_iff.mp hliteral).1
    have hmatching : m'.matching (v.shift d).start = (m.matching v.start).map (d + ·) :=
      h.matching_eq (le_of_lt hbetween.start.1) hbetween.start.2
    dsimp only [Option.map_some]
    rw [hmatching]
    cases hmatch : m.matching v.start with
    | none => exact .ok ⟨rfl, hf⟩
    | some close =>
      have hclose := h.matching_lt hbetween.start.1 hbetween.start.2 hmatch
      have hcut : Mirrors (Snippet.cut m v.start (close + 1))
          (Snippet.cut m' (d + v.start) (d + (close + 1))) fun s s' => s' = s.shift d :=
        Snippet.cut_mirrors h hlimit (le_of_lt hbetween.start.1) hclose
      refine hcut.bind fun s _ hs => ?_
      subst hs
      exact .ok ⟨by simp [shift, shiftLiteral, Span.shift], hf⟩

include hm hm' in
theorem add_mirrors (receivers : List Text) {member : Member} (hmember : member.Between o c) :
    Mirrors (add m receivers f member) (add m' receivers (f.shift d) (member.shift d))
      (MovesTo d o c) := by
  have hstart := hmember.range.start.2
  have hstop := hmember.range.stop.2
  have hrange : Mirrors (Span.reported member.range.start member.range.stop)
      (Span.reported (member.shift d).range.start (member.shift d).range.stop)
      fun r r' => r' = r.shift d := Span.reported_mirrors (by omega) (by omega)
  unfold add
  refine hrange.bind fun range _ hr => ?_
  subst hr
  rw [Member.name_shift, Member.isStatic_shift, Member.kind_shift]
  split
  · exact .ok ⟨warn_shift f _ range, hf⟩
  split
  · exact .ok ⟨warn_shift f _ range, hf⟩
  cases hkind : member.kind with
  | function parts =>
    exact addFunction_mirrors h hlimit hm hm' hf receivers member range (hmember.parts parts hkind)
  | field value =>
    refine addField_mirrors h hlimit hf member range fun v hv => hmember.value v ?_
    rw [hkind, hv]
  | accessor => exact .ok ⟨warn_shift f _ range, hf⟩

end Findings

end Findings

end Component

end Pieces

/-- What the members amount to is the same in both texts. -/
theorem Component.findings_mirrors {t t' : Text} {d o c : Nat}
    (h : Inset (ofText t) (ofText t') d o c) (hlimit : d + c ≤ Span.limit) (receivers : List Text) :
    Mirrors (findings (ofText t) receivers (o + 1) c)
      (findings (ofText t') receivers (d + (o + 1)) (d + c)) (Findings.MovesTo d o c) := by
  have hm := Scan.ofText_shows t
  have hm' := Scan.ofText_shows t'
  refine (Member.list_mirrors h hlimit).bind fun listing _ hlisting => ?_
  obtain ⟨rfl, hbetween⟩ := hlisting
  refine (assignedState_mirrors h hlimit hm receivers).bind fun assigned _ hassigned => ?_
  subst hassigned
  refine Mirrors.foldlM (fun member hmember f _ hf => ?_) ⟨rfl, by simp⟩
  obtain ⟨rfl, hf⟩ := hf
  exact Findings.add_mirrors h hlimit hm hm' hf receivers (hbetween member hmember)

end Declass
