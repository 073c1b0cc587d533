import Declass.Proofs.Members

/-!
# What an extraction cuts out

**Input.** A source text with a class component in it.

**Results.** `extract_faultless`: an extraction gives a component or is refused, and every snippet
of the component was cut out of the source at a range that is empty, a `Piece`, or a pair of
brackets with what stands between them.  The state initializer is always of the last form.
-/

namespace Declass

open CodeMap Member

/-- The ranges that snippets are cut from. -/
inductive CodeMap.Cut (m : CodeMap) : Nat → Nat → Prop
  | empty {i : Nat} (h : m.isBoundary i = true) : Cut m i i
  | piece {start stop : Nat} (h : m.Piece start stop) : Cut m start stop
  | brackets {o c : Nat} (h : m.matching o = some c) : Cut m o (c + 1)

/-- The snippet is the source between `start` and `stop`. -/
def Snippet.Is (m : CodeMap) (start stop : Nat) (s : Snippet) : Prop :=
  Snippet.cut m start stop = .ok s

/-- The snippet was cut out of the source. -/
def Snippet.From (m : CodeMap) (s : Snippet) : Prop :=
  ∃ start stop, m.Cut start stop ∧ s.Is m start stop

/-- The snippet is a pair of brackets of the source with what stands between them. -/
def Snippet.Bracketed (m : CodeMap) (s : Snippet) : Prop :=
  ∃ o c, m.matching o = some c ∧ s.Is m o (c + 1)

theorem Snippet.Bracketed.from {m : CodeMap} {s : Snippet} (h : s.Bracketed m) : s.From m := by
  obtain ⟨o, c, hmatch, hs⟩ := h
  exact ⟨o, c + 1, .brackets hmatch, hs⟩

section Cutting

variable {m : CodeMap} {ps : Painted} (hm : m.Shows ps)
include hm

theorem CodeMap.Cut.whole {start stop : Nat} (h : m.Cut start stop) : m.Whole start stop := by
  cases h with
  | empty h => exact ⟨le_refl _, h, h⟩
  | piece h => exact h.whole
  | brackets h => exact matching_whole_outside hm h

theorem CodeMap.Cut.yields {start stop : Nat} (h : m.Cut start stop) :
    Yields (Snippet.cut m start stop) fun s => s.From m := by
  obtain ⟨s, hs, -⟩ := Snippet.cut_yields hm (h.whole hm)
  exact ⟨s, hs, start, stop, h, hs⟩

theorem CodeMap.Piece.yields {start stop : Nat} (h : m.Piece start stop) :
    Yields (Snippet.cut m start stop) fun s => s.From m := Cut.yields hm (.piece h)

theorem bracketed_yields {o c : Nat} (h : m.matching o = some c) :
    Yields (Snippet.cut m o (c + 1)) fun s => s.Bracketed m := by
  obtain ⟨s, hs, -⟩ := Snippet.cut_yields hm (matching_whole_outside hm h)
  exact ⟨s, hs, o, c, h, hs⟩

end Cutting

/-- The warning is about a part of the range that is not empty. -/
def Warning.Within (range : Span) (w : Warning) : Prop :=
  ∃ start stop, w.range = Span.clamp ⟨start, stop⟩ ∧ range.start ≤ start ∧ start < stop ∧
    stop ≤ range.stop

theorem Warning.Within.mono {range range' : Span} {w : Warning} (h : w.Within range)
    (hstart : range'.start ≤ range.start) (hstop : range.stop ≤ range'.stop) : w.Within range' := by
  obtain ⟨start, stop, hw, h1, h2, h3⟩ := h
  exact ⟨start, stop, hw, le_trans hstart h1, h2, le_trans h3 hstop⟩

namespace Component

section Parts

variable {m : CodeMap} {ps : Painted} (hm : m.Shows ps)
include hm

theorem assignedState_yields (receivers : List Text) {start stop : Nat} (hw : m.Whole start stop) :
    Yields (assignedState m receivers start stop) fun l => ∀ p ∈ l, p.2.Bracketed m := by
  refine (slice_yields hm hw).bind fun body _ => ?_
  split
  · exact .ok (by simp)
  · rename_i found _
    dsimp only
    cases hmatch : m.matching (start + found.stop - 1) with
    | none => exact .ok (by simp)
    | some close =>
      refine (bracketed_yields hm hmatch).bind fun s hs => .ok ?_
      simpa using hs

theorem droppedStatement_yields (receivers : List Text) {part : Span}
    (hw : m.Whole part.start part.stop) :
    Yields (droppedStatement m receivers part) fun ws => ∀ w ∈ ws, w.Within part := by
  unfold droppedStatement
  dsimp only
  split
  · exact .ok (by simp)
  have hge := le_skipTrivia m part.start part.stop
  have hstart := skipTrivia_boundary hm hw.left hw.right
  have hle : m.skipTrivia part.start part.stop < part.stop := by omega
  have hstatement : m.Whole (m.skipTrivia part.start part.stop)
      (m.trimTrivia (m.skipTrivia part.start part.stop) part.stop) :=
    ⟨le_trimTrivia (le_of_lt hle), hstart, trimTrivia_boundary hm hstart hw.right⟩
  refine (slice_yields hm hstatement).bind fun statement _ => ?_
  have hcounterpart : Yields (hasCounterpart m receivers (m.skipTrivia part.start part.stop)
      statement) fun _ => True := by
    unfold hasCounterpart
    rw [wordAt_eq hm (by decide)]
    exact .ok trivial
  refine hcounterpart.bind fun kept _ => ?_
  split
  · exact .ok (by simp)
  · refine (Warning.about_yields _ hstatement.le).bind fun w hw => .ok ?_
    simp only [List.mem_singleton, forall_eq, hw]
    exact ⟨_, _, rfl, hge, lt_trimTrivia hle (skipTrivia_stop hle), trimTrivia_le m _ _⟩

theorem droppedStatements_yields (receivers : List Text) {parts : FunctionParts}
    (h : parts.Lies m) :
    Yields (droppedStatements m receivers parts) fun ws => ∀ w ∈ ws, w.Within parts.body.range := by
  obtain ⟨isAsync, params, body⟩ := parts
  cases body with
  | expression range => exact .ok (by simp)
  | block range =>
    have hparts : ∀ part ∈ m.splitTop range.start range.stop ';',
        Yields (droppedStatement m receivers part) fun ws => ∀ w ∈ ws, w.Within range := by
      intro part hpart
      obtain ⟨hwhole, hstart, hstop⟩ := splitTop_whole hm h.body.whole rfl hpart
      refine (droppedStatement_yields hm receivers hwhole).mono fun ws hws w hw => ?_
      exact (hws w hw).mono hstart hstop
    refine (Yields.mapM hparts).bind fun warnings hwarnings => .ok fun w hw => ?_
    obtain ⟨ws, hws, hw⟩ := List.mem_flatten.mp hw
    obtain ⟨i, hi, rfl⟩ := List.getElem_of_mem hws
    exact hwarnings.get (hwarnings.length_eq ▸ hi) hi w hw

omit hm in
/-- What is said about the statements of a constructor is that they are dropped. -/
theorem droppedStatements_notice {receivers : List Text} {parts : FunctionParts}
    {ws : List Warning} (h : droppedStatements m receivers parts = .ok ws) :
    ∀ w ∈ ws, ∃ line, w.notice = .constructorStatementDropped line := by
  unfold droppedStatements at h
  split at h
  · cases h
    simp
  obtain ⟨dropped, hdropped, h⟩ := bind_eq_ok h
  cases h
  intro w hw
  obtain ⟨ws, hws, hw⟩ := List.mem_flatten.mp hw
  obtain ⟨part, -, hpart⟩ := exists_of_mapM hdropped hws
  unfold droppedStatement at hpart
  dsimp only at hpart
  split at hpart
  · cases hpart
    exact absurd hw List.not_mem_nil
  obtain ⟨statement, -, hpart⟩ := bind_eq_ok hpart
  obtain ⟨counterpart, -, hpart⟩ := bind_eq_ok hpart
  split at hpart
  · cases hpart
    exact absurd hw List.not_mem_nil
  obtain ⟨warning, hwarning, hpart⟩ := bind_eq_ok hpart
  obtain ⟨range, -, hwarning⟩ := bind_eq_ok hwarning
  cases hwarning
  cases hpart
  obtain rfl := List.mem_singleton.mp hw
  exact ⟨_, rfl⟩

theorem unwrapParens_yields {start stop : Nat} (h : m.Piece start stop) :
    Yields (unwrapParens m start stop) fun s => s.From m := by
  unfold unwrapParens
  split
  · rename_i hparens
    simp only [Bool.and_eq_true, beq_iff_eq] at hparens
    exact (piece_of_matching hm hparens.2).1.yields hm
  · exact h.yields hm

end Parts

/-- Cutting the body of render never fails, though it may be refused. -/
theorem splitRender_faultless {m : CodeMap} {t : Text} (ht : m = CodeMap.ofText t)
    {parts : FunctionParts} (h : parts.Lies m) :
    Faultless (splitRender m parts.body) fun p => p.1.From m ∧ p.2.From m := by
  have hm := shows ht
  obtain ⟨isAsync, params, body⟩ := parts
  have hpiece := h.body
  have hlimit := h.fence
  cases body with
  | expression range =>
    refine (Faultless.check (Cut.yields hm (.empty hpiece.whole.left))).bind fun prelude hp => ?_
    refine (Faultless.check (unwrapParens_yields hm hpiece)).bind fun template ht => ?_
    exact .ok ⟨hp, ht⟩
  | block range =>
    have hreturns := keywords_yields hm (w := "return") (by decide) range.start range.stop
    refine (Faultless.check hreturns).bind fun returns hreturns => ?_
    cases hlast : returns.getLast? with
    | none => exact .refused _
    | some ret =>
      obtain ⟨hfrom, hto, hcode, hstands⟩ := hreturns ret (List.mem_of_getLast? hlast)
      have hspells : m.spells "return" ret := by
        simp only [stands, Bool.and_eq_true] at hstands
        exact hstands.1.1
      have hword := spells_whole hm (by decide) hspells
      have hwithin := spells_within hm hlimit.fence (by decide) hspells hto
      have hstart := skipTrivia_boundary hm hword.right hlimit.fence.1
      have hstartLe := skipTrivia_le (m := m) hwithin
      dsimp only
      split
      · exact .refused _
      generalize hlim : ((m.findTop (m.skipTrivia (ret + Text.size "return") range.stop)
        range.stop ';').getD range.stop) = lim
      have hlimIn : m.skipTrivia (ret + Text.size "return") range.stop ≤ lim ∧
          lim ≤ range.stop ∧ m.Limit lim := by
        cases hsemi : m.findTop (m.skipTrivia (ret + Text.size "return") range.stop)
            range.stop ';' with
        | none =>
          rw [hsemi] at hlim
          rw [← hlim]
          exact ⟨hstartLe, le_refl _, hlimit⟩
        | some semi =>
          rw [hsemi] at hlim
          obtain ⟨h1, h2, h3⟩ := findTop_spec hsemi
          rw [← hlim]
          exact ⟨h1, le_of_lt h2, limit_of_codeChar hm h3 rfl⟩
      split
      · exact .refused _
      have hlt : m.skipTrivia (ret + Text.size "return") range.stop < range.stop := by
        have := trimTrivia_le m (m.skipTrivia (ret + Text.size "return") range.stop) lim
        omega
      have hend := limit_trimTrivia ht hstart hlimIn.1 hlimIn.2.2 fun _ => skipTrivia_stop hlt
      have hprelude : m.Piece range.start ret :=
        ⟨⟨hfrom, hpiece.whole.left, hword.left⟩, hpiece.opening, .code hcode⟩
      have htemplate : m.Piece (m.skipTrivia (ret + Text.size "return") range.stop)
          (m.trimTrivia (m.skipTrivia (ret + Text.size "return") range.stop) lim) :=
        ⟨⟨le_trimTrivia hlimIn.1, hstart, hend.fence.1⟩,
          .returned hcode hstands (skipTrivia_behind hlt), hend.closing⟩
      refine (Faultless.check (hprelude.yields hm)).bind fun prelude hp => ?_
      refine (Faultless.check (unwrapParens_yields hm htemplate)).bind fun template ht => ?_
      exact .ok ⟨hp, ht⟩

/-- What the members amount to was cut out of the source. -/
structure Findings.Lies (m : CodeMap) (f : Findings) : Prop where
  literals : ∀ p ∈ f.literals, p.2.Bracketed m
  mount : ∀ s, f.mount = some s → s.From m
  unmount : ∀ s, f.unmount = some s → s.From m
  methods : ∀ method ∈ f.methods, method.body.From m
  render : ∀ parts, f.render = some parts → parts.Lies m

namespace Findings

section Adding

variable {m : CodeMap} {ps : Painted} (hm : m.Shows ps) {f : Findings} (hf : f.Lies m)
include hf

theorem lies_warn (notice : Notice) (range : Span) : (f.warn notice range).Lies m :=
  ⟨hf.literals, hf.mount, hf.unmount, hf.methods, hf.render⟩

include hm

variable {range : Span} {parts : FunctionParts} {member : Member}

theorem addCallback_yields {callback : Lifecycle} (h : parts.Lies m) :
    Yields (f.addCallback m callback range parts) (Findings.Lies m) := by
  unfold addCallback
  cases callback with
  | mount =>
    dsimp only
    split
    · exact .ok (lies_warn hf _ _)
    · refine (h.body.yields hm).bind fun body hbody => .ok ?_
      exact ⟨hf.literals, by simpa using hbody, hf.unmount, hf.methods, hf.render⟩
  | unmount =>
    dsimp only
    split
    · exact .ok (lies_warn hf _ _)
    · refine (h.body.yields hm).bind fun body hbody => .ok ?_
      exact ⟨hf.literals, hf.mount, by simpa using hbody, hf.methods, hf.render⟩

theorem addMethod_yields (h : parts.Lies m) :
    Yields (f.addMethod m member parts) (Findings.Lies m) := by
  refine (slice_yields hm h.params).bind fun params _ => ?_
  refine (h.body.yields hm).bind fun body hbody => ?_
  refine .ok ⟨hf.literals, hf.mount, hf.unmount, fun method hmethod => ?_, hf.render⟩
  rcases List.mem_append.mp hmethod with hmethod | hmethod
  · exact hf.methods method hmethod
  · obtain rfl := List.mem_singleton.mp hmethod
    exact hbody

theorem addFunction_yields {receivers : List Text} (h : parts.Lies m) :
    Yields (f.addFunction m receivers member range parts) (Findings.Lies m) := by
  unfold addFunction
  split
  · refine (droppedStatements_yields hm receivers h).bind fun dropped _ => ?_
    exact .ok ⟨hf.literals, hf.mount, hf.unmount, hf.methods, hf.render⟩
  split
  · refine .ok ⟨hf.literals, hf.mount, hf.unmount, hf.methods, fun parts' hparts => ?_⟩
    cases hrender : f.render with
    | some kept =>
      simp only [hrender, Option.orElse_some, Option.some.injEq] at hparts
      exact hf.render parts' (hparts ▸ hrender)
    | none =>
      simp only [hrender, Option.orElse_none, Option.some.injEq] at hparts
      exact hparts ▸ h
  · split
    · exact addCallback_yields hm hf h
    · exact addMethod_yields hm hf h

theorem addField_yields {value : Option Span} :
    Yields (f.addField m member range value) (Findings.Lies m) := by
  unfold addField
  split
  · rename_i v _
    cases hmatch : m.matching v.start with
    | none => exact .ok hf
    | some close =>
      refine (bracketed_yields hm hmatch).bind fun literal hliteral => ?_
      refine .ok ⟨fun p hp => ?_, hf.mount, hf.unmount, hf.methods, hf.render⟩
      rcases List.mem_append.mp hp with hp | hp
      · exact hf.literals p hp
      · obtain rfl := List.mem_singleton.mp hp
        exact hliteral
  · exact .ok (lies_warn hf _ _)

theorem add_yields {receivers : List Text} (h : member.Lies m) :
    Yields (add m receivers f member) (Findings.Lies m) := by
  refine (Span.reported_yields h.le).bind fun range _ => ?_
  split
  · exact .ok (lies_warn hf _ _)
  split
  · exact .ok (lies_warn hf _ _)
  split
  · rename_i parts hkind
    exact addFunction_yields hm hf (h.parts parts hkind)
  · exact addField_yields hm hf
  · exact .ok (lies_warn hf _ _)

end Adding

end Findings

section Extraction

variable {m : CodeMap} {t : Text} (ht : m = CodeMap.ofText t)
include ht

theorem findings_yields (receivers : List Text) {start stop : Nat} (hw : m.Whole start stop)
    (hend : m.BodyEnd stop) : Yields (findings m receivers start stop) (Findings.Lies m) := by
  have hm := shows ht
  refine (list_yields ht hw hend).bind fun listing hlisting => ?_
  refine (assignedState_yields hm receivers hw).bind fun assigned hassigned => ?_
  refine Yields.foldlM ?_ fun f member hmember hf => Findings.add_yields hm hf (hlisting _ hmember)
  exact ⟨hassigned, by simp, by simp, by simp, by simp⟩

end Extraction

/-- The snippets of a component. -/
def snippets (c : Component) : List Snippet :=
  c.state.toList ++ c.mount.toList ++ c.unmount.toList ++ c.methods.map (·.body) ++
    [c.prelude, c.template]

/-- Everything in the component was cut out of the source. -/
structure Lies (m : CodeMap) (c : Component) : Prop where
  state : ∀ s, c.state = some s → s.Bracketed m
  snippets : ∀ s ∈ c.snippets, s.From m

theorem mem_of_earliest {ls : List (Nat × Snippet)} {l : Nat × Snippet}
    (h : earliest ls = some l) : l ∈ ls := by
  induction ls generalizing l with
  | nil => simp [earliest] at h
  | cons first ls ih =>
    rw [earliest] at h
    split at h
    · rename_i best hbest
      split at h
      · obtain rfl := Option.some.inj h
        simp
      · obtain rfl := Option.some.inj h
        exact List.mem_cons_of_mem _ (ih hbest)
    · obtain rfl := Option.some.inj h
      simp

/-- The class body behind a declaration. -/
def classBody? (m : CodeMap) (header : Match) : Option Span :=
  (m.findCode header.stop m.size "\x7b").map fun o => ⟨o + 1, (m.matching o).getD m.size⟩

/-- A class body is a range of whole characters that ends where members end. -/
theorem classBody?_spec {m : CodeMap} {ps : Painted} (hm : m.Shows ps) {header : Match}
    {body : Span} (h : classBody? m header = some body) :
    m.Whole body.start body.stop ∧ m.BodyEnd body.stop := by
  obtain ⟨o, hopen, rfl⟩ := Option.map_eq_some_iff.mp h
  obtain ⟨-, -, hspells⟩ := findCode_spec hopen
  have hbrace := spells_whole hm (by decide) hspells
  have hend : m.BodyEnd ((m.matching o).getD m.size) ∧ o + 1 ≤ (m.matching o).getD m.size := by
    cases hmatch : m.matching o with
    | none => exact ⟨.inl rfl, isBoundary_le hm hbrace.right⟩
    | some close =>
      obtain ⟨-, hclose, hlt, -⟩ := matching_spec hmatch
      exact ⟨.inr hclose, hlt⟩
  exact ⟨⟨hend.2, hbrace.right, (hend.1.limit hm).fence.1⟩, hend.1⟩

/-- The component with what was found in the class body and cut out of its render method. -/
def of (name : Text) (found : Findings) (render : Snippet × Snippet) : Component where
  name := name
  state := (earliest found.literals).map Prod.snd
  mount := found.mount
  unmount := found.unmount
  methods := found.methods
  prelude := render.1
  template := render.2
  warnings := found.warnings

/-- What an extraction goes through when it gives a component. -/
structure Extracts (t : Text) (receivers : List Text) (header : Match) (body : Span)
    (found : Findings) (render : FunctionParts) (pieces : Snippet × Snippet) : Prop where
  hheader : findDeclaration? (ofText t) t = some header
  hbody : classBody? (ofText t) header = some body
  hfound : findings (ofText t) receivers body.start body.stop = .ok found
  hrender : found.render = some render
  hpieces : splitRender (ofText t) render.body = .ok pieces

theorem extract_iff {t : Text} {receivers : List Text} {c : Component} :
    extract t receivers = .ok c ↔ ∃ header body found render pieces,
      Extracts t receivers header body found render pieces ∧ c = of header.group found pieces := by
  constructor
  · intro h
    unfold extract at h
    dsimp only at h
    cases hheader : findDeclaration? (ofText t) t with
    | none => rw [hheader] at h; cases h
    | some header =>
      rw [hheader] at h
      dsimp only at h
      cases hopen : (ofText t).findCode header.stop (ofText t).size "\x7b" with
      | none => rw [hopen] at h; cases h
      | some o =>
        rw [hopen] at h
        obtain ⟨found, hfound, h⟩ := bind_eq_ok h
        cases hrender : found.render with
        | none => rw [hrender] at h; cases h
        | some render =>
          rw [hrender] at h
          obtain ⟨pieces, hpieces, h⟩ := bind_eq_ok h
          cases h
          exact ⟨header, _, found, render, pieces, ⟨hheader, Option.map_eq_some_iff.mpr
            ⟨o, hopen, rfl⟩, check_eq_ok hfound, hrender, hpieces⟩, rfl⟩
  · rintro ⟨header, body, found, render, pieces, h, rfl⟩
    obtain ⟨o, hopen, rfl⟩ := Option.map_eq_some_iff.mp h.hbody
    have hfound : Failure.check (findings (ofText t) receivers (o + 1)
        (((ofText t).matching o).getD (ofText t).size)) = .ok found := by
      rw [h.hfound]
      rfl
    unfold extract
    dsimp only
    rw [h.hheader]
    dsimp only
    rw [hopen]
    dsimp only
    rw [bind_of_eq_ok hfound, h.hrender]
    dsimp only
    rw [bind_of_eq_ok h.hpieces]
    rfl

/-- An extraction gives a component that was cut out of its source, or it is refused. -/
theorem extract_faultless (t : Text) (receivers : List Text) :
    Faultless (extract t receivers) (Lies (CodeMap.ofText t)) := by
  obtain ⟨m, ht⟩ : ∃ m, m = CodeMap.ofText t := ⟨_, rfl⟩
  have hm := shows ht
  unfold extract
  dsimp only
  rw [← ht]
  cases findDeclaration? m t with
  | none => exact .refused _
  | some header =>
    dsimp only
    cases hopen : m.findCode header.stop m.size "\x7b" with
    | none => exact .refused _
    | some bodyOpen =>
      obtain ⟨hwhole, hend⟩ :=
        classBody?_spec hm (Option.map_eq_some_iff.mpr ⟨bodyOpen, hopen, rfl⟩)
      refine (Faultless.check (findings_yields ht receivers hwhole hend)).bind
        fun found hfound => ?_
      cases hrender : found.render with
      | none => exact .refused _
      | some render =>
        refine (splitRender_faultless ht (hfound.render render hrender)).bind fun p hp => ?_
        have hstate : ∀ s, (earliest found.literals).map Prod.snd = some s → s.Bracketed m := by
          intro s hs
          obtain ⟨l, hl, rfl⟩ := Option.map_eq_some_iff.mp hs
          exact hfound.literals l (mem_of_earliest hl)
        refine .ok ⟨hstate, fun s hs => ?_⟩
        simp only [snippets, List.mem_append, Option.mem_toList, List.mem_map,
          List.mem_cons, List.not_mem_nil, or_false] at hs
        rcases hs with (((hs | hs) | hs) | ⟨method, hmethod, rfl⟩) | rfl | rfl
        · exact (hstate s hs).from
        · exact hfound.mount s hs
        · exact hfound.unmount s hs
        · exact hfound.methods method hmethod
        · exact hp.1
        · exact hp.2

end Component

end Declass
