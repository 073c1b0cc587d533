import Declass.Proofs.Extraction
import Declass.Proofs.Regions

/-!
# What becomes of the members of a class

**Input.** A source text with a class component in it.

**Algorithm.** `Findings.Adds` says what one more member changes, and `Findings.Grows` what any
number of them keep: what was found stays, and each warning is about a part of one member.

**Results.** `members_used_or_reported`: a member is used in the component, or one warning is about
it, unless it is a second render method or a state literal that is not the initializer.  Those are
left out and nothing is said.
-/

namespace Declass

open CodeMap

/-- The ranges have no byte in common. -/
def Span.Apart (a b : Span) : Prop := a.stop ≤ b.start ∨ b.stop ≤ a.start

/-- A warning about a part of one range is not about a range that lies apart from it. -/
theorem Warning.Within.ne_of_apart {range other : Span} {w : Warning} (h : w.Within range)
    (hlimit : range.stop ≤ Span.limit) (hapart : range.Apart other) : w.range ≠ other := by
  obtain ⟨start, stop, hw, h1, h2, h3⟩ := h
  rw [hw, Span.clamp_of_le (le_of_lt h2) (le_trans h3 hlimit)]
  rintro rfl
  unfold Span.Apart at hapart
  dsimp only at hapart
  omega

namespace Member

/-- The member is a method named render. -/
structure Renders (member : Member) (parts : FunctionParts) : Prop where
  kind : member.kind = .function parts
  isStatic : member.isStatic = false
  name : member.name = "render"

/-- The member is a field named state with an object literal at `value`. -/
structure HoldsState (m : CodeMap) (member : Member) (value : Span) : Prop where
  kind : member.kind = .field (some value)
  isStatic : member.isStatic = false
  name : member.name = "state"
  literal : m.isCodeChar value.start '\x7b' = true

/-- The members of a listing lie apart from each other and from what was given up. -/
structure Listing.Disjoint (start stop : Nat) (listing : Listing) : Prop where
  inside : ∀ member ∈ listing.members, start ≤ member.range.start ∧
    member.range.start < member.range.stop ∧ member.range.stop ≤ stop
  ordered : listing.members.Pairwise fun a b => a.range.stop ≤ b.range.start
  apart : ∀ w ∈ listing.warnings, ∃ range : Span, w.Within range ∧ range.stop ≤ stop ∧
    ∀ member ∈ listing.members, range.Apart member.range

theorem Tiles.disjoint {m : CodeMap} {start stop : Nat} {regions : List Region}
    (h : Tiles m stop start regions) : (Listing.of regions).Disjoint start stop := by
  have hmember : ∀ {member}, member ∈ (Listing.of regions).members →
      Region.member member ∈ regions := by
    intro member hmember
    obtain ⟨r, hr, hsome⟩ := List.mem_filterMap.mp hmember
    cases r with
    | member found =>
      cases hsome
      exact hr
    | lost line range => cases hsome
  refine ⟨fun member hm => h.mem (hmember hm), ?_, fun w hw => ?_⟩
  · refine h.ordered.filterMap _ fun r r' hle member hsome member' hsome' => ?_
    cases r with
    | lost line range => cases hsome
    | member found =>
      cases r' with
      | lost line range => cases hsome'
      | member found' =>
        cases hsome
        cases hsome'
        exact hle
  · obtain ⟨r, hr, hsome⟩ := List.mem_filterMap.mp hw
    cases r with
    | member found => cases hsome
    | lost line range =>
      cases hsome
      obtain ⟨-, hlt, hstop⟩ := h.mem hr
      refine ⟨range, ⟨_, _, rfl, le_refl _, hlt, le_refl _⟩, hstop, fun member hm => ?_⟩
      have hsymm : Std.Symm fun a b : Region => a.range.Apart b.range := ⟨fun _ _ => Or.symm⟩
      have hapart : regions.Pairwise fun a b => a.range.Apart b.range :=
        h.ordered.imp fun hle => .inl hle
      exact hapart.forall hr (hmember hm) (by simp)

theorem list_disjoint {m : CodeMap} {t : Text} (ht : m = CodeMap.ofText t) {start stop : Nat}
    {listing : Listing} (hw : m.Whole start stop) (hend : m.BodyEnd stop)
    (h : list m start stop = .ok listing) : listing.Disjoint start stop := by
  have hsize := isBoundary_le (shows ht) hw.right
  obtain ⟨regions, htiles, hcount⟩ := exists_tiling ht hend _ rfl hw.le hw.left
  obtain rfl := Except.ok.inj (h.symm.trans (hcount _ (by omega)))
  exact htiles.disjoint

end Member

namespace Component

open Member

/-- The body of a lifecycle callback, if the component has it. -/
def callback? (c : Component) : Lifecycle → Option Snippet
  | .mount => c.mount
  | .unmount => c.unmount

/-- The number of warnings about exactly this range. -/
def reports (c : Component) (range : Span) : Nat := c.warnings.countP (·.range == range)

/-- The member is in the component. -/
inductive Represents (m : CodeMap) (c : Component) (member : Member) : Prop
  | constructor {parts : FunctionParts} (hkind : member.kind = .function parts)
      (hname : member.name = "constructor")
  | render {parts : FunctionParts} (hkind : member.kind = .function parts)
      (hname : member.name = "render")
      (h : splitRender m parts.body = .ok (c.prelude, c.template))
  | callback {parts : FunctionParts} {callback : Lifecycle} {s : Snippet}
      (hkind : member.kind = .function parts)
      (hname : Lifecycle.ofCallback? member.name = some callback)
      (h : c.callback? callback = some s)
      (hbody : s.Is m parts.body.range.start parts.body.range.stop)
  | method {parts : FunctionParts} {method : Method} (hkind : member.kind = .function parts)
      (h : method ∈ c.methods) (hname : method.name = member.name)
      (hbody : method.body.Is m parts.body.range.start parts.body.range.stop)
  | state {value : Span} {close : Nat} {s : Snippet} (hkind : member.kind = .field (some value))
      (hname : member.name = "state") (h : c.state = some s)
      (hmatch : m.matching value.start = some close) (hliteral : s.Is m value.start (close + 1))

/-- The member comes behind another render method, or it is a state literal that is not the
initializer. -/
inductive Overlooks (m : CodeMap) (c : Component) (before : List Member) (member : Member) : Prop
  | render {first : Member} {parts parts' : FunctionParts} (h : member.Renders parts)
      (hmem : first ∈ before) (hfirst : first.Renders parts')
  | state {value : Span} (h : member.HoldsState m value)
      (hother : ∀ s, c.state = some s → s.range.start ≠ value.start)

/-- The member is a function that the class uses by itself: not a static one, and not a lifecycle
callback that no effect stands for. -/
def isFunction (member : Member) : Bool :=
  !unsupportedCallbacks.contains member.name && !member.isStatic &&
    match member.kind with
    | .function _ => true
    | _ => false

/-- The member becomes a method of the component. -/
def isMethod (member : Member) : Bool :=
  isFunction member && !(member.name == "constructor" || member.name == "render") &&
    Lifecycle.ofCallback? member.name == none

/-- The member is a lifecycle callback. -/
def isCallback (callback : Lifecycle) (member : Member) : Bool :=
  isFunction member && Lifecycle.ofCallback? member.name == some callback

theorem isCallback_iff {callback : Lifecycle} {member : Member} (hfunction : isFunction member) :
    isCallback callback member ↔ Lifecycle.ofCallback? member.name = some callback := by
  simp [isCallback, hfunction]

namespace Findings

section Adding

/-- The body of a lifecycle callback, if it was found. -/
def callback? (f : Findings) : Lifecycle → Option Snippet
  | .mount => f.mount
  | .unmount => f.unmount

/-- With the body of a lifecycle callback. -/
def withCallback (f : Findings) (body : Snippet) : Lifecycle → Findings
  | .mount => { f with mount := some body }
  | .unmount => { f with unmount := some body }

@[simp] theorem callback?_withCallback (f : Findings) (body : Snippet)
    (callback callback' : Lifecycle) : (f.withCallback body callback).callback? callback' =
      if callback = callback' then some body else f.callback? callback' := by
  cases callback <;> cases callback' <;> rfl

section

variable (f : Findings) (body : Snippet) (callback : Lifecycle)
include f body callback

@[simp] theorem withCallback_methods : (f.withCallback body callback).methods = f.methods := by
  cases callback <;> rfl

@[simp] theorem withCallback_render : (f.withCallback body callback).render = f.render := by
  cases callback <;> rfl

@[simp] theorem withCallback_warnings : (f.withCallback body callback).warnings = f.warnings := by
  cases callback <;> rfl

end

/-- Why a member is left out, and what is said about it. -/
inductive Drops (m : CodeMap) (member : Member) : Notice → Prop
  | unsupported (h : unsupportedCallbacks.contains member.name = true) :
      Drops m member (.unsupportedLifecycle member.name)
  | static (h : member.isStatic = true) : Drops m member (.staticDropped member.name)
  | accessor (h : member.kind = .accessor) : Drops m member (.accessorDropped member.name)
  | field {value : Option Span} (hkind : member.kind = .field value)
      (h : ∀ v, value = some v → member.name = "state" → m.isCodeChar v.start '\x7b' = false) :
      Drops m member (.fieldDropped member.name)
  | again {parts : FunctionParts} {callback : Lifecycle} (hkind : member.kind = .function parts)
      (h : Lifecycle.ofCallback? member.name = some callback) :
      Drops m member (.duplicateLifecycle callback)

/-- What is read of the literal that starts with the bracket at `start`: nothing if the bracket is
not closed.  The key decides between several literals. -/
inductive ReadsLiteral (m : CodeMap) (key start : Nat) : List (Nat × Snippet) → Prop
  | closed {close : Nat} {s : Snippet} (hmatch : m.matching start = some close)
      (hs : s.Is m start (close + 1)) : ReadsLiteral m key start [(key, s)]
  | unclosed (hmatch : m.matching start = none) : ReadsLiteral m key start []

/-- What one more member changes. -/
inductive Adds (m : CodeMap) (receivers : List Text) (f : Findings) (member : Member) :
    Findings → Prop
  | drop {notice : Notice} (h : Drops m member notice)
      (hold : ∀ callback, isCallback callback member = true → f.callback? callback ≠ none) :
      Adds m receivers f member (f.warn notice member.range.clamp)
  | constructor {parts : FunctionParts} {dropped : List Warning}
      (hkind : member.kind = .function parts) (hname : member.name = "constructor")
      (h : droppedStatements m receivers parts = .ok dropped) :
      Adds m receivers f member { f with warnings := f.warnings ++ dropped }
  | render {parts : FunctionParts} (h : member.Renders parts) :
      Adds m receivers f member { f with render := f.render.orElse fun _ => some parts }
  | callback {parts : FunctionParts} {callback : Lifecycle} {body : Snippet}
      (hkind : member.kind = .function parts)
      (hname : Lifecycle.ofCallback? member.name = some callback)
      (hnew : f.callback? callback = none)
      (hbody : body.Is m parts.body.range.start parts.body.range.stop)
      (hmember : isCallback callback member = true) :
      Adds m receivers f member (f.withCallback body callback)
  | method {parts : FunctionParts} {method : Method} (hkind : member.kind = .function parts)
      (hname : method.name = member.name) (hother : member.name ≠ "render")
      (hbody : method.body.Is m parts.body.range.start parts.body.range.stop)
      (hasync : method.isAsync = parts.isAsync) (hmember : isMethod member = true) :
      Adds m receivers f member { f with methods := f.methods ++ [method] }
  | literal {value : Span} {literals : List (Nat × Snippet)} (h : member.HoldsState m value)
      (hread : ReadsLiteral m value.start value.start literals) :
      Adds m receivers f member { f with literals := f.literals ++ literals }

variable {m : CodeMap} {receivers : List Text} {f f' : Findings} {member : Member}
  {parts : FunctionParts}

theorem addCallback_eq (m : CodeMap) (f : Findings) (callback : Lifecycle) (range : Span)
    (parts : FunctionParts) : f.addCallback m callback range parts =
      if (f.callback? callback).isSome then .ok (f.warn (.duplicateLifecycle callback) range)
      else do
        let body ← Snippet.cut m parts.body.range.start parts.body.range.stop
        return f.withCallback body callback := by
  cases callback <;> rfl

theorem addCallback_adds {callback : Lifecycle} (hkind : member.kind = .function parts)
    (hfunction : isFunction member) (hname : Lifecycle.ofCallback? member.name = some callback)
    (h : f.addCallback m callback member.range.clamp parts = .ok f') :
    Adds m receivers f member f' := by
  rw [addCallback_eq] at h
  split at h
  · rename_i hold
    cases h
    refine .drop (.again hkind hname) fun other hother hnone => ?_
    obtain rfl := Option.some.inj (hname.symm.trans ((isCallback_iff hfunction).mp hother))
    rw [hnone] at hold
    cases hold
  · rename_i hnew
    obtain ⟨body, hbody, h⟩ := bind_eq_ok h
    cases h
    exact .callback hkind hname (by simpa using hnew) hbody ((isCallback_iff hfunction).mpr hname)

theorem addFunction_adds (hkind : member.kind = .function parts) (hstatic : member.isStatic = false)
    (hfunction : isFunction member)
    (h : f.addFunction m receivers member member.range.clamp parts = .ok f') :
    Adds m receivers f member f' := by
  unfold addFunction at h
  split at h
  · rename_i hname
    obtain ⟨dropped, hdropped, h⟩ := bind_eq_ok h
    cases h
    exact .constructor hkind (by simpa using hname) hdropped
  split at h
  · rename_i hname
    cases h
    exact .render ⟨hkind, hstatic, by simpa using hname⟩
  rename_i hconstructor hrender
  split at h
  · rename_i callback hcallback
    exact addCallback_adds hkind hfunction hcallback h
  · rename_i hcallback
    obtain ⟨params, -, h⟩ := bind_eq_ok h
    obtain ⟨body, hbody, h⟩ := bind_eq_ok h
    cases h
    refine .method hkind rfl (by simpa using hrender) hbody rfl ?_
    rw [Bool.not_eq_true] at hconstructor hrender
    rw [isMethod, hfunction, hconstructor, hrender, hcallback]
    rfl

theorem addField_adds {value : Option Span} (hkind : member.kind = .field value)
    (hstatic : member.isStatic = false)
    (hold : ∀ callback, isCallback callback member → f.callback? callback ≠ none)
    (h : f.addField m member member.range.clamp value = .ok f') : Adds m receivers f member f' := by
  unfold addField at h
  split at h
  · rename_i v hfilter
    obtain ⟨rfl, hv⟩ := Option.filter_eq_some_iff.mp hfilter
    rw [Bool.and_eq_true, beq_iff_eq] at hv
    have hholds : member.HoldsState m v := ⟨hkind, hstatic, hv.1, hv.2⟩
    split at h
    · rename_i close hmatch
      obtain ⟨literal, hliteral, h⟩ := bind_eq_ok h
      cases h
      exact .literal hholds (.closed hmatch hliteral)
    · rename_i hmatch
      cases h
      have hnone : Adds m receivers f member { f with literals := f.literals ++ [] } :=
        .literal hholds (.unclosed hmatch)
      rwa [List.append_nil] at hnone
  · rename_i hnone
    cases h
    refine .drop (.field hkind fun v hv hname => ?_) hold
    subst hv
    simpa [Option.filter_eq_none_iff, hname] using hnone

theorem add_adds (h : add m receivers f member = .ok f') : Adds m receivers f member f' := by
  have hother : isFunction member = false →
      ∀ callback, isCallback callback member → f.callback? callback ≠ none :=
    fun hfunction callback hcallback => by simp [isCallback, hfunction] at hcallback
  obtain ⟨range, hrange, h⟩ := bind_eq_ok h
  obtain rfl := Span.eq_clamp_of_reported hrange
  split at h
  · rename_i hname
    cases h
    exact .drop (.unsupported hname) (hother (by rw [isFunction, hname]; rfl))
  rename_i hname
  split at h
  · rename_i hstatic
    cases h
    exact .drop (.static hstatic) (hother (by simp [isFunction, hstatic]))
  rename_i hstatic
  rw [Bool.not_eq_true] at hstatic
  split at h
  · rename_i parts hkind
    exact addFunction_adds hkind hstatic (by simpa [isFunction, hkind, hstatic] using hname) h
  · rename_i value hkind
    exact addField_adds hkind hstatic (hother (by simp [isFunction, hkind])) h
  · rename_i hkind
    cases h
    exact .drop (.accessor hkind) (hother (by simp [isFunction, hkind]))

theorem ofCallback?_render : Lifecycle.ofCallback? "render" = none := by decide

theorem not_drops_of_renders (h : member.Renders parts) {notice : Notice} :
    ¬Drops m member notice := by
  obtain ⟨hkind, hstatic, hname⟩ := h
  rintro (h | h | h | ⟨h, -⟩ | ⟨-, h⟩)
  · rw [hname] at h
    exact absurd h (by decide)
  · rw [hstatic] at h
    cases h
  · rw [hkind] at h
    cases h
  · rw [hkind] at h
    cases h
  · rw [hname] at h
    cases h

theorem not_drops_of_holdsState {value : Span} (h : member.HoldsState m value) {notice : Notice} :
    ¬Drops m member notice := by
  obtain ⟨hkind, hstatic, hname, hliteral⟩ := h
  rintro (h | h | h | ⟨h, hvalue⟩ | ⟨h, -⟩)
  · rw [hname] at h
    exact absurd h (by decide)
  · rw [hstatic] at h
    cases h
  · rw [hkind] at h
    cases h
  · rw [hkind] at h
    cases h
    rw [hvalue value rfl hname] at hliteral
    cases hliteral
  · rw [hkind] at h
    cases h

theorem Adds.of_renders (hrenders : member.Renders parts) (h : Adds m receivers f member f') :
    f' = { f with render := f.render.orElse fun _ => some parts } := by
  obtain ⟨hkind, hstatic, hname⟩ := id hrenders
  cases h with
  | drop h => exact absurd h (not_drops_of_renders hrenders)
  | constructor _ hname' => exact absurd (hname.symm.trans hname') (by decide)
  | render h =>
    obtain rfl := MemberKind.function.inj (h.kind.symm.trans hkind)
    rfl
  | callback _ h =>
    rw [hname, ofCallback?_render] at h
    cases h
  | method _ _ hother => exact absurd hname hother
  | literal h => cases hkind.symm.trans h.kind

theorem Adds.of_holdsState {value : Span} (hholds : member.HoldsState m value)
    (h : Adds m receivers f member f') : f'.warnings = f.warnings := by
  have hkind := hholds.kind
  cases h with
  | drop h => exact absurd h (not_drops_of_holdsState hholds)
  | literal => rfl
  | constructor h => cases hkind.symm.trans h
  | render h => cases hkind.symm.trans h.kind
  | callback h => cases hkind.symm.trans h
  | method h => cases hkind.symm.trans h

end Adding

section Growing

/-- What any number of members keep: what was found stays, render is taken from one of them, and
each warning is about a part of one of them. -/
structure Grows (members : List Member) (f f' : Findings) : Prop where
  callback : ∀ callback s, f.callback? callback = some s → f'.callback? callback = some s
  methods : ∀ method ∈ f.methods, method ∈ f'.methods
  named : ∀ method ∈ f'.methods, method ∈ f.methods ∨ method.name ≠ "render"
  render : ∀ parts, f.render = some parts → f'.render = some parts
  source : ∀ parts, f'.render = some parts →
    f.render = some parts ∨ ∃ member ∈ members, member.Renders parts
  rendered : ∀ member ∈ members, ∀ parts, member.Renders parts → f'.render.isSome = true
  warnings : ∃ ws, f'.warnings = f.warnings ++ ws ∧ ∀ w ∈ ws, ∃ member ∈ members,
    w.Within member.range

theorem Grows.refl (f : Findings) : Grows [] f f :=
  ⟨fun _ _ => id, fun _ => id, fun _ => .inl, fun _ => id, fun _ => .inl, by simp, [], by simp⟩

theorem Grows.trans {ms ms' : List Member} {f g h : Findings} (hfg : Grows ms f g)
    (hgh : Grows ms' g h) : Grows (ms ++ ms') f h := by
  refine ⟨fun c s hs => hgh.callback c s (hfg.callback c s hs),
    fun method hm => hgh.methods method (hfg.methods method hm), fun method hm => ?_,
    fun parts hp => hgh.render parts (hfg.render parts hp), fun parts hp => ?_,
    fun member hm parts hp => ?_, ?_⟩
  · rcases hgh.named method hm with hm | hm
    · exact hfg.named method hm
    · exact .inr hm
  · rcases hgh.source parts hp with hp | ⟨member, hm, hp⟩
    · rcases hfg.source parts hp with hp | ⟨member, hm, hp⟩
      · exact .inl hp
      · exact .inr ⟨member, List.mem_append_left _ hm, hp⟩
    · exact .inr ⟨member, List.mem_append_right _ hm, hp⟩
  · rcases List.mem_append.mp hm with hm | hm
    · obtain ⟨parts', hp'⟩ := Option.isSome_iff_exists.mp (hfg.rendered member hm parts hp)
      rw [hgh.render parts' hp']
      rfl
    · exact hgh.rendered member hm parts hp
  · obtain ⟨ws, hws, hin⟩ := hfg.warnings
    obtain ⟨ws', hws', hin'⟩ := hgh.warnings
    refine ⟨ws ++ ws', by rw [hws', hws, List.append_assoc], fun w hw => ?_⟩
    rcases List.mem_append.mp hw with hw | hw
    · obtain ⟨member, hm, hw⟩ := hin w hw
      exact ⟨member, List.mem_append_left _ hm, hw⟩
    · obtain ⟨member, hm, hw⟩ := hin' w hw
      exact ⟨member, List.mem_append_right _ hm, hw⟩

variable {m : CodeMap} {ps : Painted} (hm : m.Shows ps) {receivers : List Text}
include hm

theorem Adds.grows {f f' : Findings} {member : Member} (hlies : member.Lies m)
    (hlt : member.range.start < member.range.stop) (h : Adds m receivers f member f') :
    Grows [member] f f' := by
  have hrendered : ∀ a ∈ [member], ∀ parts, a.Renders parts → f'.render.isSome := by
    intro a ha parts hrenders
    obtain rfl := List.mem_singleton.mp ha
    rw [h.of_renders hrenders]
    cases f.render <;> rfl
  cases h with
  | drop h =>
    refine ⟨fun c s hs => ?_, fun _ => id, fun _ => .inl, fun _ => id, fun _ => .inl, hrendered,
      _, rfl, ?_⟩
    · cases c <;> exact hs
    · simp only [List.mem_singleton, forall_eq, exists_eq_left]
      exact ⟨_, _, rfl, le_refl _, hlt, le_refl _⟩
  | constructor hkind _ hdropped =>
    have hwithin := (droppedStatements_yields hm receivers (hlies.parts _ hkind)).of_eq hdropped
    obtain ⟨hstart, hstop⟩ := hlies.inside _ hkind
    refine ⟨fun c s hs => ?_, fun _ => id, fun _ => .inl, fun _ => id, fun _ => .inl, hrendered,
      _, rfl, fun w hw => ⟨member, by simp, (hwithin w hw).mono (le_of_lt hstart) hstop⟩⟩
    cases c <;> exact hs
  | @render parts hrenders =>
    refine ⟨fun c s hs => ?_, fun _ => id, fun _ => .inl, fun parts' hp => ?_, fun parts' hp => ?_,
      hrendered, [], by simp⟩
    · cases c <;> exact hs
    · simp [hp]
    · cases hrender : f.render with
      | some kept => exact .inl (by simpa [hrender] using hp)
      | none =>
        simp only [hrender, Option.orElse_none, Option.some.injEq] at hp
        exact .inr ⟨member, by simp, hp ▸ hrenders⟩
  | @callback parts callback body _ _ hnew =>
    refine ⟨fun c s hs => ?_, by simp, fun _ hm => .inl (by simpa using hm), by simp,
      fun _ hp => .inl (by simpa using hp), hrendered, [], by simp⟩
    rw [callback?_withCallback]
    split
    · rename_i heq
      rw [← heq, hnew] at hs
      cases hs
    · exact hs
  | method _ hname hother =>
    refine ⟨fun c s hs => ?_, fun method hm => List.mem_append_left _ hm, fun method hm => ?_,
      fun _ => id, fun _ => .inl, hrendered, [], by simp⟩
    · cases c <;> exact hs
    · rcases List.mem_append.mp hm with hm | hm
      · exact .inl hm
      · obtain rfl := List.mem_singleton.mp hm
        exact .inr (hname ▸ hother)
  | literal h =>
    refine ⟨fun c s hs => ?_, fun _ => id, fun _ => .inl, fun _ => id, fun _ => .inl, hrendered,
      [], by simp⟩
    cases c <;> exact hs

theorem foldlM_grows {members : List Member} {f f' : Findings}
    (hlies : ∀ member ∈ members, member.Lies m ∧ member.range.start < member.range.stop)
    (h : members.foldlM (add m receivers) f = .ok f') : Grows members f f' := by
  induction members generalizing f with
  | nil =>
    cases h
    exact .refl f'
  | cons member members ih =>
    obtain ⟨g, hg, h⟩ := bind_eq_ok h
    obtain ⟨hl, hlt⟩ := hlies member (by simp)
    exact ((add_adds hg).grows hm hl hlt).trans (ih (fun a ha => hlies a (by simp [ha])) h)

end Growing

/-- The number of warnings about exactly this range. -/
def reports (f : Findings) (range : Span) : Nat := f.warnings.countP (·.range == range)

theorem countP_of_apart {ws : List Warning} {r : Span}
    (h : ∀ w ∈ ws, ∃ range : Span, w.Within range ∧ range.stop ≤ Span.limit ∧ range.Apart r) :
    ws.countP (·.range == r) = 0 := by
  refine List.countP_eq_zero.mpr fun w hw => ?_
  obtain ⟨range, hin, hlimit, hapart⟩ := h w hw
  simpa using hin.ne_of_apart hlimit hapart

/-- Members that lie apart from a range add no warnings about it. -/
theorem Grows.reports_eq {members : List Member} {f f' : Findings} {r : Span}
    (h : Grows members f f') (hapart : ∀ a ∈ members, a.range.stop ≤ Span.limit ∧ a.range.Apart r) :
    f'.reports r = f.reports r := by
  obtain ⟨ws, hws, hin⟩ := h.warnings
  have hzero : ws.countP (·.range == r) = 0 := countP_of_apart fun w hw => by
    obtain ⟨a, ha, hw⟩ := hin w hw
    exact ⟨a.range, hw, hapart a ha⟩
  rw [reports, reports, hws, List.countP_append, hzero, Nat.add_zero]

theorem reports_warn (f : Findings) (notice : Notice) (range : Span) :
    (f.warn notice range).reports range = f.reports range + 1 := by
  simp [reports, warn]

end Findings

/-- What a warning about a class body is about: a place where no member could be read, a member that
is left out, or a statement of a constructor. -/
inductive Reported (m : CodeMap) (receivers : List Text) : Warning → Prop
  | lost {line : Text} {start resume : Nat} {w : Warning} (hwhole : m.Whole start resume)
      (h : Warning.about (.undelimitedMember line) start resume = .ok w) : Reported m receivers w
  | member {member : Member} {notice : Notice}
      (hwhole : m.Whole member.range.start member.range.stop)
      (h : Findings.Drops m member notice) : Reported m receivers ⟨notice, member.range.clamp⟩
  | statement {parts : FunctionParts} {dropped : List Warning} {w : Warning}
      (h : droppedStatements m receivers parts = .ok dropped) (hw : w ∈ dropped) :
      Reported m receivers w

theorem Findings.Adds.reported {m : CodeMap} {receivers : List Text} {f f' : Findings}
    {member : Member} (h : Adds m receivers f member f')
    (hwhole : m.Whole member.range.start member.range.stop)
    (hf : ∀ w ∈ f.warnings, Reported m receivers w) : ∀ w ∈ f'.warnings, Reported m receivers w := by
  intro w hw
  cases h with
  | drop hdrops =>
    rcases List.mem_append.mp hw with hw | hw
    · exact hf w hw
    · exact List.mem_singleton.mp hw ▸ .member hwhole hdrops
  | constructor _ _ hdropped =>
    exact (List.mem_append.mp hw).elim (hf w) (.statement hdropped)
  | callback => exact hf w (by simpa using hw)
  | _ => exact hf w hw

section Extraction

variable {t : Text} {receivers : List Text} {header : Match} {body : Span} {found : Findings}
  {render : FunctionParts} {pieces : Snippet × Snippet}
  (hx : Extracts t receivers header body found render pieces)
include hx

/-- What is known of everything that is found in a class body, if each member keeps it. -/
theorem Extracts.induction {P : Findings → Prop}
    (hstart : ∀ assigned listing, Member.Listing.Reads (ofText t) body.stop listing →
      P ⟨assigned, none, none, [], none, listing.warnings⟩)
    (hstep : ∀ {f f' member}, (ofText t).Whole member.range.start member.range.stop →
      Findings.Adds (ofText t) receivers f member f' → P f → P f') : P found := by
  obtain ⟨hwhole, hend⟩ := classBody?_spec (Scan.ofText_shows t) hx.hbody
  obtain ⟨listing, hlisting, hfound⟩ := bind_eq_ok hx.hfound
  obtain ⟨assigned, -, hfound⟩ := bind_eq_ok hfound
  have hreads := (listFrom_reads rfl hend hwhole.left).of_eq hlisting
  refine foldlM_eq_ok hfound (hstart assigned listing hreads) fun f member hmember f' hf hadd => ?_
  obtain ⟨start, next, hwhole, hread⟩ := hreads.members member hmember
  have hreading := (read_reading rfl hwhole hend).of_eq hread
  exact hstep (hreading.range_whole rfl hwhole hend) (Findings.add_adds hadd) hf

theorem Extracts.reported : ∀ w ∈ found.warnings, Reported (ofText t) receivers w := by
  refine hx.induction (P := fun f => ∀ w ∈ f.warnings, Reported (ofText t) receivers w)
    (fun _ listing hreads w hw => ?_) fun hwhole hadds hf => hadds.reported hwhole hf
  obtain ⟨line, start, resume, hwhole, h⟩ := hreads.warnings w hw
  exact .lost hwhole h

end Extraction

section Accounting

/-- A snippet is reported where it was cut out, if positions are not too large to be reported. -/
theorem range_of_is {m : CodeMap} {ps : Painted} (hm : m.Shows ps)
    (hsize : m.size ≤ Span.limit) {s : Snippet} {start stop : Nat} (h : s.Is m start stop) :
    s.range = ⟨start, stop⟩ := by
  obtain ⟨u, hu, -⟩ := bind_eq_ok h
  have hw := (whole_of_slice hm hu).1
  rw [((Snippet.cut_yields hm hw).of_eq h).2.2]
  exact Span.clamp_of_le hw.le (le_trans (isBoundary_le hm hw.right) hsize)

/-- What is cut out of a render method starts where its body starts. -/
theorem prelude_of_splitRender {m : CodeMap} {body : Body} {p : Snippet × Snippet}
    (h : splitRender m body = .ok p) : ∃ stop, p.1.Is m body.range.start stop := by
  cases body with
  | expression range =>
    obtain ⟨prelude, hprelude, h⟩ := bind_eq_ok h
    obtain ⟨template, -, h⟩ := bind_eq_ok h
    cases h
    exact ⟨_, check_eq_ok hprelude⟩
  | block range =>
    obtain ⟨returns, -, h⟩ := bind_eq_ok h
    cases hlast : returns.getLast? with
    | none =>
      rw [hlast] at h
      cases h
    | some ret =>
      rw [hlast] at h
      dsimp only at h
      split at h
      · cases h
      split at h
      · cases h
      obtain ⟨prelude, hprelude, h⟩ := bind_eq_ok h
      obtain ⟨template, -, h⟩ := bind_eq_ok h
      cases h
      exact ⟨_, check_eq_ok hprelude⟩

variable {t : Text} {receivers : List Text} {header : Match} {body : Span} {found : Findings}
  {render : FunctionParts} {pieces : Snippet × Snippet}
  (hx : Extracts t receivers header body found render pieces) (hsize : (ofText t).size ≤ Span.limit)
  {before after : List Member} {member : Member} {f₀ f₁ f₂ : Findings}
  (hbefore : Findings.Grows before f₀ f₁) (hnew : f₀.render = none)
  (hadds : Findings.Adds (ofText t) receivers f₁ member f₂) (hafter : Findings.Grows after f₂ found)
include hx hsize hbefore hnew hadds hafter

omit hx hsize hbefore hnew hafter in
/-- A member that is overlooked adds no warning. -/
theorem reports_of_overlooks {c : Component} (h : c.Overlooks (ofText t) before member)
    (range : Span) : f₂.reports range = f₁.reports range := by
  cases h with
  | render hrenders => rw [hadds.of_renders hrenders, Findings.reports, Findings.reports]
  | state hholds => rw [Findings.reports, Findings.reports, hadds.of_holdsState hholds]

/-- A member that is not overlooked is in the component, or it is dropped with a warning. -/
theorem represents_or_warns
    (h : ¬(of header.group found pieces).Overlooks (ofText t) before member) :
    (of header.group found pieces).Represents (ofText t) member ∨
      ∃ notice, f₂ = f₁.warn notice member.range.clamp := by
  cases hadds with
  | drop => exact .inr ⟨_, rfl⟩
  | constructor hkind hname => exact .inl (.constructor hkind hname)
  | @render parts hrenders =>
    cases hfirst : f₁.render with
    | none =>
      have hkept := hafter.render parts (by simp [hfirst])
      obtain rfl := Option.some.inj (hkept.symm.trans hx.hrender)
      exact .inl (.render hrenders.kind hrenders.name hx.hpieces)
    | some kept =>
      rcases hbefore.source kept hfirst with hnone | ⟨first, hmem, hfirst⟩
      · rw [hnew] at hnone
        cases hnone
      · exact absurd (.render hrenders hmem hfirst) h
  | @callback parts callback body hkind hname _ hbody =>
    have hkept := hafter.callback callback body (by simp)
    refine .inl (.callback hkind hname ?_ hbody)
    cases callback <;> exact hkept
  | method hkind hname _ hbody =>
    exact .inl (.method hkind (hafter.methods _ (by simp)) hname hbody)
  | @literal value _ hholds =>
    -- Were the initializer cut out elsewhere, the literal would be overlooked.
    obtain ⟨s, hs, hstart⟩ : ∃ s, (of header.group found pieces).state = some s ∧
        s.range.start = value.start := by
      by_contra hnone
      exact h (.state hholds fun s hs hstart => hnone ⟨s, hs, hstart⟩)
    have hm := Scan.ofText_shows t
    obtain ⟨hwhole, hend⟩ := classBody?_spec hm hx.hbody
    obtain ⟨l, hl, rfl⟩ := Option.map_eq_some_iff.mp hs
    obtain ⟨o, close, hmatch, hcut⟩ := ((findings_yields rfl receivers hwhole hend).of_eq
      hx.hfound).literals l (mem_of_earliest hl)
    obtain rfl : o = value.start := by rw [← hstart, range_of_is hm hsize hcut]
    exact .inl (.state hholds.kind hholds.name hs hmatch hcut)

/-- A member that is overlooked is not in the component. -/
theorem not_represents (hlies : ∀ a ∈ before, a.Lies (ofText t))
    (hlies' : member.Lies (ofText t))
    (hordered : ∀ a ∈ before, a.range.stop ≤ member.range.start)
    (hnamed : ∀ method ∈ found.methods, method.name ≠ "render")
    (h : (of header.group found pieces).Overlooks (ofText t) before member) :
    ¬(of header.group found pieces).Represents (ofText t) member := by
  have hm := Scan.ofText_shows t
  cases h with
  | @render first parts parts' hrenders hmem hfirst =>
    -- Render is taken from a member before this one, so its body starts elsewhere.
    obtain ⟨kept, hkept⟩ := Option.isSome_iff_exists.mp (hbefore.rendered first hmem _ hfirst)
    obtain ⟨a, ha, hrendersA⟩ := (hbefore.source kept hkept).resolve_left (by simp [hnew])
    have hfound := hafter.render kept (by simp [hadds.of_renders hrenders, hkept])
    obtain rfl := Option.some.inj (hfound.symm.trans hx.hrender)
    obtain ⟨stop, hprelude⟩ := prelude_of_splitRender hx.hpieces
    have hinA := ((hlies a ha).inside _ hrendersA.kind).2
    have hleA := ((hlies a ha).parts _ hrendersA.kind).body.whole.le
    have hin := (hlies'.inside _ hrenders.kind).1
    have hbefore := hordered a ha
    rintro (⟨-, hname⟩ | ⟨hkind, -, hsplit⟩ | ⟨-, hname, -⟩ | ⟨-, hmethod, hname, -⟩ | ⟨hkind, -⟩)
    · exact absurd (hrenders.name.symm.trans hname) (by decide)
    · obtain rfl := MemberKind.function.inj (hrenders.kind.symm.trans hkind)
      obtain ⟨stop', hprelude'⟩ := prelude_of_splitRender hsplit
      have hsame := (range_of_is hm hsize hprelude).symm.trans (range_of_is hm hsize hprelude')
      have := congrArg Span.start hsame
      dsimp only at this
      omega
    · rw [hrenders.name, Findings.ofCallback?_render] at hname
      cases hname
    · exact hnamed _ hmethod (hname.trans hrenders.name)
    · cases hrenders.kind.symm.trans hkind
  | @state value hholds hother =>
    rintro (⟨hkind, -⟩ | ⟨hkind, -⟩ | ⟨hkind, -⟩ | ⟨hkind, -⟩ | ⟨hkind, -, hs, -, hcut⟩)
    · cases hholds.kind.symm.trans hkind
    · cases hholds.kind.symm.trans hkind
    · cases hholds.kind.symm.trans hkind
    · cases hholds.kind.symm.trans hkind
    · cases hholds.kind.symm.trans hkind
      exact hother _ hs (by rw [range_of_is hm hsize hcut])

end Accounting

/-- Every member of the class is in the component or one warning is about it, but for those that are
overlooked, which are neither. -/
theorem members_used_or_reported {t : Text} {receivers : List Text} {c : Component}
    (hsize : t.size ≤ Span.limit) (h : extract t receivers = .ok c) :
    ∃ header body listing, findDeclaration? (ofText t) t = some header ∧
      classBody? (ofText t) header = some body ∧
      Member.list (ofText t) body.start body.stop = .ok listing ∧
      ∀ before member after, listing.members = before ++ member :: after →
        ((c.Represents (ofText t) member ∨ c.reports member.range = 1) ↔
          ¬c.Overlooks (ofText t) before member) ∧
        (c.Overlooks (ofText t) before member → c.reports member.range = 0) := by
  obtain ⟨header, body, found, render, pieces, hx, rfl⟩ := extract_iff.mp h
  have hm := Scan.ofText_shows t
  obtain ⟨hwhole, hend⟩ := classBody?_spec hm hx.hbody
  obtain ⟨listing, hlist, hfold⟩ := bind_eq_ok hx.hfound
  obtain ⟨assigned, -, hfold⟩ := bind_eq_ok hfold
  have hlies := (list_yields rfl hwhole hend).of_eq hlist
  obtain ⟨hinside, hordered, hapart⟩ := list_disjoint rfl hwhole hend hlist
  have hlimit : (ofText t).size ≤ Span.limit := by
    rwa [size_eq_width hm, Slot.width, Scan.kinds_chars]
  have hstop : body.stop ≤ Span.limit := le_trans (isBoundary_le hm hwhole.right) hlimit
  have hnamed : ∀ method ∈ found.methods, method.name ≠ "render" := fun method hmethod =>
    ((Findings.foldlM_grows hm (fun a ha => ⟨hlies a ha, (hinside a ha).2.1⟩) hfold).named method
      hmethod).resolve_left (by simp)
  refine ⟨header, body, listing, hx.hheader, hx.hbody, hlist, fun before member after hsplit => ?_⟩
  rw [hsplit] at hfold hlies hinside hordered hapart
  simp only [List.pairwise_append, List.pairwise_cons] at hordered
  obtain ⟨-, ⟨hbehind, -⟩, hahead⟩ := hordered
  have hfirst : ∀ a ∈ before, a.range.stop ≤ member.range.start :=
    fun a ha => hahead a ha member (by simp)
  rw [List.foldlM_append] at hfold
  obtain ⟨f₁, hf₁, hfold⟩ := bind_eq_ok hfold
  rw [List.foldlM_cons] at hfold
  obtain ⟨f₂, hf₂, hf₃⟩ := bind_eq_ok hfold
  have hbefore := Findings.foldlM_grows hm
    (fun a ha => ⟨hlies a (by simp [ha]), (hinside a (by simp [ha])).2.1⟩) hf₁
  have hadds := Findings.add_adds hf₂
  have hafter := Findings.foldlM_grows hm
    (fun a ha => ⟨hlies a (by simp [ha]), (hinside a (by simp [ha])).2.1⟩) hf₃
  -- Only this member can add a warning about its own range.
  have hone : f₁.reports member.range = 0 := by
    rw [hbefore.reports_eq fun a ha => ⟨le_trans (hinside a (by simp [ha])).2.2 hstop,
      .inl (hfirst a ha)⟩]
    refine Findings.countP_of_apart fun w hw => ?_
    obtain ⟨range, hin, hle, hfar⟩ := hapart w hw
    exact ⟨range, hin, le_trans hle hstop, hfar member (by simp)⟩
  have hlast : (of header.group found pieces).reports member.range = f₂.reports member.range :=
    hafter.reports_eq fun a ha =>
      ⟨le_trans (hinside a (by simp [ha])).2.2 hstop, .inr (hbehind a ha)⟩
  rw [hlast]
  refine ⟨⟨?_, fun hno => ?_⟩, fun hover => ?_⟩
  · rintro (hrep | hreport) hover
    · exact not_represents hx hlimit hbefore rfl hadds hafter (fun a ha => hlies a (by simp [ha]))
        (hlies member (by simp)) hfirst hnamed hover hrep
    · rw [reports_of_overlooks hadds hover, hone] at hreport
      cases hreport
  · rcases represents_or_warns hx hlimit hbefore rfl hadds hafter hno with hrep | ⟨notice, rfl⟩
    · exact .inl hrep
    · have hmember := hinside member (by simp)
      rw [show member.range.clamp = member.range from
        Span.clamp_of_le (le_of_lt hmember.2.1) (le_trans hmember.2.2 hstop),
        Findings.reports_warn, hone]
      exact .inr rfl
  · rw [reports_of_overlooks hadds hover, hone]

theorem body_eq_of_bind {t : Text} {header : Match} {body range : Span}
    (hheader : findDeclaration? (ofText t) t = some header)
    (hbody : classBody? (ofText t) header = some body)
    (h : (findDeclaration? (ofText t) t).bind (classBody? (ofText t)) = some range) :
    body = range := by
  rw [hheader, Option.bind_some, hbody] at h
  exact Option.some.inj h

/-- A class with two render methods. -/
def rerenderedSource : Text :=
  "class A extends Component\x7brender()\x7breturn 1\x7drender()\x7breturn 2\x7d\x7d"

/-- What is found in it. -/
def rerendered : Component where
  name := "A"
  state := none
  mount := none
  unmount := none
  methods := []
  prelude := ⟨"", ⟨35, 35⟩⟩
  template := ⟨"1", ⟨42, 43⟩⟩
  warnings := []

theorem extract_rerendered : extract rerenderedSource ["this"] = .ok rerendered := by
  decide +kernel

/-- The first of its methods. -/
def firstRender : Member where
  name := "render"
  isStatic := false
  range := ⟨26, 44⟩
  kind := .function ⟨false, ⟨33, 33⟩, .block ⟨35, 43⟩⟩

/-- The second of its methods. -/
def secondRender : Member where
  name := "render"
  isStatic := false
  range := ⟨44, 62⟩
  kind := .function ⟨false, ⟨51, 51⟩, .block ⟨53, 61⟩⟩

theorem list_rerendered : Member.list (ofText rerenderedSource) 26 62 =
    .ok ⟨[firstRender, secondRender], []⟩ := by
  decide +kernel

theorem classBody?_rerendered : (findDeclaration? (ofText rerenderedSource) rerenderedSource).bind
    (classBody? (ofText rerenderedSource)) = some ⟨26, 62⟩ := by
  decide +kernel

/-- The first of them is in the component, or a warning is about it; no warning is about the second,
which is overlooked. -/
theorem members_used_or_reported_rerendered :
    Text.size rerenderedSource ≤ Span.limit ∧ extract rerenderedSource ["this"] = .ok rerendered ∧
      (rerendered.Represents (ofText rerenderedSource) firstRender ∨
        rerendered.reports firstRender.range = 1) ∧
      rerendered.Overlooks (ofText rerenderedSource) [firstRender] secondRender ∧
      rerendered.reports secondRender.range = 0 := by
  have hsize : Text.size rerenderedSource ≤ Span.limit := by decide
  obtain ⟨header, body, listing, hheader, hbody, hlist, h⟩ :=
    members_used_or_reported hsize extract_rerendered
  obtain rfl := body_eq_of_bind hheader hbody classBody?_rerendered
  obtain rfl := Except.ok.inj (list_rerendered.symm.trans hlist)
  have hover : rerendered.Overlooks (ofText rerenderedSource) [firstRender] secondRender :=
    .render ⟨rfl, rfl, rfl⟩ (List.mem_singleton.mpr rfl) ⟨rfl, rfl, rfl⟩
  refine ⟨hsize, extract_rerendered, (h [] firstRender [secondRender] rfl).1.mpr ?_, hover,
    (h [firstRender] secondRender [] rfl).2 hover⟩
  rintro (⟨-, hmem, -⟩ | ⟨hstate, -⟩)
  · cases hmem
  · cases hstate.kind

/-- A second render method is left out, and no warning says so. -/
theorem second_render_unreported :
    extract rerenderedSource ["this"] = .ok rerendered ∧
      (findDeclaration? (ofText rerenderedSource) rerenderedSource).bind
        (classBody? (ofText rerenderedSource)) = some ⟨26, 62⟩ ∧
      (∃ listing, Member.list (ofText rerenderedSource) 26 62 = .ok listing ∧
        secondRender ∈ listing.members) ∧
      ¬rerendered.Represents (ofText rerenderedSource) secondRender ∧
      rerendered.reports secondRender.range = 0 := by
  refine ⟨extract_rerendered, classBody?_rerendered, ⟨_, list_rerendered, by simp⟩, ?_, rfl⟩
  rintro (⟨-, hname⟩ | ⟨hkind, -, hsplit⟩ | ⟨-, hname, -⟩ | ⟨-, hmethod, -⟩ | ⟨hkind, -⟩)
  · exact absurd hname (by decide)
  · cases hkind
    exact absurd hsplit (by decide +kernel)
  · cases hname.symm.trans Findings.ofCallback?_render
  · cases hmethod
  · cases hkind

end Component

end Declass
