import Declass.Proofs.References
import Declass.Conversion

/-!
# How a conversion is put together

**Input.** A component and the words that stand for the instance.

**Results.** `assemble_yields`: the pieces of an extracted component can always be resolved and put
together, so that `convert_faultless` holds.  `assemble_iff` takes the result apart again: it is
made of `Parts`, and each of them depends on one piece of the component and on the names in it.
-/

namespace Declass

open CodeMap

theorem resolveOption_yields {r : Resolver} (hr : [] ∉ r.receivers) (s : Option Snippet) :
    Yields (Conversion.resolveOption r s) fun _ => True := by
  cases s with
  | none => exact .ok trivial
  | some s => exact (Resolver.resolve_yields hr _ _).bind fun _ _ => .ok trivial

/-- The pieces of a component can always be put together. -/
theorem assemble_yields {m : CodeMap} {ps : Painted} (hm : m.Shows ps) {c : Component}
    (hc : c.Lies m) {receivers : List Text} (hr : [] ∉ receivers) :
    Yields (Conversion.assemble c receivers) fun _ => True := by
  refine (StateModel.build_yields hm hc.state).bind fun state _ => ?_
  generalize hresolver : Resolver.mk (state.entries.map (·.name)) (c.methods.map (·.name))
    receivers = r
  replace hr : [] ∉ r.receivers := by
    rw [← hresolver]
    exact hr
  refine (Yields.mapM fun entry _ =>
    Resolver.resolve_yields hr entry.value _).bind fun values _ => ?_
  refine (resolveOption_yields hr c.mount).bind fun setup _ => ?_
  refine (resolveOption_yields hr c.unmount).bind fun cleanup _ => ?_
  refine (Yields.mapM fun (method : Method) _ =>
    Resolver.resolve_yields hr method.body.text _).bind fun bodies _ => ?_
  refine (r.stripDestructuring_yields c.prelude.text).bind fun stripped _ => ?_
  refine (Resolver.resolve_yields hr stripped _).bind fun prelude _ => ?_
  exact (Resolver.resolve_yields hr c.template.text _).bind fun template _ => .ok trivial

/-- A conversion gives a module or is refused. -/
theorem convert_faultless (t : Text) {receivers : List Text} (hr : [] ∉ receivers) :
    Faultless (convert t receivers) fun _ => True :=
  (Component.extract_faultless t receivers).bind fun _ hc =>
    Faultless.check (assemble_yields (Scan.ofText_shows t) hc hr)

namespace Conversion

/-- The pieces of a component with their references resolved. -/
structure Parts where
  model : StateModel
  values : List Resolved
  setup : Option Text × List Warning
  cleanup : Option Text × List Warning
  bodies : List Resolved
  stripped : Text
  prelude : Resolved
  template : Resolved

namespace Parts

/-- What the references are resolved against. -/
def resolver (p : Parts) (c : Component) (receivers : List Text) : Resolver :=
  ⟨p.model.entries.map (·.name), c.methods.map (·.name), receivers⟩

/-- The parts are those of the component. -/
structure From (p : Parts) (c : Component) (receivers : List Text) : Prop where
  model : StateModel.build c.state = .ok p.model
  values : (p.model.entries.mapM fun entry =>
    (p.resolver c receivers).resolve entry.value entry.range.start) = .ok p.values
  setup : resolveOption (p.resolver c receivers) c.mount = .ok p.setup
  cleanup : resolveOption (p.resolver c receivers) c.unmount = .ok p.cleanup
  bodies : (c.methods.mapM fun method =>
    resolveSnippet (p.resolver c receivers) method.body) = .ok p.bodies
  stripped : (p.resolver c receivers).stripDestructuring c.prelude.text = .ok p.stripped
  prelude : (p.resolver c receivers).resolve p.stripped c.prelude.range.start = .ok p.prelude
  template : resolveSnippet (p.resolver c receivers) c.template = .ok p.template

/-- The effect of the lifecycle callbacks. -/
def effect (p : Parts) : Option Effect := Effect.ofBodies? p.setup.1 p.cleanup.1

/-- The sections of the function in their order. -/
def sections (p : Parts) (c : Component) : List Text :=
  (if p.model.entries.isEmpty then []
    else [(p.model.entries.zip p.values).flatMap fun (entry, value) =>
      stateLine entry.name value.text])
    ++ p.effect.toList.map Effect.render
    ++ (c.methods.zip p.bodies).map (fun (method, body) => methodSection method body.text)
    ++ preludeSections p.prelude.text ++ [templateSection p.template.text]

/-- The warnings in their order, before repetitions are left out. -/
def warnings (p : Parts) (c : Component) : List Warning :=
  c.warnings ++ p.model.warnings ++ p.values.flatMap (·.warnings) ++ p.setup.2 ++ p.cleanup.2
    ++ p.bodies.flatMap (·.warnings) ++ p.prelude.warnings ++ p.template.warnings

/-- The module and what is reported about it. -/
def conversion (p : Parts) (c : Component) : Conversion :=
  ⟨moduleText c.name (importLine (!p.model.entries.isEmpty) p.effect.isSome) (p.sections c),
    reportOnce [] (p.warnings c)⟩

end Parts

/-- A conversion is put together from the parts of the component. -/
theorem assemble_iff {c : Component} {receivers : List Text} {conv : Conversion} :
    assemble c receivers = .ok conv ↔ ∃ p : Parts, p.From c receivers ∧ conv = p.conversion c := by
  constructor
  · intro h
    obtain ⟨model, hmodel, h⟩ := bind_eq_ok h
    obtain ⟨values, hvalues, h⟩ := bind_eq_ok h
    obtain ⟨setup, hsetup, h⟩ := bind_eq_ok h
    obtain ⟨cleanup, hcleanup, h⟩ := bind_eq_ok h
    obtain ⟨bodies, hbodies, h⟩ := bind_eq_ok h
    obtain ⟨stripped, hstripped, h⟩ := bind_eq_ok h
    obtain ⟨prelude, hprelude, h⟩ := bind_eq_ok h
    obtain ⟨template, htemplate, h⟩ := bind_eq_ok h
    exact ⟨⟨model, values, setup, cleanup, bodies, stripped, prelude, template⟩,
      ⟨hmodel, hvalues, hsetup, hcleanup, hbodies, hstripped, hprelude, htemplate⟩,
      (Except.ok.inj h).symm⟩
  · rintro ⟨p, hp, rfl⟩
    refine (bind_of_eq_ok hp.model).trans ?_
    refine (bind_of_eq_ok hp.values).trans ?_
    refine (bind_of_eq_ok hp.setup).trans ?_
    refine (bind_of_eq_ok hp.cleanup).trans ?_
    refine (bind_of_eq_ok hp.bodies).trans ?_
    refine (bind_of_eq_ok hp.stripped).trans ?_
    refine (bind_of_eq_ok hp.prelude).trans ?_
    exact bind_of_eq_ok hp.template

theorem infix_join {sep s : Text} {l : List Text} (h : s ∈ l) : s <:+: Text.join sep l := by
  induction l with
  | nil => exact absurd h List.not_mem_nil
  | cons u l ih =>
    cases l with
    | nil =>
      obtain rfl : s = u := by simpa using h
      exact List.infix_refl _
    | cons v l =>
      have hjoin : Text.join sep (u :: v :: l) = u ++ sep ++ Text.join sep (v :: l) := rfl
      rw [hjoin]
      rcases List.mem_cons.mp h with rfl | h
      · exact ⟨[], sep ++ Text.join sep (v :: l), by simp⟩
      · exact (ih h).trans (List.suffix_append _ _).isInfix

theorem Parts.infix_code {p : Parts} {c : Component} {s : Text} (h : s ∈ p.sections c) :
    s <:+: (p.conversion c).code := by
  have hjoin : Text.join "\n" (p.sections c) <:+: (p.conversion c).code := by
    refine List.IsInfix.trans ?_ (List.prefix_append _ _).isInfix
    refine List.IsInfix.trans ?_ (List.prefix_append _ _).isInfix
    exact (List.suffix_append _ _).isInfix.trans (List.prefix_append _ _).isInfix
  exact (infix_join h).trans hjoin

/-- Only what is said about a reduced member is left out as said before. -/
theorem mem_reportOnce {w : Warning} (hw : w.notice.isFlattening = false) {ws : List Warning}
    {seen : List Notice} (h : w ∈ ws) : w ∈ reportOnce seen ws := by
  induction ws generalizing seen with
  | nil => exact absurd h List.not_mem_nil
  | cons v ws ih =>
    rw [reportOnce]
    rcases List.mem_cons.mp h with rfl | h
    · simp [hw]
    · split
      · split
        · exact ih h
        · exact List.mem_cons_of_mem _ (ih h)
      · exact List.mem_cons_of_mem _ (ih h)

end Conversion

end Declass
