import Declass.Proofs.Assembly
import Declass.Proofs.AsyncDeclarations
import Declass.Proofs.MemberUse

/-!
# Async functions of a module

**Input.** A class component that is converted, and a member whose body gets into the module.

**Algorithm.** What one more member does to the methods and the lifecycle callbacks is said once, in
`Takes`, and followed through the class body.  The function of the module that holds a body is a
`Holder`: the text of a method is that of its holder, and the text of an effect contains the holders
of its two bodies.

**Results.** `async_kept_iff`: a method is held by an async function if and only if it is declared
async.  The functions that hold the bodies of lifecycle callbacks never are.
-/

namespace Declass

open CodeMap

namespace Component

section Bodies

/-- The snippet is the body of the member. -/
def BodyOf (m : CodeMap) (member : Member) (s : Snippet) : Prop :=
  ∃ parts, member.kind = .function parts ∧ s.Is m parts.body.range.start parts.body.range.stop

/-- The method is what was made of the member. -/
structure MethodOf (m : CodeMap) (member : Member) (method : Method) : Prop where
  name : method.name = member.name
  parts : ∃ parts, member.kind = .function parts ∧ method.isAsync = parts.isAsync
  body : BodyOf m member method.body

/-- What one more member does to the methods and the lifecycle callbacks. -/
inductive Findings.Takes (m : CodeMap) (f : Findings) (member : Member) (f' : Findings) : Prop
  | method {method : Method} (hmember : isMethod member = true) (h : MethodOf m member method)
      (hmethods : f'.methods = f.methods ++ [method]) (hcallbacks : f'.callback? = f.callback?)
  | callback {callback : Lifecycle} {s : Snippet} (hmember : isCallback callback member = true)
      (h : BodyOf m member s) (hnew : f.callback? callback = none)
      (hmethods : f'.methods = f.methods)
      (hcallbacks : f'.callback? = fun other =>
        if callback = other then some s else f.callback? other)
  | other (hmember : isMethod member = false)
      (hold : ∀ callback, isCallback callback member = true → f.callback? callback ≠ none)
      (hmethods : f'.methods = f.methods) (hcallbacks : f'.callback? = f.callback?)

variable {m : CodeMap} {receivers : List Text} {f f' : Findings} {member : Member}
  {callback : Lifecycle} {members : List Member}

theorem isMethod_eq_false_of_name (h : member.name = "constructor" ∨ member.name = "render") :
    isMethod member = false := by
  rcases h with h | h <;> simp [isMethod, h]

theorem isMethod_eq_false_of_callback (h : Lifecycle.ofCallback? member.name = some callback) :
    isMethod member = false := by
  simp [isMethod, h]

theorem Findings.callback?_warn (f : Findings) (notice : Notice) (range : Span) :
    (f.warn notice range).callback? = f.callback? := by
  funext callback
  cases callback <;> rfl

theorem Findings.Drops.not_method {notice : Notice} (h : Drops m member notice) :
    isMethod member = false := by
  cases h with
  | again _ hname => exact isMethod_eq_false_of_callback hname
  | unsupported hname =>
    rw [isMethod, isFunction, hname]
    rfl
  | static hstatic => simp [isMethod, isFunction, hstatic]
  | accessor hkind => simp [isMethod, isFunction, hkind]
  | field hkind _ => simp [isMethod, isFunction, hkind]

theorem Findings.add_takes (h : add m receivers f member = .ok f') : f.Takes m member f' := by
  have hname : ∀ {name : Text}, member.name = name → Lifecycle.ofCallback? name = none →
      ∀ callback, isCallback callback member → f.callback? callback ≠ none := by
    intro name hname hnone callback hcallback
    rw [isCallback, hname, hnone] at hcallback
    simp at hcallback
  cases add_adds h with
  | drop hdrops hold => exact .other hdrops.not_method hold rfl (callback?_warn f _ _)
  | constructor _ hconstructor =>
    exact .other (isMethod_eq_false_of_name (.inl hconstructor)) (hname hconstructor (by decide)) rfl
      (funext fun callback => by cases callback <;> rfl)
  | render hrenders =>
    exact .other (isMethod_eq_false_of_name (.inr hrenders.name))
      (hname hrenders.name ofCallback?_render) rfl (funext fun callback => by cases callback <;> rfl)
  | callback hkind _ hnew hbody hmember =>
    exact .callback hmember ⟨_, hkind, hbody⟩ hnew (withCallback_methods f _ _)
      (funext fun other => callback?_withCallback f _ _ other)
  | method hkind hname _ hbody hasync hmember =>
    exact .method hmember ⟨hname, ⟨_, hkind, hasync⟩, _, hkind, hbody⟩ rfl
      (funext fun callback => by cases callback <;> rfl)
  | literal hholds _ =>
    refine .other ?_ (hname hholds.name (by decide)) rfl
      (funext fun callback => by cases callback <;> rfl)
    simp [isMethod, isFunction, hholds.kind]

section

variable (h : members.foldlM (Findings.add m receivers) f = .ok f')
include h

theorem foldlM_methods : ∃ methods, f'.methods = f.methods ++ methods ∧
      List.Forall₂ (MethodOf m) (members.filter isMethod) methods := by
  induction members generalizing f with
  | nil =>
    cases h
    exact ⟨[], by simp, .nil⟩
  | cons member members ih =>
    obtain ⟨g, hg, h⟩ := bind_eq_ok h
    obtain ⟨methods, hmethods, hpaired⟩ := ih h
    cases Findings.add_takes hg with
    | @method method hmember hmethod hadded =>
      refine ⟨method :: methods, by simp [hmethods, hadded], ?_⟩
      rw [List.filter_cons_of_pos hmember]
      exact .cons hmethod hpaired
    | callback hmember _ _ hsame =>
      obtain ⟨-, hname⟩ := Bool.and_eq_true_iff.mp hmember
      rw [List.filter_cons_of_neg (by
        rw [isMethod_eq_false_of_callback (eq_of_beq hname)]; simp)]
      exact ⟨methods, by rw [hmethods, hsame], hpaired⟩
    | other hmember _ hsame =>
      rw [List.filter_cons_of_neg (by rw [hmember]; simp)]
      exact ⟨methods, by rw [hmethods, hsame], hpaired⟩

theorem foldlM_callback_kept {s : Snippet} (hs : f.callback? callback = some s) :
    f'.callback? callback = some s := by
  refine foldlM_eq_ok (P := fun f => f.callback? callback = some s) h hs ?_
  intro f member _ f' hs hadd
  cases Findings.add_takes hadd with
  | method _ _ _ hcallbacks => rwa [hcallbacks]
  | other _ _ _ hcallbacks => rwa [hcallbacks]
  | callback _ _ hnew _ hcallbacks =>
    rw [hcallbacks]
    dsimp only
    rw [if_neg, hs]
    rintro rfl
    rw [hs] at hnew
    cases hnew

theorem foldlM_callback (hnone : f.callback? callback = none) :
    Option.Rel (BodyOf m) (members.find? (isCallback callback)) (f'.callback? callback) := by
  induction members generalizing f with
  | nil =>
    cases h
    rw [hnone]
    exact .none
  | cons member members ih =>
    obtain ⟨g, hg, h⟩ := bind_eq_ok h
    cases hmember : isCallback callback member with
    | true =>
      rw [List.find?_cons_of_pos hmember]
      cases Findings.add_takes hg with
      | method hmethod =>
        obtain ⟨-, hname⟩ := Bool.and_eq_true_iff.mp hmember
        rw [isMethod_eq_false_of_callback (eq_of_beq hname)] at hmethod
        cases hmethod
      | other _ hold => exact absurd hnone (hold callback hmember)
      | @callback other s hother hbody _ _ hcallbacks =>
        obtain ⟨-, hname⟩ := Bool.and_eq_true_iff.mp hmember
        obtain ⟨-, hname'⟩ := Bool.and_eq_true_iff.mp hother
        obtain rfl := Option.some.inj ((eq_of_beq hname').symm.trans (eq_of_beq hname))
        have hfound : g.callback? other = some s := by simp [hcallbacks]
        rw [foldlM_callback_kept h hfound]
        exact .some hbody
    | false =>
      rw [List.find?_cons_of_neg (by simp [hmember])]
      refine ih h ?_
      cases Findings.add_takes hg with
      | method _ _ _ hcallbacks => rw [hcallbacks, hnone]
      | other _ _ _ hcallbacks => rw [hcallbacks, hnone]
      | @callback other s hother _ _ _ hcallbacks =>
        rw [hcallbacks]
        dsimp only
        rw [if_neg, hnone]
        rintro rfl
        rw [hother] at hmember
        cases hmember

end

/-- The methods and the callbacks of a component are those of the members of its class. -/
theorem Extracts.bodies {t : Text} {header : Match} {body : Span} {found : Findings}
    {render : FunctionParts} {pieces : Snippet × Snippet}
    (h : Extracts t receivers header body found render pieces) :
    ∃ listing, Member.list (ofText t) body.start body.stop = .ok listing ∧
      List.Forall₂ (MethodOf (ofText t)) (listing.members.filter isMethod)
        (of header.group found pieces).methods ∧
      ∀ callback, Option.Rel (BodyOf (ofText t)) (listing.members.find? (isCallback callback))
        ((of header.group found pieces).callback? callback) := by
  obtain ⟨listing, hlist, hfold⟩ := bind_eq_ok h.hfound
  obtain ⟨assigned, -, hfold⟩ := bind_eq_ok hfold
  obtain ⟨methods, hmethods, hpaired⟩ := foldlM_methods hfold
  refine ⟨listing, hlist, ?_, fun callback => ?_⟩
  · rw [show (of header.group found pieces).methods = methods from hmethods]
    exact hpaired
  · exact foldlM_callback hfold (by cases callback <;> rfl)

end Bodies

end Component

namespace Conversion

section Holders

/-- A function of the module: what it is for, whether it is async, its parameters, what stands
between its arrow and the body it holds, the body, and the rest. -/
structure Holder where
  opening : Text
  isAsync : Bool
  params : Text
  brace : Text
  body : Text
  closing : Text

namespace Holder

variable {e : Effect} {body : Text}

/-- The text of the function. -/
def text (h : Holder) : Text :=
  let async : Text := if h.isAsync then "async " else ""
  h.opening ++ async ++ "(" ++ h.params ++ ") => " ++ h.brace ++ h.body ++ h.closing

/-- The function holds the body, resolved and laid out, with nothing but a brace in between: no
function lies between the two. -/
structure Holds (m : CodeMap) (r : Resolver) (holder : Holder) (member : Member) : Prop where
  brace : holder.brace ∈ (["\x7b", "\x7b\n", ""] : List Text)
  body : ∃ s resolved, Component.BodyOf m member s ∧ resolveSnippet r s = .ok resolved ∧
    (holder.body = resolved.text.trim ∨
      ∃ indent, holder.body = Layout.reindent resolved.text indent)

/-- The function that holds the resolved body of a method. -/
def ofMethod (method : Method) (body : Text) : Holder :=
  let opening := "  const " ++ method.name ++ " = "
  match method.form with
  | .block =>
    let block := Layout.reindent body "    "
    if block.isEmpty then ⟨opening, method.isAsync, method.params, "\x7b", block, "\x7d;\n"⟩
    else ⟨opening, method.isAsync, method.params, "\x7b\n", block, "\n  \x7d;\n"⟩
  | .expression => ⟨opening, method.isAsync, method.params, "", body.trim, ";\n"⟩

theorem ofMethod_text (method : Method) (body : Text) :
    (ofMethod method body).text = methodSection method body := by
  obtain ⟨name, params, isAsync, form, snippet⟩ := method
  cases form with
  | block =>
    unfold ofMethod methodSection text
    dsimp only
    split
    · rename_i hempty
      rw [List.isEmpty_iff] at hempty
      rw [hempty, List.append_nil, List.append_assoc _ ("\x7b" : Text)]
      rfl
    · rfl
  | expression => exact congrArg (· ++ body.trim ++ (";\n" : Text)) (List.append_nil _)

theorem ofMethod_isAsync (method : Method) (body : Text) :
    (ofMethod method body).isAsync = method.isAsync := by
  unfold ofMethod
  split
  · dsimp only
    split <;> rfl
  · rfl

theorem ofMethod_opening (method : Method) (body : Text) :
    (ofMethod method body).opening = "  const " ++ method.name ++ " = " := by
  unfold ofMethod
  split
  · dsimp only
    split <;> rfl
  · rfl

/-- The function that holds a method holds what the method was made of. -/
theorem ofMethod_holds {m : CodeMap} {r : Resolver} {member : Member} {method : Method}
    {resolved : Resolved} (h : Component.MethodOf m member method)
    (hresolved : resolveSnippet r method.body = .ok resolved) :
    (ofMethod method resolved.text).Holds m r member := by
  unfold ofMethod
  split
  · dsimp only
    split
    · exact ⟨by simp, _, _, h.body, hresolved, .inr ⟨_, rfl⟩⟩
    · exact ⟨by simp, _, _, h.body, hresolved, .inr ⟨_, rfl⟩⟩
  · exact ⟨by simp, _, _, h.body, hresolved, .inl rfl⟩

/-- What stands in front of the function that holds the body of a lifecycle callback. -/
def opener : Lifecycle → Text
  | .mount => "  useEffect("
  | .unmount => "    return "

/-- The function is not async and holds the body, laid out, for a lifecycle callback. -/
structure Runs (callback : Lifecycle) (body : Text) (holder : Holder) : Prop where
  opening : holder.opening = opener callback
  isAsync : holder.isAsync = false
  brace : holder.brace = "\x7b\n"
  body : ∃ indent, holder.body = Layout.reindent body indent

theorem bodyBlock_eq (body indent : Text) :
    ∃ rest, Effect.bodyBlock body indent = Layout.reindent body indent ++ rest := by
  unfold Effect.bodyBlock
  dsimp only
  split
  · rename_i hempty
    exact ⟨[], by simpa using hempty⟩
  · exact ⟨_, rfl⟩

/-- The function that an effect runs holds the body for appearing. -/
theorem exists_setup (h : e.setup = some body) :
    ∃ holder : Holder, holder.text <:+: e.render ∧ holder.Runs .mount body := by
  obtain ⟨rest, hrest⟩ := bodyBlock_eq body "    "
  refine ⟨⟨opener .mount, false, "", "\x7b\n", Layout.reindent body "    ", []⟩, ?_,
    rfl, rfl, rfl, _, rfl⟩
  have htext : Holder.text ⟨opener .mount, false, "", "\x7b\n", Layout.reindent body "    ", []⟩ =
      "  useEffect(() => \x7b\n" ++ Layout.reindent body "    " := List.append_nil _
  unfold Effect.render
  rw [htext, h]
  dsimp only
  rw [hrest, ← List.append_assoc]
  exact ((List.prefix_append _ rest).trans
    ((List.prefix_append _ _).trans (List.prefix_append _ _))).isInfix

/-- The function that an effect returns holds the body for disappearing. -/
theorem exists_cleanup (h : e.cleanup = some body) :
    ∃ holder : Holder, holder.text <:+: e.render ∧ holder.Runs .unmount body := by
  obtain ⟨rest, hrest⟩ := bodyBlock_eq body "      "
  refine ⟨⟨opener .unmount, false, "", "\x7b\n", Layout.reindent body "      ", []⟩, ?_,
    rfl, rfl, rfl, _, rfl⟩
  have htext : Holder.text
      ⟨opener .unmount, false, "", "\x7b\n", Layout.reindent body "      ", []⟩ =
        "    return () => \x7b\n" ++ Layout.reindent body "      " := List.append_nil _
  unfold Effect.render
  rw [htext, h]
  dsimp only
  rw [hrest]
  -- The returned function comes behind the other body, and perhaps an empty line.
  refine List.IsInfix.trans ?_ (List.prefix_append _ _).isInfix
  refine List.IsInfix.trans ?_ (List.suffix_append _ _).isInfix
  refine List.IsInfix.trans ?_ (List.prefix_append _ _).isInfix
  rw [List.append_assoc]
  exact (List.prefix_append _ rest).isInfix.trans (List.suffix_append _ _).isInfix

/-- The body that an effect runs for a lifecycle callback. -/
def bodyFor? (e : Effect) : Lifecycle → Option Text
  | .mount => e.setup
  | .unmount => e.cleanup

theorem exists_runs {callback : Lifecycle} (h : bodyFor? e callback = some body) :
    ∃ holder : Holder, holder.text <:+: e.render ∧ holder.Runs callback body := by
  cases callback with
  | mount => exact exists_setup h
  | unmount => exact exists_cleanup h

end Holder

variable {p : Parts} {c : Component} {receivers : List Text} {m : CodeMap}

theorem resolveOption_some {r : Resolver} {s : Snippet} {out : Option Text × List Warning}
    (h : resolveOption r (some s) = .ok out) :
    ∃ resolved, resolveSnippet r s = .ok resolved ∧ out.1 = some resolved.text := by
  obtain ⟨resolved, hresolved, h⟩ := bind_eq_ok h
  cases h
  exact ⟨resolved, hresolved, rfl⟩

/-- The body of a lifecycle callback gets into the effect, resolved. -/
theorem Parts.From.effect_body (hp : p.From c receivers) {callback : Lifecycle} {s : Snippet}
    (hs : c.callback? callback = some s) : ∃ e resolved, p.effect = some e ∧
      resolveSnippet (p.resolver c receivers) s = .ok resolved ∧
      Holder.bodyFor? e callback = some resolved.text := by
  cases callback with
  | mount =>
    have hsetup := hp.setup
    rw [show c.mount = some s from hs] at hsetup
    obtain ⟨resolved, hresolved, hout⟩ := resolveOption_some hsetup
    refine ⟨⟨p.setup.1, p.cleanup.1⟩, resolved, ?_, hresolved, hout⟩
    rw [Parts.effect, hout]
    rfl
  | unmount =>
    have hcleanup := hp.cleanup
    rw [show c.unmount = some s from hs] at hcleanup
    obtain ⟨resolved, hresolved, hout⟩ := resolveOption_some hcleanup
    refine ⟨⟨p.setup.1, p.cleanup.1⟩, resolved, ?_, hresolved, hout⟩
    rw [Parts.effect, hout]
    cases p.setup.1 <;> rfl

/-- The function that holds the body of a lifecycle callback is not async. -/
theorem Parts.From.exists_callback_holder (hp : p.From c receivers) {callback : Lifecycle}
    {member : Member} {s : Snippet} (hbody : Component.BodyOf m member s)
    (hs : c.callback? callback = some s) :
    ∃ holder : Holder, holder.text <:+: (p.conversion c).code ∧
      holder.opening = Holder.opener callback ∧
      holder.Holds m (p.resolver c receivers) member ∧ holder.isAsync = false := by
  obtain ⟨e, resolved, heffect, hresolved, htext⟩ := hp.effect_body hs
  obtain ⟨holder, hinfix, hruns⟩ := Holder.exists_runs htext
  have hsection : e.render ∈ p.sections c := by simp [Parts.sections, heffect]
  exact ⟨holder, hinfix.trans (Parts.infix_code hsection), hruns.opening,
    ⟨by simp [hruns.brace], s, resolved, hbody, hresolved, .inr hruns.body⟩, hruns.isAsync⟩

/-- The functions that hold the methods. -/
def Parts.holders (p : Parts) (c : Component) : List Holder :=
  (c.methods.zip p.bodies).map fun (method, body) => Holder.ofMethod method body.text

/-- The methods of the module are these functions, between the effect and the statements of
render. -/
theorem Parts.sections_eq (p : Parts) (c : Component) :
    ∃ front back, p.sections c = front ++ (p.holders c).map Holder.text ++ back := by
  have hmethods : (c.methods.zip p.bodies).map (fun (method, body) =>
      methodSection method body.text) = (p.holders c).map Holder.text := by
    rw [Parts.holders, List.map_map]
    exact List.map_congr_left fun q _ => (Holder.ofMethod_text q.1 q.2.text).symm
  rw [Parts.sections, hmethods, List.append_assoc]
  exact ⟨_, _, rfl⟩

/-- The methods are held one by one, each as async as it was read. -/
theorem Parts.From.holders (hp : p.From c receivers) {members : List Member}
    (h : List.Forall₂ (Component.MethodOf m) members c.methods) :
    List.Forall₂ (fun member (holder : Holder) =>
      holder.opening = "  const " ++ member.name ++ " = " ∧
      holder.Holds m (p.resolver c receivers) member ∧
      ∃ parts, member.kind = .function parts ∧ holder.isAsync = parts.isAsync)
      members (p.holders c) := by
  have hbodies := mapM_eq_ok hp.bodies
  unfold Parts.holders
  generalize p.bodies = bodies at hbodies
  generalize c.methods = methods at h hbodies
  induction h generalizing bodies with
  | nil =>
    exact .nil
  | @cons member method members methods hmethod _ ih =>
    cases hbodies with
    | cons hresolved hbodies =>
      obtain ⟨parts, hkind, hasync⟩ := hmethod.parts
      refine .cons ⟨?_, Holder.ofMethod_holds hmethod hresolved, parts, hkind, ?_⟩ (ih _ hbodies)
      · rw [← hmethod.name]
        exact Holder.ofMethod_opening method _
      · rw [← hasync]
        exact Holder.ofMethod_isAsync method _

end Holders

/-- Something is said about a part of the range. -/
def Reports (conv : Conversion) (range : Span) : Prop :=
  ∃ w ∈ conv.warnings, range.start ≤ w.range.start ∧ w.range.stop ≤ range.stop

/-- A member that is declared async is held by an async function, or a warning lies in it. -/
def KeepsAsync (conv : Conversion) (m : CodeMap) (stop : Nat) (member : Member) (holder : Holder) :
    Prop :=
  member.DeclaredAsync m stop → holder.isAsync = true ∨ conv.Reports member.range

end Conversion

open Conversion Component in
/-- The methods of the class are held by functions of the module, one by one, and such a function is
async if and only if the method is declared so.  The function that holds the body of a lifecycle
callback never is: if the callback is declared async, only a warning about something else can say
so. -/
theorem async_kept_iff {t : Text} {receivers : List Text} {conv : Conversion}
    (h : convert t receivers = .ok conv) :
    ∃ header body listing c p, findDeclaration? (ofText t) t = some header ∧
      classBody? (ofText t) header = some body ∧
      Member.list (ofText t) body.start body.stop = .ok listing ∧
      extract t receivers = .ok c ∧ Parts.From p c receivers ∧
      (∃ imports front holders back,
        conv.code = moduleText header.group imports (front ++ holders.map Holder.text ++ back) ∧
        List.Forall₂ (fun member (holder : Holder) =>
          holder.opening = "  const " ++ member.name ++ " = " ∧
          holder.Holds (ofText t) (p.resolver c receivers) member ∧
          (holder.isAsync = true ↔ member.DeclaredAsync (ofText t) body.stop) ∧
          conv.KeepsAsync (ofText t) body.stop member holder)
          (listing.members.filter isMethod) holders) ∧
      ∀ callback member, listing.members.find? (isCallback callback) = some member →
        ∃ holder : Holder, holder.text <:+: conv.code ∧ holder.opening = Holder.opener callback ∧
          holder.Holds (ofText t) (p.resolver c receivers) member ∧ holder.isAsync = false ∧
          (conv.KeepsAsync (ofText t) body.stop member holder ↔
            (member.DeclaredAsync (ofText t) body.stop → conv.Reports member.range)) := by
  obtain ⟨c, hc, h⟩ := bind_eq_ok h
  obtain ⟨p, hp, rfl⟩ := assemble_iff.mp (check_eq_ok h)
  obtain ⟨header, body, found, render, pieces, hx, rfl⟩ := extract_iff.mp hc
  obtain ⟨listing, hlist, hmethods, hcallbacks⟩ := hx.bodies
  refine ⟨header, body, listing, _, p, hx.hheader, hx.hbody, hlist, hc, hp, ?_, ?_⟩
  · obtain ⟨front, back, hsections⟩ := p.sections_eq (of header.group found pieces)
    refine ⟨_, front, _, back, congrArg (moduleText _ _) hsections, ?_⟩
    have hheld := (List.forall₂_and_left _ _).mpr ⟨fun member hmem => hmem, hp.holders hmethods⟩
    refine hheld.imp fun member holder ⟨hmem, hopening, hholds, parts, hkind, hasync⟩ => ?_
    have hiff : holder.isAsync = true ↔ member.DeclaredAsync (ofText t) body.stop := by
      rw [hasync]
      exact Member.isAsync_iff_declaredAsync (Scan.ofText_shows t) hlist
        (List.mem_of_mem_filter hmem) hkind
    exact ⟨hopening, hholds, hiff, fun hdeclared => .inl (hiff.mpr hdeclared)⟩
  · intro callback member hmember
    have hrel := hcallbacks callback
    rw [hmember] at hrel
    obtain ⟨s, hs, hbody⟩ : ∃ s, (of header.group found pieces).callback? callback = some s ∧
        BodyOf (ofText t) member s := by
      cases hs : (of header.group found pieces).callback? callback with
      | none => rw [hs] at hrel; cases hrel
      | some s =>
        rw [hs] at hrel
        cases hrel with
        | some hbody => exact ⟨s, rfl, hbody⟩
    obtain ⟨holder, hinfix, hopening, hholds, hasync⟩ := hp.exists_callback_holder hbody hs
    exact ⟨holder, hinfix, hopening, hholds, hasync, by simp [KeepsAsync, hasync]⟩

/-- A class with an async method and an async lifecycle callback. -/
def asyncSource : Text :=
  "class A extends Component\x7basync f()\x7bawait 0\x7dasync componentDidMount()\x7bawait f()\x7d"
    ++ "render()\x7breturn 0\x7d\x7d"

/-- The method. -/
def asyncMethod : Member where
  name := "f"
  isStatic := false
  range := ⟨26, 44⟩
  kind := .function ⟨true, ⟨34, 34⟩, .block ⟨36, 43⟩⟩

/-- What the class is converted to. -/
def asyncConversion : Conversion where
  code := "import React, \x7b useEffect \x7d from 'react';\n\nfunction A(props) \x7b\n"
    ++ "  useEffect(() => \x7b\n    await f()\n  \x7d, []);\n\n"
    ++ "  const f = async () => \x7b\n    await 0\n  \x7d;\n\n"
    ++ "  return (\n    0\n  );\n\x7d\n\nexport default A;\n"
  warnings := []

open Conversion Component in
/-- The function that holds the body of the method is async, and the one that holds the body of the
callback is not. -/
theorem async_kept_iff_awaiting :
    convert asyncSource ["this"] = .ok asyncConversion ∧
    (∃ (holder : Holder) (name imports : Text) (front back : List Text),
      asyncConversion.code = moduleText name imports (front ++ [holder.text] ++ back) ∧
      holder.opening = "  const f = " ∧ holder.isAsync = true) ∧
    ∃ holder : Holder, holder.text <:+: asyncConversion.code ∧
      holder.opening = Holder.opener .mount ∧ holder.isAsync = false := by
  have hconvert : convert asyncSource ["this"] = .ok asyncConversion := by decide +kernel
  have hmembers : Member.list (ofText asyncSource) 26 98 = .ok ⟨[asyncMethod,
      ⟨"componentDidMount", false, ⟨44, 80⟩, .function ⟨true, ⟨68, 68⟩, .block ⟨70, 79⟩⟩⟩,
      ⟨"render", false, ⟨80, 98⟩, .function ⟨false, ⟨87, 87⟩, .block ⟨89, 97⟩⟩⟩], []⟩ := by
    decide +kernel
  obtain ⟨header, body, listing, c, p, hheader, hbody, hlist, -, -,
    ⟨imports, front, holders, back, hcode, hholders⟩, hcallbacks⟩ := async_kept_iff hconvert
  obtain rfl : body = ⟨26, 98⟩ := body_eq_of_bind hheader hbody (by decide +kernel)
  obtain rfl := Except.ok.inj (hmembers.symm.trans hlist)
  obtain ⟨holder, rest, ⟨hopening, -, hiff, -⟩, hrest, rfl⟩ :=
    List.forall₂_cons_left_iff.mp hholders
  obtain rfl := List.forall₂_nil_left_iff.mp hrest
  have hasync : holder.isAsync = true := hiff.mpr
    ((Member.isAsync_iff_declaredAsync (Scan.ofText_shows _) hmembers (by simp) rfl).mp rfl)
  obtain ⟨effect, hinfix, hopener, -, hnot, -⟩ := hcallbacks .mount _ rfl
  exact ⟨hconvert, ⟨holder, _, imports, front, back, hcode, hopening, hasync⟩,
    effect, hinfix, hopener, hnot⟩

/-- A class with an async lifecycle callback. -/
def awaitingSource : Text :=
  "class A extends Component\x7basync componentDidMount()\x7bawait f()\x7d"
    ++ "render()\x7breturn 0\x7d\x7d"

/-- What it is converted to. -/
def awaitingConversion : Conversion where
  code := "import React, \x7b useEffect \x7d from 'react';\n\nfunction A(props) \x7b\n"
    ++ "  useEffect(() => \x7b\n    await f()\n  \x7d, []);\n\n  return (\n    0\n  );\n\x7d\n\n"
    ++ "export default A;\n"
  warnings := []

theorem convert_awaiting : convert awaitingSource ["this"] = .ok awaitingConversion := by
  decide +kernel

/-- The callback. -/
def awaitingMount : Member where
  name := "componentDidMount"
  isStatic := false
  range := ⟨26, 62⟩
  kind := .function ⟨true, ⟨50, 50⟩, .block ⟨52, 61⟩⟩

/-- The members of the class. -/
def awaitingMembers : List Member :=
  [awaitingMount, ⟨"render", false, ⟨62, 80⟩, .function ⟨false, ⟨69, 69⟩, .block ⟨71, 79⟩⟩⟩]

open Conversion Component in
/-- The callback is declared async and awaits a call, but the effect function that holds its body is
not async, and nothing is reported. -/
theorem async_mount_lost :
    convert awaitingSource ["this"] = .ok awaitingConversion ∧
      Member.list (ofText awaitingSource) 26 80 = .ok ⟨awaitingMembers, []⟩ ∧
      awaitingMembers.find? (isCallback .mount) = some awaitingMount ∧
      awaitingMount.DeclaredAsync (ofText awaitingSource) 80 ∧
      ∀ holder : Holder, holder.opening = Holder.opener .mount →
        holder.text <:+: awaitingConversion.code →
        ¬awaitingConversion.KeepsAsync (ofText awaitingSource) 80 awaitingMount holder := by
  have hlist : Member.list (ofText awaitingSource) 26 80 = .ok ⟨awaitingMembers, []⟩ := by
    decide +kernel
  have hdeclared : awaitingMount.DeclaredAsync (ofText awaitingSource) 80 :=
    (Member.isAsync_iff_declaredAsync (Scan.ofText_shows _) hlist (by simp [awaitingMembers])
      rfl).mp rfl
  refine ⟨convert_awaiting, hlist, by decide, hdeclared, ?_⟩
  intro holder hopening hinfix hkeeps
  rcases hkeeps hdeclared with hasync | ⟨w, hw, -⟩
  · -- The word would have to stand behind the opening of the effect.
    have hstarts : Holder.opener .mount ++ ("async " : Text) <+: holder.text := by
      simp [Holder.text, hopening, hasync]
    exact absurd (hstarts.isInfix.trans hinfix) (by decide +kernel)
  · cases hw

end Declass
