import Declass.Component
import Declass.FixedModule
import Declass.Reference
import Declass.StateModel

/-!
# Conversion

**Input.** A component: its identifier and the source text of its module.

**Algorithm.** The pieces of the class component are resolved one by one and written down in the
order in which a function component needs them: state, effect, methods, the statements of render,
and the returned template.

**Results.** `convert` gives the new module with warnings, or why there is none.  `transform` never
fails: what cannot be converted is passed through unchanged, and well-known components are replaced
by their fixed modules.
-/

namespace Declass

/-- The words that stand for the instance, and whether well-known components have fixed modules. -/
structure Options where
  receivers : List Text
  fixedModules : Bool
  deriving DecidableEq, Repr

def Options.default : Options := ⟨["this", "self"], true⟩

/-- The fixed module that replaces a component of this identifier. -/
def Options.fixedModule? (o : Options) (identifier : Text) : Option FixedModule :=
  if o.fixedModules then FixedModule.lookup? identifier else none

/-- A new module and what was reported on the way. -/
structure Conversion where
  code : Text
  warnings : List Warning
  deriving DecidableEq, Repr

namespace Conversion

/-- The import line, which names only the hooks that are used. -/
def importLine (usesState usesEffect : Bool) : Text :=
  let state : List Text := if usesState then ["useState"] else []
  let effect : List Text := if usesEffect then ["useEffect"] else []
  let hooks := state ++ effect
  if hooks.isEmpty then "import React from 'react';"
  else "import React, \x7b " ++ Text.join ", " hooks ++ " \x7d from 'react';"

/-- A state entry as a declaration, with its resolved initial value. -/
def stateLine (name value : Text) : Text :=
  "  const [" ++ name ++ ", " ++ setterName name ++ "] = useState(" ++ value ++ ");\n"

/-- A method as a declaration, with its resolved body. -/
def methodSection (method : Method) (body : Text) : Text :=
  let async : Text := if method.isAsync then "async " else ""
  let head : Text := "  const " ++ method.name ++ " = " ++ async ++ "(" ++ method.params ++ ") => "
  match method.form with
  | .block =>
    let block := Layout.reindent body "    "
    if block.isEmpty then head ++ "\x7b\x7d;\n" else head ++ "\x7b\n" ++ block ++ "\n  \x7d;\n"
  | .expression => head ++ body.trim ++ ";\n"

def preludeSections (prelude : Text) : List Text :=
  let placed := Layout.reindent prelude "  "
  if placed.isEmpty then [] else [placed ++ "\n"]

def templateSection (template : Text) : Text :=
  "  return (\n" ++ Layout.templateIndent ++ Layout.alignTemplate template ++ "\n  );\n"

def moduleText (name imports : Text) (sections : List Text) : Text :=
  imports ++ "\n\nfunction " ++ name ++ "(props) \x7b\n" ++ Text.join "\n" sections
    ++ "\x7d\n\nexport default " ++ name ++ ";\n"

/-- The warnings with each reduced member reported once. -/
def reportOnce : List Notice → List Warning → List Warning
  | _, [] => []
  | seen, w :: ws =>
    if w.notice.isFlattening then
      if seen.contains w.notice then reportOnce seen ws else w :: reportOnce (w.notice :: seen) ws
    else w :: reportOnce seen ws

/-- A snippet resolved at its place in the source. -/
def resolveSnippet (r : Resolver) (s : Snippet) : Except Fault Resolved :=
  r.resolve s.text s.range.start

/-- An optional snippet resolved at its place in the source. -/
def resolveOption (r : Resolver) : Option Snippet → Except Fault (Option Text × List Warning)
  | none => .ok (none, [])
  | some s => do
    let resolved ← resolveSnippet r s
    return (some resolved.text, resolved.warnings)

/-- The module for the pieces of a class component. -/
def assemble (component : Component) (receivers : List Text) : Except Fault Conversion := do
  let state ← StateModel.build component.state
  let r : Resolver :=
    ⟨state.entries.map (·.name), component.methods.map (·.name), receivers⟩
  let values ← state.entries.mapM fun entry => r.resolve entry.value entry.range.start
  let stateLines := (state.entries.zip values).flatMap fun (entry, value) =>
    stateLine entry.name value.text
  let (setup, setupWarnings) ← resolveOption r component.mount
  let (cleanup, cleanupWarnings) ← resolveOption r component.unmount
  let effect := Effect.ofBodies? setup cleanup
  let bodies ← component.methods.mapM fun method => resolveSnippet r method.body
  let methodSections := (component.methods.zip bodies).map fun (method, body) =>
    methodSection method body.text
  let prelude ← r.resolve (← r.stripDestructuring component.prelude.text)
    component.prelude.range.start
  let template ← resolveSnippet r component.template
  let warnings := component.warnings ++ state.warnings ++ values.flatMap (·.warnings)
    ++ setupWarnings ++ cleanupWarnings ++ bodies.flatMap (·.warnings)
    ++ prelude.warnings ++ template.warnings
  let sections := (if state.entries.isEmpty then [] else [stateLines])
    ++ effect.toList.map Effect.render ++ methodSections
    ++ preludeSections prelude.text ++ [templateSection template.text]
  return {
    code := moduleText component.name
      (importLine (!state.entries.isEmpty) effect.isSome) sections
    warnings := reportOnce [] warnings }

end Conversion

/-- The module that a class component is converted to. -/
def convert (t : Text) (receivers : List Text) : Except Failure Conversion := do
  let component ← Component.extract t receivers
  Failure.check (Conversion.assemble component receivers)

/-- Why a source is passed through unchanged. -/
inductive PassReason where
  | refused (refusal : Refusal)
  | internalFault (message : Text)
  deriving DecidableEq, Repr

def PassReason.message : PassReason → Text
  | refused .notAClassComponent => "not a class component"
  | refused .noRenderExpression => "no render return expression"
  | internalFault message => "internal fault: " ++ message

/-- What became of a component. -/
inductive Outcome where
  | fixed
  | converted
  | passedThrough (reason : PassReason)
  deriving DecidableEq, Repr

def Outcome.isPassedThrough : Outcome → Bool
  | passedThrough _ => true
  | _ => false

/-- The text that replaces a component's module, and how it came about. -/
structure Transformed where
  code : Text
  outcome : Outcome
  warnings : List Warning
  deriving DecidableEq, Repr

def Transformed.unchanged (t : Text) (reason : PassReason) : Transformed :=
  ⟨t, .passedThrough reason, []⟩

@[simp] theorem Transformed.unchanged_code (t : Text) (reason : PassReason) :
    (unchanged t reason).code = t := rfl

/-- The text that replaces the module of a component. -/
def transform (identifier t : Text) (o : Options) : Except Fault Transformed :=
  match o.fixedModule? identifier with
  | some entry => .ok ⟨entry.output, .fixed, []⟩
  | none =>
    match convert t o.receivers with
    | .ok conversion => .ok ⟨conversion.code, .converted, conversion.warnings⟩
    | .error (.refused refusal) => .ok (.unchanged t (.refused refusal))
    | .error (.fault fault) => .error fault

end Declass
