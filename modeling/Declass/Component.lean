import Declass.Member
import Declass.Pattern

/-!
# Class components

**Input.** The source text of a module, and the words that stand for the instance.

**Algorithm.** The first class declaration in code that extends a component is found, its body is
split into members, and each member is put to its use: the state initializer, the two lifecycle
callbacks, the methods, and the render method, which is cut into the statements before its last
return and the expression returned.

**Results.** `Component.extract` gives the pieces, or says why the source has none.
-/

namespace Declass

/-- Why a source is not converted. -/
inductive Refusal where
  | notAClassComponent
  | noRenderExpression
  deriving DecidableEq, Repr

def Refusal.message : Refusal → Text
  | notAClassComponent => "no class component declaration found"
  | noRenderExpression => "class component has no render return expression"

/-- How an extraction can end without a component. -/
inductive Failure where
  | refused (refusal : Refusal)
  | fault (fault : Fault)
  deriving DecidableEq, Repr

def Failure.check {α : Type} (step : Except Fault α) : Except Failure α := step.mapError .fault

/-- The form of a method body. -/
inductive BodyForm where
  | block
  | expression
  deriving DecidableEq, Repr

/-- A method that is neither lifecycle callback nor render. -/
structure Method where
  name : Text
  params : Text
  isAsync : Bool
  form : BodyForm
  body : Snippet
  deriving DecidableEq, Repr

/-- The pieces of a class component. -/
structure Component where
  name : Text
  state : Option Snippet
  mount : Option Snippet
  unmount : Option Snippet
  methods : List Method
  prelude : Snippet
  template : Snippet
  warnings : List Warning
  deriving DecidableEq, Repr

namespace Component

section Declaration

/-- A class declaration that extends a component; its group is the class name. -/
def declaration : Pattern where
  before := .seq [.edge, .word "class", .spaces1]
  group := .name
  after := .seq [.spaces1, .word "extends", .spaces1,
    .opt (.seq [.name, .spaces, .one (· == '.'), .spaces]),
    .opt (.word "Pure"), .word "Component", .edge]

/-- The first class declaration that starts in code. -/
def findDeclaration? (m : CodeMap) (t : Text) : Option Match :=
  (declaration.occurrences t).find? fun found => m.isCode found.start

/-- Whether the source declares a class component. -/
def isClass (t : Text) : Bool := (findDeclaration? (CodeMap.ofText t) t).isSome

end Declaration

section StateAssignment

/-- An assignment of an object literal to the state of a receiver. -/
def stateAssignment (receivers : List Text) : Pattern where
  before := .seq [.edge, .anyWord receivers, .spaces, .one (· == '.'), .spaces, .word "state",
    .spaces, .one (· == '='), .spaces, .one (· == '\x7b')]
  group := .skip
  after := .skip

/-- The state assignments in a text; there are none without receivers. -/
def stateAssignments (receivers : List Text) (t : Text) : List Match :=
  if receivers.isEmpty then [] else (stateAssignment receivers).occurrences t

/-- The literal of the first state assignment in code between `start` and `stop`, with the
position of the assignment. -/
def assignedState (m : CodeMap) (receivers : List Text) (start stop : Nat) :
    Except Fault (List (Nat × Snippet)) := do
  let body ← m.slice start stop
  match (stateAssignments receivers body).find? fun found => m.isCode (start + found.start) with
  | none => return []
  | some found =>
    let brace := start + found.stop - 1
    match m.matching brace with
    | none => return []
    | some close => return [(start + found.start, ← Snippet.cut m brace (close + 1))]

end StateAssignment

section Constructor

/-- Whether a constructor statement has a counterpart in a function component: the call of the super
class, the binding of a method, the state assignment. -/
def hasCounterpart (m : CodeMap) (receivers : List Text) (start : Nat) (statement : Text) :
    Except Fault Bool := do
  return (← m.wordAt start "super") || Text.contains ".bind(" statement
    || !(stateAssignments receivers statement).isEmpty

/-- The warning about a constructor statement in a range, if it is dropped. -/
def droppedStatement (m : CodeMap) (receivers : List Text) (part : Span) :
    Except Fault (List Warning) := do
  let start := m.skipTrivia part.start part.stop
  if part.stop ≤ start then return []
  let stop := m.trimTrivia start part.stop
  let statement ← m.slice start stop
  if ← hasCounterpart m receivers start statement then return []
  return [← Warning.about (.constructorStatementDropped statement.firstLine.trim) start stop]

/-- The warnings about the statements of a constructor that are dropped. -/
def droppedStatements (m : CodeMap) (receivers : List Text) (parts : FunctionParts) :
    Except Fault (List Warning) :=
  match parts.body with
  | .expression _ => .ok []
  | .block range => do
    return (← (m.splitTop range.start range.stop ';').mapM (droppedStatement m receivers)).flatten

end Constructor

section Render

/-- The text of a range without one pair of parentheses around the whole of it. -/
def unwrapParens (m : CodeMap) (start stop : Nat) : Except Fault Snippet :=
  if m.isCodeChar start '(' && m.matching start == some (stop - 1) then
    Snippet.cut m (start + 1) (stop - 1)
  else Snippet.cut m start stop

/-- The statements before the last return of a render body, and the expression returned.  Markup
that the scan left as code has no known extent and is refused. -/
def splitRender (m : CodeMap) : Body → Except Failure (Snippet × Snippet)
  | .block range => do
    let returns ← Failure.check (m.keywords range.start range.stop "return")
    let some ret := returns.getLast? | throw (.refused .noRenderExpression)
    let start := m.skipTrivia (ret + Text.size "return") range.stop
    if m.isCodeChar start '<' then throw (.refused .noRenderExpression)
    let stop := m.trimTrivia start ((m.findTop start range.stop ';').getD range.stop)
    if stop ≤ start then throw (.refused .noRenderExpression)
    let prelude ← Failure.check (Snippet.cut m range.start ret)
    return (prelude, ← Failure.check (unwrapParens m start stop))
  | .expression range => do
    let prelude ← Failure.check (Snippet.cut m range.start range.start)
    return (prelude, ← Failure.check (unwrapParens m range.start range.stop))

end Render

section Members

/-- Lifecycle callbacks that no effect stands for. -/
def unsupportedCallbacks : List Text :=
  ["componentDidUpdate", "shouldComponentUpdate", "getSnapshotBeforeUpdate", "componentDidCatch",
   "componentWillMount", "componentWillReceiveProps", "componentWillUpdate",
   "UNSAFE_componentWillMount", "UNSAFE_componentWillReceiveProps", "UNSAFE_componentWillUpdate",
   "getDerivedStateFromProps", "getDerivedStateFromError"]

/-- What the members read so far amount to.  Each state literal comes with the position that decides
which of several is the initializer. -/
structure Findings where
  literals : List (Nat × Snippet)
  mount : Option Snippet
  unmount : Option Snippet
  methods : List Method
  render : Option FunctionParts
  warnings : List Warning
  deriving DecidableEq, Repr

namespace Findings

/-- With a warning about the whole member, which lies in `range`. -/
def warn (f : Findings) (notice : Notice) (range : Span) : Findings :=
  { f with warnings := f.warnings ++ [⟨notice, range⟩] }

/-- With a lifecycle callback, of which only the first is kept. -/
def addCallback (f : Findings) (m : CodeMap) (callback : Lifecycle) (range : Span)
    (parts : FunctionParts) : Except Fault Findings := do
  let kept := match callback with
    | .mount => f.mount
    | .unmount => f.unmount
  if kept.isSome then return f.warn (.duplicateLifecycle callback) range
  else
    let body ← Snippet.cut m parts.body.range.start parts.body.range.stop
    match callback with
    | .mount => return { f with mount := some body }
    | .unmount => return { f with unmount := some body }

def addMethod (f : Findings) (m : CodeMap) (member : Member) (parts : FunctionParts) :
    Except Fault Findings := do
  let params ← m.slice parts.params.start parts.params.stop
  let form := match parts.body with
    | .block _ => BodyForm.block
    | .expression _ => .expression
  let body ← Snippet.cut m parts.body.range.start parts.body.range.stop
  let method : Method := ⟨member.name, params.trim, parts.isAsync, form, body⟩
  return { f with methods := f.methods ++ [method] }

def addFunction (f : Findings) (m : CodeMap) (receivers : List Text) (member : Member)
    (range : Span) (parts : FunctionParts) : Except Fault Findings := do
  if member.name == "constructor" then
    let dropped ← droppedStatements m receivers parts
    return { f with warnings := f.warnings ++ dropped }
  else if member.name == "render" then
    return { f with render := f.render.orElse fun _ => some parts }
  else
    match Lifecycle.ofCallback? member.name with
    | some callback => f.addCallback m callback range parts
    | none => f.addMethod m member parts

/-- With a field.  A field named state whose value is a literal is a state literal. -/
def addField (f : Findings) (m : CodeMap) (member : Member) (range : Span)
    (value : Option Span) : Except Fault Findings := do
  match value.filter fun v => member.name == "state" && m.isCodeChar v.start '\x7b' with
  | some v =>
    match m.matching v.start with
    | some close =>
      let literal ← Snippet.cut m v.start (close + 1)
      return { f with literals := f.literals ++ [(v.start, literal)] }
    | none => return f
  | none => return f.warn (.fieldDropped member.name) range

def add (m : CodeMap) (receivers : List Text) (f : Findings) (member : Member) :
    Except Fault Findings := do
  let range ← Span.reported member.range.start member.range.stop
  if unsupportedCallbacks.contains member.name then
    return f.warn (.unsupportedLifecycle member.name) range
  else if member.isStatic then return f.warn (.staticDropped member.name) range
  else
    match member.kind with
    | .function parts => f.addFunction m receivers member range parts
    | .field value => f.addField m member range value
    | .accessor => return f.warn (.accessorDropped member.name) range

end Findings

/-- The literal with the least position; of several, the first. -/
def earliest : List (Nat × Snippet) → Option (Nat × Snippet)
  | [] => none
  | l :: ls =>
    match earliest ls with
    | some best => if l.1 ≤ best.1 then some l else some best
    | none => some l

end Members

/-- What the members of the class body from `start` to `stop` amount to. -/
def findings (m : CodeMap) (receivers : List Text) (start stop : Nat) : Except Fault Findings := do
  let listing ← Member.list m start stop
  let assigned ← assignedState m receivers start stop
  listing.members.foldlM (Findings.add m receivers)
    ⟨assigned, none, none, [], none, listing.warnings⟩

/-- The pieces of the first class component of a source. -/
def extract (t : Text) (receivers : List Text) : Except Failure Component := do
  let m := CodeMap.ofText t
  let some header := findDeclaration? m t | throw (.refused .notAClassComponent)
  let some bodyOpen := m.findCode header.stop m.size "\x7b" | throw (.refused .noRenderExpression)
  let bodyClose := (m.matching bodyOpen).getD m.size
  let found ← Failure.check (findings m receivers (bodyOpen + 1) bodyClose)
  let some render := found.render | throw (.refused .noRenderExpression)
  let (prelude, template) ← splitRender m render.body
  return {
    name := header.group
    state := (earliest found.literals).map Prod.snd
    mount := found.mount
    unmount := found.unmount
    methods := found.methods
    prelude := prelude
    template := template
    warnings := found.warnings }

end Component

end Declass
