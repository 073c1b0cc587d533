import Declass.Pattern
import Declass.Snippet

/-!
# Instance references

**Input.** A piece of code of a class component, the names of its state entries and methods, and the
words that stand for the instance.

**Algorithm.** The code is walked from left to right.  Where a receiver stands as a whole word
before a single dot, the member behind the dot decides:

* `state.name` with a declared name is replaced by the name;
* `setState` of an object literal with one declared field is replaced by a call of its setter, whose
  argument is resolved in turn;
* anything else loses the receiver and the dot.

**Results.** `Resolver.resolve` gives the new text and the warnings; the text is the old one with
a list of disjoint ranges replaced.  `Resolver.stripDestructuring` blanks out declarations that
only take state entries apart, byte for byte, so that positions stay valid.  The declarations are
those that the pattern `Resolver.destructuring` matches.  A pattern is matched as it stands and
never compiled, so there is no case of one that fails to compile, for which a text is left as it is:
a compiler with a bound on its size refuses the pattern if the list of receivers is long enough.
-/

namespace Declass

/-- A range of text and what replaces it. -/
structure Edit where
  range : Span
  text : Text
  deriving DecidableEq, Repr

namespace Edit

/-- The text of the map from `pos` on with the edits made.  The edits are in increasing order. -/
def splice (m : CodeMap) (pos : Nat) : List Edit → Except Fault Text
  | [] => m.slice pos m.size
  | e :: edits => do
    let kept ← m.slice pos e.range.start
    let rest ← splice m e.range.stop edits
    return kept ++ e.text ++ rest

end Edit

/-- New text and the warnings raised on the way. -/
structure Resolved where
  text : Text
  warnings : List Warning
  deriving DecidableEq, Repr

/-- What the references of one component are resolved against. -/
structure Resolver where
  states : List Text
  methods : List Text
  receivers : List Text
  deriving DecidableEq, Repr

namespace Resolver

/-- The warnings so far, and the members that were already reported as reduced to a name. -/
structure Log where
  warnings : List Warning
  flattened : List Text
  deriving DecidableEq, Repr

def Log.empty : Log := ⟨[], []⟩

def Log.warn (log : Log) (notice : Notice) (start stop : Nat) : Except Fault Log := do
  return { log with warnings := log.warnings ++ [← Warning.about notice start stop] }

/-- The log after a member was reduced to its name, which is reported once per member. -/
def Log.flatten (log : Log) (receiver member : Text) (start stop : Nat) : Except Fault Log := do
  if log.flattened.contains member then return log
  let log ← log.warn (.memberFlattened receiver member) start stop
  return { log with flattened := member :: log.flattened }

section References

variable (r : Resolver)

def isState (name : Text) : Bool := r.states.contains name

/-- The first of the receivers that stands at position `i` before a single dot. -/
def firstReceiver? (m : CodeMap) (i : Nat) : List Text → Except Fault (Option Text)
  | [] => .ok none
  | receiver :: receivers => do
    let dot := i + receiver.size
    if (← m.wordAt i receiver) && m.isCodeChar dot '.' && !m.isCodeChar (dot + 1) '.' then
      return some receiver
    else firstReceiver? m i receivers

/-- The receiver that is referred to at position `i`. -/
def receiverAt? (m : CodeMap) (i : Nat) : Except Fault (Option Text) :=
  if m.isCode i then firstReceiver? m i r.receivers else .ok none

/-- Resolves a text that starts at a given offset, in the state of the log. -/
abbrev Nested := Text → Nat → Log → Except Fault (Text × Log)

/-- The one field of the object literal between `start` and `stop`: key, and start and end of the
value.  There is none if the literal has no field or more than one. -/
def singleField? (m : CodeMap) (start stop : Nat) : Except Fault (Option (Text × Span)) := do
  let fields ← (m.splitTop start stop ',').filterM fun part => do
    return !(← m.slice part.start part.stop).isBlank
  match fields with
  | [field] =>
    match m.findTop field.start field.stop ':' with
    | some colon => return some ((← m.slice field.start colon).trim, ⟨colon + 1, field.stop⟩)
    | none => return some ((← m.slice field.start field.stop).trim, field)
  | _ => return none

/-- The state entry that a `setState` call whose arguments open at `opening` sets, the range of its
value, and where the call ends.  There is none unless the argument is an object literal with one
field that is a state entry. -/
def setterField? (m : CodeMap) (opening : Nat) : Except Fault (Option (Text × Span × Nat)) := do
  let some close := m.matching opening | return none
  let args := (← m.slice (opening + 1) close).trimmedSpan (opening + 1)
  if !m.isCodeChar args.start '\x7b' then return none
  let some literalEnd := m.matching args.start | return none
  if literalEnd + 1 != args.stop then return none
  let some (key, value) ← singleField? m (args.start + 1) (args.stop - 1) | return none
  let key := key.trimMatching Scan.isQuote
  if !(key.isIdentifier && r.isState key) then return none
  return some (key, value, close + 1)

/-- The replacement of a `setState` call whose arguments open at `opening`, and where the call
ends. -/
def setterCall? (nested : Nested) (m : CodeMap) (opening base : Nat) (log : Log) :
    Except Fault (Option (Text × Nat × Log)) := do
  let some (key, value, callEnd) ← r.setterField? m opening | return none
  let text ← m.slice value.start value.stop
  let (argument, log) ← nested text.trim (base + (text.trimmedSpan value.start).start) log
  return some (setterName key ++ "(" ++ argument ++ ")", callEnd, log)

/-- The edit for the reference to `receiver` at position `i`, and the log after it. -/
def reference (nested : Nested) (m : CodeMap) (base : Nat) (receiver : Text) (i : Nat) (log : Log) :
    Except Fault (Edit × Log) := do
  let memberStart := i + receiver.size + 1
  let memberEnd ← m.identEnd memberStart
  let member ← m.slice memberStart memberEnd
  let bare : Edit := ⟨⟨i, memberStart⟩, []⟩
  if member == "state" then
    if m.isCodeChar memberEnd '.' then
      let nameEnd ← m.identEnd (memberEnd + 1)
      let name ← m.slice (memberEnd + 1) nameEnd
      if r.isState name then return (⟨⟨i, nameEnd⟩, name⟩, log)
    return (bare, ← log.flatten receiver member (base + i) (base + memberEnd))
  else if member == "setState" then
    let opening := m.skipTrivia memberEnd m.size
    if m.isCodeChar opening '(' then
      if let some (call, callEnd, log) ← r.setterCall? nested m opening base log then
        return (⟨⟨i, callEnd⟩, call⟩, log)
    let stop := match m.matching opening with
      | some close => close + 1
      | none => memberEnd
    return (bare, ← log.warn (.setStateKept receiver) (base + i) (base + stop))
  else if member == "props" || member.isEmpty then return (bare, log)
  else if m.isCodeChar (m.skipTrivia memberEnd m.size) '(' || r.methods.contains member then
    return (bare, log)
  else return (bare, ← log.flatten receiver member (base + i) (base + memberEnd))

/-- The edits for the references among the `count` positions from `i` on; what lies before `resume`
belongs to the edit before. -/
def editsFrom (nested : Nested) (m : CodeMap) (base : Nat) :
    Nat → Nat → Nat → Log → Except Fault (List Edit × Log)
  | 0, _, _, log => .ok ([], log)
  | count + 1, resume, i, log =>
    if i < resume then editsFrom nested m base count resume (i + 1) log
    else
      match r.receiverAt? m i with
      | .error fault => .error fault
      | .ok none => editsFrom nested m base count resume (i + 1) log
      | .ok (some receiver) => do
        let (edit, log) ← r.reference nested m base receiver i log
        let (edits, log) ← editsFrom nested m base count edit.range.stop (i + 1) log
        return (edit :: edits, log)

/-- Resolves a text with setter calls nested up to the given depth. -/
def resolveNested : Nat → Nested
  | 0, t, _, log => .ok (t, log)
  | depth + 1, t, base, log => do
    let m := CodeMap.ofText t
    let (edits, log) ← r.editsFrom (resolveNested depth) m base m.size 0 0 log
    return (← Edit.splice m 0 edits, log)

/-- Resolves a text that starts at byte `base` of its source.  A setter call inside another is
shorter than it, so the length of the text bounds the nesting. -/
def resolve (t : Text) (base : Nat) : Except Fault Resolved := do
  let (text, log) ← r.resolveNested (t.length + 1) t base Log.empty
  return ⟨text, log.warnings⟩

end References

section Destructuring

variable (r : Resolver)

/-- A declaration that takes the state of a receiver apart; its group is what stands in braces. -/
def destructuring : Pattern where
  before := .seq [.edge, .anyWord ["const", "let", "var"], .spaces, .one (· == '\x7b')]
  group := .many fun c => c != '\x7b' && c != '\x7d'
  after := .seq [.one (· == '\x7d'), .spaces, .one (· == '='), .spaces, .anyWord r.receivers,
    .spaces, .one (· == '.'), .spaces, .word "state", .edge, .spaces, .opt (.one (· == ';'))]

/-- The names of a comma-separated list, trimmed and without empty ones. -/
def listedNames (group : Text) : List Text :=
  ((group.splitOn ',').map Text.trim).filter (!·.isEmpty)

/-- Whether a declaration with these names only repeats what the state entries bind. -/
def isRedundant (names : List Text) : Bool :=
  !names.isEmpty && names.all fun n => n.isIdentifier && r.isState n

/-- White space of the same width, line feeds kept. -/
def blankOut (t : Text) : Text :=
  t.flatMap fun c => if c == '\n' then ['\n'] else List.replicate c.utf8Size ' '

/-- The text with the redundant declarations blanked out. -/
def stripDestructuring (t : Text) : Except Fault Text := do
  let m := CodeMap.ofText t
  let redundant := (r.destructuring.occurrences t).filter fun found =>
    m.isCode found.start && r.isRedundant (listedNames found.group)
  let edits ← redundant.mapM fun found => do
    return (⟨⟨found.start, found.stop⟩, blankOut (← m.slice found.start found.stop)⟩ : Edit)
  Edit.splice m 0 edits

end Destructuring

end Resolver

end Declass
