import Declass.Snippet

/-!
# State models

**Input.** The object literal that a class component's state is initialised with.

**Algorithm.** The literal is split at its commas outside brackets.  A part is `key: value` with a
plain or quoted identifier as its key, or an identifier alone that is key and value at once.

**Results.** The state entries in order of first declaration.  A key declared again keeps its place
and takes the later value; every other part that is no entry is reported.
-/

namespace Declass

/-- One piece of state: its key, and its initial value with the range of that value. -/
structure StateEntry where
  name : Text
  value : Text
  range : Span
  deriving DecidableEq, Repr

/-- The entries in order of first declaration, and what was reported on the way. -/
structure StateModel where
  entries : List StateEntry
  warnings : List Warning
  deriving DecidableEq, Repr

namespace StateModel

def empty : StateModel := ⟨[], []⟩

/-- What stands between two quotes `q`. -/
def insideQuotes? (q : Char) : Text → Option Text
  | [] => none
  | c :: rest => if c == q && rest.getLast? == some q then some rest.dropLast else none

/-- The identifier that a key stands for, with or without quotes around it. -/
def keyName? (key : Text) : Option Text :=
  let name := ((insideQuotes? '\x27' key).orElse fun _ => insideQuotes? '\x22' key).getD key
  if name.isIdentifier then some name else none

/-- The range inside the braces of a literal, or the whole trimmed text if there are none. -/
def literalRange (m : CodeMap) (t : Text) : Span :=
  let whole := t.trimmedSpan 0
  match m.matching whole.start with
  | some close =>
    if m.charAt? whole.start == some '\x7b' && close + 1 == whole.stop then
      ⟨whole.start + 1, close⟩
    else whole
  | none => whole

def entryAt? (m : CodeMap) (start stop : Nat) : Except Fault (Option (Text × Span)) :=
  match m.findTop start stop ':' with
  | some colon => do
    match keyName? (← m.slice start colon).trim with
    | none => return none
    | some name =>
      let value := (← m.slice (colon + 1) stop).trimmedSpan (colon + 1)
      return if value.start < value.stop then some (name, value) else none
  | none => do
    let name := (← m.slice start stop).trim
    return if name.isIdentifier then some (name, ⟨start, stop⟩) else none

/-- The entries with one of the same name replaced. -/
def replaceEntry (entry : StateEntry) (entries : List StateEntry) : List StateEntry :=
  entries.map fun e => if e.name == entry.name then entry else e

/-- The model with one more entry, which came from the part in `range`. -/
def insert (model : StateModel) (entry : StateEntry) (range : Span) : StateModel :=
  if model.entries.any (·.name == entry.name) then
    ⟨replaceEntry entry model.entries,
      model.warnings ++ [⟨.duplicateStateEntry entry.name, range⟩]⟩
  else ⟨model.entries ++ [entry], model.warnings⟩

/-- The model with the part `part` of the literal, which itself starts at `base`, taken in. -/
def addPart (m : CodeMap) (base : Nat) (model : StateModel) (part : Span) :
    Except Fault StateModel := do
  let text ← m.slice part.start part.stop
  if text.isBlank then return model
  let trimmed := text.trimmedSpan part.start
  let range ← Span.reported (base + trimmed.start) (base + trimmed.stop)
  match ← entryAt? m trimmed.start trimmed.stop with
  | some (name, value) =>
    let entry : StateEntry :=
      ⟨name, ← m.slice value.start value.stop,
        ← Span.reported (base + value.start) (base + value.stop)⟩
    return model.insert entry range
  | none =>
    let entry := (← m.slice trimmed.start trimmed.stop).trim
    return ⟨model.entries, model.warnings ++ [⟨.stateEntrySkipped entry, range⟩]⟩

/-- The model of an initializer; without one there are no entries. -/
def build : Option Snippet → Except Fault StateModel
  | none => .ok empty
  | some initializer =>
    let m := CodeMap.ofText initializer.text
    let inner := literalRange m initializer.text
    (m.splitTop inner.start inner.stop ',').foldlM (addPart m initializer.range.start) empty

end StateModel

end Declass
