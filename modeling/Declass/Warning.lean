import Declass.Effect
import Declass.Span

/-!
# Warnings

**Results.** `Notice` lists what a conversion can leave out or change without failing.  Each notice
has a code and a message; a `Warning` is a notice with the range of source it is about.
-/

namespace Declass

/-- What was left out or changed. -/
inductive Notice where
  | unsupportedLifecycle (name : Text)
  | duplicateLifecycle (callback : Lifecycle)
  | undelimitedMember (line : Text)
  | staticDropped (name : Text)
  | fieldDropped (name : Text)
  | accessorDropped (name : Text)
  | constructorStatementDropped (line : Text)
  | stateEntrySkipped (entry : Text)
  | duplicateStateEntry (name : Text)
  | setStateKept (receiver : Text)
  | memberFlattened (receiver member : Text)
  deriving DecidableEq, Repr

namespace Notice

def code : Notice → Text
  | unsupportedLifecycle _ => "unsupported-lifecycle"
  | duplicateLifecycle _ => "duplicate-lifecycle"
  | undelimitedMember _ => "method-boundary-ambiguity"
  | staticDropped _ => "class-field-dropped"
  | fieldDropped _ => "class-field-dropped"
  | accessorDropped _ => "class-field-dropped"
  | constructorStatementDropped _ => "constructor-statement-dropped"
  | stateEntrySkipped _ => "state-entry-skipped"
  | duplicateStateEntry _ => "duplicate-state-entry"
  | setStateKept _ => "unrewritten-set-state"
  | memberFlattened _ _ => "instance-member-flattened"

def message : Notice → Text
  | unsupportedLifecycle name =>
    "`" ++ name ++ "` has no effect-based counterpart and was omitted"
  | duplicateLifecycle callback =>
    "`" ++ callback.callback ++ "` is declared more than once; only the first is kept"
  | undelimitedMember line => "could not delimit class member starting at `" ++ line ++ "`"
  | staticDropped name => "static member `" ++ name ++ "` was omitted"
  | fieldDropped name => "class field `" ++ name ++ "` was omitted"
  | accessorDropped name => "accessor `" ++ name ++ "` was omitted"
  | constructorStatementDropped line => "constructor statement `" ++ line ++ "` was dropped"
  | stateEntrySkipped entry =>
    "state initializer entry `" ++ entry ++ "` has no static key and was skipped"
  | duplicateStateEntry name => "state key `" ++ name ++ "` is declared more than once"
  | setStateKept receiver =>
    "`" ++ receiver ++ ".setState` is only rewritten for a single-field object literal naming "
      ++ "a state entry"
  | memberFlattened receiver member =>
    "`" ++ receiver ++ "." ++ member ++ "` has no local binding and was reduced to `" ++ member
      ++ "`"

/-- Whether the notice is about a member reference that was reduced to a bare name. -/
def isFlattening : Notice → Bool
  | memberFlattened _ _ => true
  | _ => false

end Notice

/-- A notice and the range of source that it is about. -/
structure Warning where
  notice : Notice
  range : Span
  deriving DecidableEq, Repr

end Declass
