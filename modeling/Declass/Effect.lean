import Declass.Layout

/-!
# Effects

**Input.** The bodies that run when a component appears and when it disappears.

**Results.** One effect with an empty dependency list, so that it is set up once and cleaned up
once; the body for disappearing becomes the function that the effect returns.
-/

namespace Declass

/-- The callbacks of a class component that an effect stands for. -/
inductive Lifecycle where
  | mount
  | unmount
  deriving DecidableEq, Repr

namespace Lifecycle

def callback : Lifecycle → Text
  | mount => "componentDidMount"
  | unmount => "componentWillUnmount"

def ofCallback? (name : Text) : Option Lifecycle :=
  if name = mount.callback then some mount
  else if name = unmount.callback then some unmount
  else none

end Lifecycle

/-- What an effect does when the component appears and when it disappears. -/
structure Effect where
  setup : Option Text
  cleanup : Option Text
  deriving DecidableEq, Repr

namespace Effect

/-- The effect of two optional bodies; none if both are missing. -/
def ofBodies? : Option Text → Option Text → Option Effect
  | none, none => none
  | setup, cleanup => some ⟨setup, cleanup⟩

def hasCleanup (e : Effect) : Bool := e.cleanup.isSome

/-- A body under an indentation, closed by a line feed unless it is empty. -/
def bodyBlock (body indent : Text) : Text :=
  let placed := Layout.reindent body indent
  if placed.isEmpty then [] else placed ++ "\n"

def render (e : Effect) : Text :=
  let setup : Text := match e.setup with
    | some body => bodyBlock body "    "
    | none => []
  let gap : Text := if setup.isEmpty then "" else "\n"
  let cleanup : Text := match e.cleanup with
    | some body =>
      gap ++ "    return () => \x7b\n" ++ bodyBlock body "      " ++ "    \x7d;\n"
    | none => []
  "  useEffect(() => \x7b\n" ++ setup ++ cleanup ++ "  \x7d, []);\n"

end Effect

end Declass
