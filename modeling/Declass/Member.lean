import Declass.Snippet

/-!
# Class members

**Input.** A code map and the range of a class body in it.

**Algorithm.** Between trivia and semicolons a member is read: modifiers, a name, and then either
parameters and a block, or `=` and a value, or nothing.  A value ends at a semicolon, at a closing
bracket too many, or at a line feed behind which the expression cannot go on.  Where no member can
be read, everything up to the next line feed outside brackets is given up.

**Results.** The members with their ranges, in order, and the ranges given up.
-/

namespace Declass

/-- The body of a function: the inside of a block, or the expression of an arrow. -/
inductive Body where
  | block (range : Span)
  | expression (range : Span)
  deriving DecidableEq, Repr

def Body.range : Body → Span
  | block range => range
  | expression range => range

/-- A function: its parameters without the parentheses, and its body. -/
structure FunctionParts where
  isAsync : Bool
  params : Span
  body : Body
  deriving DecidableEq, Repr

/-- What a member is. -/
inductive MemberKind where
  | function (parts : FunctionParts)
  | field (value : Option Span)
  | accessor
  deriving DecidableEq, Repr

/-- A member of a class body. -/
structure Member where
  name : Text
  isStatic : Bool
  range : Span
  kind : MemberKind
  deriving DecidableEq, Repr

namespace Member

/-- What was read at a place of a class body: a member and where to go on, or nothing, with the
place to start again from. -/
inductive Delimited where
  | member (member : Member) (next : Nat)
  | lost (resume : Nat)
  deriving DecidableEq, Repr

section Boundaries

variable (m : CodeMap)

/-- The bracket that closes the one at `i`, if it lies before `stop`. -/
def closing? (i stop : Nat) : Option Nat := (m.matching i).filter (· < stop)

/-- The first position from `i` on, up to `stop`, that is neither trivia nor a semicolon. -/
def skipSeparators (i stop : Nat) : Nat :=
  m.skipWhile (fun s => s.isTrivia || s.isCodeChar ';') (stop - i) i

/-- Characters behind which an expression goes on. -/
def wantsMore (c : Char) : Bool := "=,([\x7b?:+-*/%&|!.~^<".toList.contains c

def goesOn (c : Char) : Bool := ".?:+-*/%&|=,(>".toList.contains c

/-- Whether the code that ends before position `i` cannot be a whole expression. -/
def isOpenEnded (i : Nat) : Bool :=
  m.isCode (i - 1) && (m.charAt? (i - 1)).any fun c =>
    wantsMore c || (c == '>' && 2 ≤ i && m.charAt? (i - 2) == some '=')

/-- Whether the line feed at `newline` ends the expression that begins at `start`. -/
def isComplete (start stop newline : Nat) : Bool :=
  let last := m.trimTrivia start newline
  let next := m.skipTrivia newline stop
  last != start && !isOpenEnded m last
    && (stop ≤ next || !(m.isCode next && (m.charAt? next).any goesOn))

/-- The end of a value and the position behind what ends it, among the `count` positions from `i`
on. -/
def valueEndFrom (start stop : Nat) : Nat → Nat → Nat → Nat × Nat
  | 0, _, _ => (stop, stop)
  | count + 1, depth, i =>
    if m.has Slot.opens i then valueEndFrom start stop count (depth + 1) (i + 1)
    else if m.has Slot.closes i then
      if depth = 0 then (i, i) else valueEndFrom start stop count (depth - 1) (i + 1)
    else if depth == 0
        && (m.isCodeChar i ';' || (m.isCodeChar i '\n' && isComplete m start stop i)) then
      (i, i + 1)
    else valueEndFrom start stop count depth (i + 1)

/-- The end of the value that begins at `start`, and the position behind what ends it. -/
def valueEnd (start stop : Nat) : Nat × Nat := valueEndFrom m start stop (stop - start) 0 start

/-- The position behind the next line feed outside brackets that comes after `start`. -/
def recover (start stop : Nat) : Nat :=
  match m.firstOuter? (fun i => m.isCodeChar i '\n' && start < i) start stop with
  | some i => i + 1
  | none => stop

end Boundaries

section Functions

variable (m : CodeMap)

/-- Parameters that open at `opening` with a block behind them, both closed before `stop`. -/
def paramsAndBlock? (opening stop : Nat) : Option (Span × Span) := do
  let close ← closing? m opening stop
  let blockOpen := m.skipTrivia (close + 1) stop
  guard (m.isCodeChar blockOpen '\x7b')
  let blockClose ← closing? m blockOpen stop
  return (⟨opening + 1, close⟩, ⟨blockOpen + 1, blockClose⟩)

/-- A `function` expression whose keyword ends at `wordEnd` and which fills the range to `stop`. -/
def functionWord? (isAsync : Bool) (wordEnd stop : Nat) :
    Except Fault (Option FunctionParts) := do
  let star := m.skipTrivia wordEnd stop
  let nameStart := if m.isCodeChar star '*' then m.skipTrivia (star + 1) stop else star
  let opening := m.skipTrivia (← m.identEnd nameStart) stop
  if !m.isCodeChar opening '(' then return none
  match paramsAndBlock? m opening stop with
  | some (params, block) =>
    if m.skipTrivia (block.stop + 1) stop < stop then return none
    else return some ⟨isAsync, params, .block block⟩
  | none => return none

/-- The body of an arrow function that fills the range from `bodyStart` to `stop`. -/
def arrowBody? (bodyStart stop : Nat) : Option Body :=
  let block := if m.isCodeChar bodyStart '\x7b' then closing? m bodyStart stop else none
  match block.filter fun close => stop ≤ m.skipTrivia (close + 1) stop with
  | some close => some (.block ⟨bodyStart + 1, close⟩)
  | none =>
    let bodyEnd := m.trimTrivia bodyStart stop
    if bodyEnd ≤ bodyStart then none else some (.expression ⟨bodyStart, bodyEnd⟩)

/-- The parameters of an arrow function at `pos`, where a word ends at `wordEnd`, and the position
behind them. -/
def arrowParams? (pos wordEnd stop : Nat) : Option (Span × Nat) :=
  if m.isCodeChar pos '(' then (closing? m pos stop).map fun close => (⟨pos + 1, close⟩, close + 1)
  else if pos < wordEnd then some (⟨pos, wordEnd⟩, wordEnd)
  else none

/-- The function that fills the range from `start` to `stop`, if the range holds one. -/
def functionValue? (start stop : Nat) : Except Fault (Option FunctionParts) := do
  let firstEnd ← m.identEnd start
  let first ← m.slice start firstEnd
  let after := m.skipTrivia firstEnd stop
  let isAsync := first == "async" && (firstEnd < after || m.isCodeChar after '(')
    && !m.isCodeChar after '='
  let pos := if isAsync then after else start
  let wordEnd ← m.identEnd pos
  if (← m.slice pos wordEnd) == "function" then functionWord? m isAsync wordEnd stop
  else
    match arrowParams? m pos wordEnd stop with
    | none => return none
    | some (params, paramsEnd) =>
      let arrow := m.skipTrivia paramsEnd stop
      if !m.isCode arrow then return none
      else if stop < arrow then throw (.badSlice arrow stop)
      else if stop < arrow + 2 || !m.spells "=>" arrow then return none
      else
        return (arrowBody? m (m.skipTrivia (arrow + 2) stop) stop).map fun body =>
          ⟨isAsync, params, body⟩

end Functions

section Reading

variable (m : CodeMap)

/-- The modifiers in front of a name. -/
structure Modifiers where
  isStatic : Bool
  isAsync : Bool
  isAccessor : Bool
  deriving DecidableEq, Repr

/-- The modifiers with one more word among them, if the word is a modifier. -/
def Modifiers.add? (mods : Modifiers) (word : Text) : Option Modifiers :=
  if word == "static" then some { mods with isStatic := true }
  else if word == "async" then some { mods with isAsync := true }
  else if word == "get" || word == "set" then some { mods with isAccessor := true }
  else none

def startsName (c : Char) : Bool :=
  Character.isIdentStart c || c == '#' || c == '*' || c == '['

/-- The modifiers from `pos` on, at most `count` of them, and the position behind them.  A word is a
modifier only if something that can be named follows it behind a gap. -/
def modifiersFrom (stop : Nat) : Nat → Modifiers → Nat → Except Fault (Modifiers × Nat)
  | 0, mods, pos => .ok (mods, pos)
  | count + 1, mods, pos => do
    let wordEnd ← m.identEnd pos
    let word ← m.slice pos wordEnd
    let after := m.skipTrivia wordEnd stop
    match mods.add? word with
    | none => return (mods, pos)
    | some more =>
      if wordEnd < after then
        if (← m.slice after m.size).head?.any startsName then modifiersFrom stop count more after
        else return (mods, pos)
      else return (mods, pos)

/-- A field whose `=` stands at `equals`. -/
def fieldWithValue (name : Text) (isStatic : Bool) (start equals stop : Nat) :
    Except Fault Delimited := do
  let valueStart := m.skipTrivia (equals + 1) stop
  let (rawEnd, next) := valueEnd m valueStart stop
  let valueStop := m.trimTrivia valueStart rawEnd
  let kind := match ← functionValue? m valueStart valueStop with
    | some parts => MemberKind.function parts
    | none => .field (some ⟨valueStart, valueStop⟩)
  return .member ⟨name, isStatic, ⟨start, valueStop⟩, kind⟩
    (max (max next valueStop) (equals + 1))

/-- The member that begins at `start`. -/
def read (start stop : Nat) : Except Fault Delimited := do
  let lost := Delimited.lost (recover m start stop)
  let (mods, pos) ← modifiersFrom m stop m.size ⟨false, false, false⟩ start
  let pos := if m.isCodeChar pos '*' then m.skipTrivia (pos + 1) stop else pos
  let nameStart := if m.isCodeChar pos '#' then pos + 1 else pos
  let nameEnd ← m.identEnd nameStart
  if nameEnd == nameStart then return lost
  let name ← m.slice nameStart nameEnd
  let afterName := m.skipTrivia nameEnd stop
  let bare := Member.mk name mods.isStatic ⟨start, nameEnd⟩ (.field none)
  if m.isCodeChar afterName '(' then
    match paramsAndBlock? m afterName stop with
    | some (params, block) =>
      let kind := if mods.isAccessor then MemberKind.accessor
        else .function ⟨mods.isAsync, params, .block block⟩
      return .member ⟨name, mods.isStatic, ⟨start, block.stop + 1⟩, kind⟩ (block.stop + 1)
    | none => return lost
  else if m.isCodeChar afterName '=' && !m.isCodeChar (afterName + 1) '=' then
    fieldWithValue m name mods.isStatic start afterName stop
  else if m.isCodeChar afterName ';' then return .member bare (afterName + 1)
  else if stop ≤ afterName then return .member bare afterName
  else if (← m.slice nameEnd afterName).elem '\n' then return .member bare afterName
  else return lost

end Reading

/-- The members of a class body and the warnings about what was given up, both in order. -/
structure Listing where
  members : List Member
  warnings : List Warning
  deriving DecidableEq, Repr

/-- The members from `pos` on, at most `count` of them. -/
def listFrom (m : CodeMap) (stop : Nat) : Nat → Nat → Except Fault Listing
  | 0, _ => .ok ⟨[], []⟩
  | count + 1, pos => do
    let start := skipSeparators m pos stop
    if stop ≤ start then return ⟨[], []⟩
    match ← read m start stop with
    | .member member next =>
      let rest ← listFrom m stop count next
      return { rest with members := member :: rest.members }
    | .lost resume =>
      let line := (← m.slice start resume).trim.firstLine
      let warning ← Warning.about (.undelimitedMember line) start resume
      let rest ← listFrom m stop count resume
      return { rest with warnings := warning :: rest.warnings }

/-- The members of the class body from `start` to `stop`.  Each takes at least one byte, so the
size of the text bounds their number. -/
def list (m : CodeMap) (start stop : Nat) : Except Fault Listing :=
  listFrom m stop (m.size + 1) start

end Member

end Declass
