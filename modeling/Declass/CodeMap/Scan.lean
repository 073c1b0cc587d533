import Declass.Text

/-!
# Scanning source text

**Input.** Source text of a component module, and whether markup is recognised.

**Algorithm.** A machine with a stack of modes reads the text once from left to right.  A mode is
code (with the number of braces open in it and the kind of hole it fills), the text of a template
literal, a markup tag, or the children between two tags; inside code there is also a context for
quoted strings and comments.  A quote opens a string only if the string is closed before the line
ends or runs to the end of the text, which one look ahead decides, so the machine never goes back.
A `<` opens markup only where an expression can begin, which the bytes read before it decide.

**Results.** `Scan.slots?` gives each byte a kind, or nothing if markup was left open.
Regular-expression literals are code.
-/

namespace Declass

/-- What a byte of the source belongs to. -/
inductive Kind where
  | code
  | literal
  | comment
  | markup
  deriving DecidableEq, Repr

/-- One byte of the source: the character that starts at it, if one does, and its kind. -/
structure Slot where
  char? : Option Char
  kind : Kind
  deriving DecidableEq, Repr

namespace Slot

/-- The slots of one character: the first holds it, the others continue it. -/
def ofChar (kind : Kind) (c : Char) : List Slot :=
  ⟨some c, kind⟩ :: List.replicate (c.utf8Size - 1) ⟨none, kind⟩

/-- Whether the byte is a layout character, of whatever kind. -/
def isLayout (s : Slot) : Bool := s.char?.any Character.isLayout

/-- Whether the byte is a word character of ASCII, of whatever kind. -/
def isAsciiIdent (s : Slot) : Bool := s.char?.any Character.isAsciiIdent

end Slot

namespace Scan

/-- What a run of code fills, and so what its closing brace returns to. -/
inductive Hole where
  | root
  | template
  | container
  deriving DecidableEq, Repr

/-- One level of nesting.  `depth` counts the elements open around a tag or its children; a tag
also knows the quote of the attribute value it is in. -/
inductive Mode where
  | code (braces : Nat) (hole : Hole)
  | template
  | tag (depth : Nat) (closing : Bool) (quote : Option Char)
  | children (depth : Nat)
  deriving DecidableEq, Repr

/-- Where in code the machine is. -/
inductive Context where
  | plain
  | quoted (quote : Char)
  | lineComment
  | blockComment
  deriving DecidableEq, Repr

/-- Whether the mode is part of an element that is still open. -/
def Mode.isMarkup : Mode → Bool
  | .tag _ _ _ => true
  | .children _ => true
  | _ => false

/-- The machine: the slots read so far, last one first, the modes, innermost first, and the
context of the innermost mode. -/
structure State where
  done : List Slot
  modes : List Mode
  context : Context
  deriving DecidableEq, Repr

def State.start : State := ⟨[], [.code 0 .root], .plain⟩

/-- What reading a character does: its kind, whether the character after it is read with it, and
the modes and context afterwards. -/
structure Move where
  kind : Kind
  pair : Bool
  modes : List Mode
  context : Context
  deriving DecidableEq, Repr

/-- The two quotes of strings and attribute values. -/
def isQuote (c : Char) : Bool := c == '\x22' || c == '\x27'

/-- Whether a string opened before the text is closed on its line, or never. -/
def stringCloses (quote : Char) : Text → Bool
  | [] => true
  | ['\\'] => true
  | '\\' :: _ :: rest => stringCloses quote rest
  | c :: rest =>
    if c == '\n' then false
    else if c == quote then true
    else stringCloses quote rest

/-- Characters of code after which an expression begins. -/
def beginsExpression (c : Char) : Bool :=
  "(,=?:&|\x7b\x7d[!;>".toList.contains c

/-- Words of code after which an expression begins. -/
def expressionWords : List Text := ["return".toList, "yield".toList, "default".toList]

/-- Whether a `<` that stands before `rest` and after the slots `done` opens an element: a tag name
or `>` follows, and the last byte that is neither comment nor layout is code after which an
expression begins. -/
def opensElement (done : List Slot) (rest : Text) : Bool :=
  rest.head?.any (fun c => c.isAlpha || c == '>') &&
    match done.dropWhile (fun s => s.kind == .comment || s.isLayout) with
    | [] => true
    | s :: before =>
      s.kind == .code && s.char?.any fun c =>
        beginsExpression c ||
          (Character.isAsciiIdent c &&
            expressionWords.contains
              (((s :: before).takeWhile Slot.isAsciiIdent).filterMap Slot.char?).reverse)

/-- The modes after a tag with `depth` elements still open. -/
def endTag (depth : Nat) (below : List Mode) : List Mode :=
  if depth = 0 then below else .children depth :: below

/-- Reading `c` in the text of a template literal. -/
def templateMove (below : List Mode) (c : Char) (rest : Text) : Move :=
  if c == '\\' then ⟨.literal, true, .template :: below, .plain⟩
  else if c == '$' && rest.head? == some '\x7b' then
    ⟨.literal, true, .code 0 .template :: .template :: below, .plain⟩
  else if c == '\x60' then ⟨.literal, false, below, .plain⟩
  else ⟨.literal, false, .template :: below, .plain⟩

/-- Reading `c` between two tags. -/
def childrenMove (depth : Nat) (below : List Mode) (c : Char) (rest : Text) : Move :=
  if c == '\x7b' then ⟨.code, false, .code 0 .container :: .children depth :: below, .plain⟩
  else if c == '<' then
    ⟨.markup, false, .tag depth (rest.head? == some '/') none :: below, .plain⟩
  else ⟨.markup, false, .children depth :: below, .plain⟩

/-- Reading `c` inside a tag.  Attribute values may span lines and have no escapes. -/
def tagMove (depth : Nat) (closing : Bool) (quote : Option Char) (below : List Mode)
    (c : Char) (rest : Text) : Move :=
  match quote with
  | some q =>
    ⟨.literal, false, .tag depth closing (if c == q then none else some q) :: below, .plain⟩
  | none =>
    if isQuote c then ⟨.literal, false, .tag depth closing (some c) :: below, .plain⟩
    else if c == '\x7b' then
      ⟨.code, false, .code 0 .container :: .tag depth closing none :: below, .plain⟩
    else if c == '/' && !closing && rest.head? == some '>' then
      ⟨.markup, true, endTag depth below, .plain⟩
    else if c == '>' then
      ⟨.markup, false, endTag (if closing then depth - 1 else depth + 1) below, .plain⟩
    else ⟨.markup, false, .tag depth closing none :: below, .plain⟩

/-- Reading `c` in code outside strings and comments. -/
def plainMove (jsx : Bool) (done : List Slot) (braces : Nat) (hole : Hole) (below : List Mode)
    (c : Char) (rest : Text) : Move :=
  let here := Mode.code braces hole :: below
  if isQuote c then
    if stringCloses c rest then ⟨.literal, false, here, .quoted c⟩
    else ⟨.code, false, here, .plain⟩
  else if c == '\x60' then ⟨.literal, false, .template :: here, .plain⟩
  else if c == '/' && rest.head? == some '/' then ⟨.comment, true, here, .lineComment⟩
  else if c == '/' && rest.head? == some '*' then ⟨.comment, true, here, .blockComment⟩
  else if c == '\x7b' then ⟨.code, false, .code (braces + 1) hole :: below, .plain⟩
  else if c == '\x7d' then
    if 0 < braces then ⟨.code, false, .code (braces - 1) hole :: below, .plain⟩
    else
      match hole with
      | .root => ⟨.code, false, here, .plain⟩
      | .template => ⟨.literal, false, below, .plain⟩
      | .container => ⟨.code, false, below, .plain⟩
  else if c == '<' && jsx && opensElement done rest then
    ⟨.markup, false, .tag 0 false none :: here, .plain⟩
  else ⟨.code, false, here, .plain⟩

/-- Reading `c` inside a quoted string. -/
def quotedMove (quote : Char) (modes : List Mode) (c : Char) : Move :=
  if c == '\\' then ⟨.literal, true, modes, .quoted quote⟩
  else ⟨.literal, false, modes, if c == quote then .plain else .quoted quote⟩

/-- Reading `c` inside a comment to the end of the line; the line feed is code again. -/
def lineCommentMove (modes : List Mode) (c : Char) : Move :=
  if c == '\n' then ⟨.code, false, modes, .plain⟩ else ⟨.comment, false, modes, .lineComment⟩

/-- Reading `c` inside a bracketed comment. -/
def blockCommentMove (modes : List Mode) (c : Char) (rest : Text) : Move :=
  if c == '*' && rest.head? == some '/' then ⟨.comment, true, modes, .plain⟩
  else ⟨.comment, false, modes, .blockComment⟩

/-- Reading `c` with `rest` behind it. -/
def State.move (jsx : Bool) (s : State) (c : Char) (rest : Text) : Move :=
  match s.modes with
  | [] => ⟨.code, false, [], s.context⟩
  | .template :: below => templateMove below c rest
  | .children depth :: below => childrenMove depth below c rest
  | .tag depth closing quote :: below => tagMove depth closing quote below c rest
  | .code braces hole :: below =>
    match s.context with
    | .plain => plainMove jsx s.done braces hole below c rest
    | .quoted quote => quotedMove quote s.modes c
    | .lineComment => lineCommentMove s.modes c
    | .blockComment => blockCommentMove s.modes c rest

/-- The state after a move that read the characters `cs`. -/
def State.after (s : State) (m : Move) (cs : Text) : State :=
  ⟨(cs.flatMap (Slot.ofChar m.kind)).reverse ++ s.done, m.modes, m.context⟩

def run (jsx : Bool) : State → Text → State
  | s, [] => s
  | s, [c] => s.after (s.move jsx c []) [c]
  | s, c :: d :: rest =>
    let m := s.move jsx c (d :: rest)
    if m.pair then run jsx (s.after m [c, d]) rest else run jsx (s.after m [c]) (d :: rest)

/-- The slots of the text, or nothing if an element is left open. -/
def slots? (jsx : Bool) (t : Text) : Option (List Slot) :=
  let s := run jsx State.start t
  if s.modes.any Mode.isMarkup then none else some s.done.reverse

end Scan

end Declass
