import Declass.Text

/-!
# Command-line arguments

**Input.** The words behind the program's name.

**Algorithm.** Words are taken from left to right.  A flag that wants a value and has none
attached waits for the next word; what it says is settled when another known flag comes or the
words end, so a word that is no argument at all is reported before a bad value that is still
waiting.

**Results.** `Arguments.parse` gives the values of all flags, or the first thing wrong with them.
Asking for help or for the version ends the reading in the same way.
-/

namespace Declass

/-- How a run is reported. -/
inductive Format where
  | human
  | json
  deriving DecidableEq, Repr

def Format.ofName? (name : Text) : Option Format :=
  if name == "human" then some .human
  else if name == "json" then some .json
  else none

/-- The values of all flags. -/
structure Arguments where
  workspace : Text
  config : Option Text
  input : Option Text
  output : Option Text
  format : Format
  extensions : List Text
  ignore : List Text
  receivers : List Text
  recursive : Bool
  noClean : Bool
  noFixedModules : Bool
  dryRun : Bool
  failOnError : Bool
  verbose : Bool
  deriving DecidableEq, Repr

/-- Why the words give no arguments. -/
inductive UsageError where
  | unknownArgument
  | invalidValue
  | repeated
  | unwantedValue
  | helpAsked
  | versionAsked
  deriving DecidableEq, Repr

namespace Arguments

def default : Arguments :=
  ⟨".", none, none, none, .human, [], [], [], false, false, false, false, false, false⟩

/-- A flag that wants a value. -/
inductive ValueFlag where
  | workspace
  | config
  | input
  | output
  | format
  | extensions
  | ignore
  | receiver
  deriving DecidableEq, Repr

/-- Whether a flag collects values and may be repeated. -/
def ValueFlag.isCollecting : ValueFlag → Bool
  | .extensions | .ignore | .receiver => true
  | .workspace | .config | .input | .output | .format => false

/-- A flag without a value. -/
inductive Switch where
  | recursive
  | noClean
  | noFixedModules
  | dryRun
  | failOnError
  | verbose
  deriving DecidableEq, Repr

/-- What a flag asks for. -/
inductive Flag where
  | value (flag : ValueFlag)
  | switch (flag : Switch)
  | help
  | version
  deriving DecidableEq, Repr

def longFlags : List (Text × Flag) :=
  [("workspace", .value .workspace), ("config", .value .config), ("input", .value .input),
    ("output", .value .output), ("extensions", .value .extensions), ("ignore", .value .ignore),
    ("receiver", .value .receiver), ("recursive", .switch .recursive),
    ("no-clean", .switch .noClean), ("no-special-cases", .switch .noFixedModules),
    ("dry-run", .switch .dryRun), ("format", .value .format),
    ("fail-on-error", .switch .failOnError), ("verbose", .switch .verbose), ("help", .help),
    ("version", .version)]

def shortFlags : List (Char × Flag) := [('v', .switch .verbose), ('h', .help), ('V', .version)]

/-- What has been read: the arguments so far, the flags seen, the flag that waits with its value,
and whether only values may follow. -/
structure Reading where
  arguments : Arguments
  values : List ValueFlag
  switches : List Switch
  waiting : Option (ValueFlag × Option Text)
  isClosed : Bool
  deriving DecidableEq, Repr

namespace Reading

def start : Reading := ⟨default, [], [], none, false⟩

def assign (r : Reading) (flag : ValueFlag) (value : Text) : Except UsageError Reading :=
  if !flag.isCollecting && r.values.contains flag then .error .repeated
  else
    let a := r.arguments
    let set (a : Arguments) : Reading := { r with arguments := a, values := flag :: r.values }
    match flag with
    | .workspace => .ok (set { a with workspace := value })
    | .config => .ok (set { a with config := some value })
    | .input => .ok (set { a with input := some value })
    | .output => .ok (set { a with output := some value })
    | .extensions => .ok (set { a with extensions := a.extensions ++ Text.splitOn ',' value })
    | .ignore => .ok (set { a with ignore := a.ignore ++ [value] })
    | .receiver => .ok (set { a with receivers := a.receivers ++ [value] })
    | .format =>
      match Format.ofName? value with
      | some format => .ok (set { a with format := format })
      | none => .error .invalidValue

def settle (r : Reading) : Except UsageError Reading :=
  match r.waiting with
  | none => .ok r
  | some (_, none) => .error .invalidValue
  | some (flag, some value) => { r with waiting := none }.assign flag value

def turnOn (r : Reading) (flag : Switch) : Except UsageError Reading :=
  if r.switches.contains flag then .error .repeated
  else
    let a := r.arguments
    let a := match flag with
      | .recursive => { a with recursive := true }
      | .noClean => { a with noClean := true }
      | .noFixedModules => { a with noFixedModules := true }
      | .dryRun => { a with dryRun := true }
      | .failOnError => { a with failOnError := true }
      | .verbose => { a with verbose := true }
    .ok { r with arguments := a, switches := flag :: r.switches }

def flag (r : Reading) (f : Flag) : Except UsageError Reading := do
  let r ← r.settle
  match f with
  | .value f => return { r with waiting := some (f, none) }
  | .switch f => r.turnOn f
  | .help => throw .helpAsked
  | .version => throw .versionAsked

def letters (r : Reading) : Text → Except UsageError Reading
  | [] => .ok r
  | c :: rest =>
    match shortFlags.lookup c with
    | some f => do letters (← r.flag f) rest
    | none => .error .unknownArgument

/-- A word behind two dashes: a long name, and a value behind an equals sign. -/
def long (r : Reading) (word : Text) : Except UsageError Reading :=
  let name := word.takeWhile (· != '=')
  let attached? := (word.dropWhile (· != '=')).tail?
  match longFlags.lookup name, attached? with
  | none, _ => .error .unknownArgument
  | some f, none => r.flag f
  | some (.value f), some value => do (← r.settle).assign f value
  | some _, some _ => .error .unwantedValue

def plain (r : Reading) (word : Text) : Except UsageError Reading :=
  match r.waiting with
  | some (f, none) => .ok { r with waiting := some (f, some word) }
  | _ => .error .unknownArgument

def word (r : Reading) (w : Text) : Except UsageError Reading :=
  if r.isClosed then .error .unknownArgument
  else
    match w with
    | ['-', '-'] => .ok { r with isClosed := true }
    | '-' :: '-' :: rest => r.long rest
    | '-' :: c :: rest => r.letters (c :: rest)
    | w => r.plain w

end Reading

def parse (words : List Text) : Except UsageError Arguments := do
  let r ← words.foldlM Reading.word Reading.start
  return (← r.settle).arguments

end Arguments

end Declass
