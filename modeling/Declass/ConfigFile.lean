import Declass.Json.Reader

/-!
# Config files

**Input.** The text of a config file: a JSON record with known keys, or a JSON list of their
values in a fixed order.

**Results.** `ConfigFile.parse` gives the values that are present.  An unknown key is a problem
where it stands, before its value is looked at, and so is a key given twice.  Null stands for a
missing value everywhere but for the ignore patterns.
-/

namespace Declass

/-- The values of a config file. -/
structure ConfigFile where
  input : Option Text
  output : Option Text
  extensions : Option (List Text)
  ignore : List Text
  receivers : Option (List Text)
  fixedModules : Option Bool
  clean : Option Bool
  recursive : Option Bool
  deriving DecidableEq, Repr

namespace ConfigFile

def empty : ConfigFile := ⟨none, none, none, [], none, none, none, none⟩

/-- The keys. -/
inductive Key where
  | input
  | output
  | extensions
  | ignore
  | receivers
  | fixedModules
  | clean
  | recursive
  deriving DecidableEq, Repr

namespace Key

def all : List Key :=
  [input, output, extensions, ignore, receivers, fixedModules, clean, recursive]

def name : Key → Text
  | input => "input"
  | output => "output"
  | extensions => "extensions"
  | ignore => "ignore"
  | receivers => "receivers"
  | fixedModules => "specialCases"
  | clean => "clean"
  | recursive => "recursive"

def ofName? (n : Text) : Option Key := all.find? fun k => k.name == n

end Key

/-- The file with the value of a key read from the text. -/
def readValue (config : ConfigFile) (key : Key) : Json.Reader ConfigFile := fun t =>
  match key with
  | .input => do
    let (v, t) ← Json.readOption Json.readString t
    return ({ config with input := v }, t)
  | .output => do
    let (v, t) ← Json.readOption Json.readString t
    return ({ config with output := v }, t)
  | .extensions => do
    let (v, t) ← Json.readOption Json.readStrings t
    return ({ config with extensions := v }, t)
  | .ignore => do
    let (v, t) ← Json.readStrings t
    return ({ config with ignore := v }, t)
  | .receivers => do
    let (v, t) ← Json.readOption Json.readStrings t
    return ({ config with receivers := v }, t)
  | .fixedModules => do
    let (v, t) ← Json.readOption Json.readBool t
    return ({ config with fixedModules := v }, t)
  | .clean => do
    let (v, t) ← Json.readOption Json.readBool t
    return ({ config with clean := v }, t)
  | .recursive => do
    let (v, t) ← Json.readOption Json.readBool t
    return ({ config with recursive := v }, t)

/-- The text of the next key behind its opening quote; nothing at the closing brace.  Keys but the
first stand behind a comma. -/
def nextKey? (first : Bool) (t : Text) : Except Json.Problem (Option Text) :=
  match Json.skipBlanks t with
  | [] => .error .unfinished
  | '\x7d' :: _ => .ok none
  | ',' :: rest =>
    if first then .error .malformed
    else
      match Json.skipBlanks rest with
      | [] => .error .unfinished
      | '\x22' :: t => .ok (some t)
      | _ => .error .malformed
  | '\x22' :: t => if first then .ok (some t) else .error .malformed
  | _ => .error .malformed

def afterColon (t : Text) : Except Json.Problem Text :=
  match Json.skipBlanks t with
  | [] => .error .unfinished
  | ':' :: rest => .ok rest
  | _ => .error .malformed

/-- The fields of a record, at most `count` of them, with the keys seen before. -/
def readFields : Nat → List Key → ConfigFile → Json.Reader ConfigFile
  | 0, _, _, _ => .error .unfinished
  | count + 1, seen, config, t => do
    match ← nextKey? seen.isEmpty t with
    | none => return (config, (Json.skipBlanks t).drop 1)
    | some t =>
      let (name, t) ← Json.readStringRest t
      match Key.ofName? name with
      | none => throw .mismatched
      | some key =>
        if seen.contains key then throw .mismatched
        let (config, t) ← readValue config key (← afterColon t)
        readFields count (key :: seen) config t

/-- The values of a list, for the given keys in order. -/
def readList : List Key → Bool → ConfigFile → Json.Reader ConfigFile
  | [], _, config, t => do return (config, ← Json.endList t)
  | key :: keys, first, config, t => do
    match ← Json.nextItem? first t with
    | none => return (config, ← Json.endList t)
    | some t =>
      let (config, t) ← readValue config key t
      readList keys false config t

def read : Json.Reader ConfigFile := fun t =>
  match Json.skipBlanks t with
  | '\x7b' :: t => readFields (t.length + 1) [] empty t
  | '[' :: t => readList Key.all true empty t
  | t => .error (Json.wrongValue t)

/-- The values of a config file, which holds nothing else. -/
def parse (t : Text) : Except Json.Problem ConfigFile := do
  let (config, rest) ← read t
  if (Json.skipBlanks rest).isEmpty then return config else throw .malformed

end ConfigFile

end Declass
