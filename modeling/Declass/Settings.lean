import Declass.Arguments
import Declass.ConfigFile
import Declass.Conversion
import Declass.Path

/-!
# Settings of a run

**Input.** The arguments, the config file, and the directory that relative paths are seen from.

**Results.** `Settings.resolve` puts the arguments over the config file over the usual values.
Ignore patterns of both add up.  Extensions lose blanks and leading dots and are compared in lower
case; receivers have to be identifiers.
-/

namespace Declass

/-- What a run does. -/
structure Settings where
  input : Text
  output : Text
  extensions : List Text
  ignore : List Text
  recursive : Bool
  clean : Bool
  dryRun : Bool
  format : Format
  failOnError : Bool
  options : Options
  deriving DecidableEq, Repr

/-- A receiver that is no identifier. -/
structure InvalidReceiver where
  word : Text
  deriving DecidableEq, Repr

def InvalidReceiver.message (e : InvalidReceiver) : Text :=
  "invalid receiver keyword: `" ++ e.word ++ "`"

namespace Settings

def defaultInput : Text := "src/components/class"

def defaultOutput : Text := "src/components/functional"

def defaultExtensions : List Text := ["js", "jsx"]

def lowerCase (t : Text) : Text := t.map Char.toLower

/-- An extension without the blanks around it and the dots in front, in lower case. -/
def normalExtension (e : Text) : Text := lowerCase (e.trim.dropWhile (· == '.'))

def extensionsOf (args : Arguments) (config : ConfigFile) : List Text :=
  let chosen :=
    if args.extensions.isEmpty then config.extensions.getD defaultExtensions else args.extensions
  (chosen.map normalExtension).filter (!·.isEmpty)

def receiversOf (args : Arguments) (config : ConfigFile) : Except InvalidReceiver (List Text) :=
  let chosen :=
    if args.receivers.isEmpty then config.receivers.getD Options.default.receivers
    else args.receivers
  match chosen.find? (!·.isIdentifier) with
  | some word => .error ⟨word⟩
  | none => .ok chosen

/-- The settings that follow from the arguments and the config file. -/
def resolve (args : Arguments) (config : ConfigFile) (workspace : Text) :
    Except InvalidReceiver Settings := do
  let receivers ← receiversOf args config
  return {
    input := Path.join workspace ((args.input <|> config.input).getD defaultInput)
    output := Path.join workspace ((args.output <|> config.output).getD defaultOutput)
    extensions := extensionsOf args config
    ignore := config.ignore ++ args.ignore
    recursive := args.recursive || config.recursive.getD false
    clean := !args.noClean && config.clean.getD true
    dryRun := args.dryRun
    format := args.format
    failOnError := args.failOnError
    options := ⟨receivers, !args.noFixedModules && config.fixedModules.getD true⟩ }

def hasExtension (s : Settings) (path : Text) : Bool :=
  match Path.extension? path with
  | some e => s.extensions.contains (lowerCase e)
  | none => false

end Settings

end Declass
