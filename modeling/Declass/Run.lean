import Declass.FileTree
import Declass.Glob
import Declass.Report
import Declass.Settings

/-!
# Runs

**Input.** The arguments, the directory in which the program was started, and a file tree.

**Algorithm.** The settings are resolved and checked, then the files below the input directory are
listed, then the output directory is cleaned and made, and then the files are converted one by one.
Nothing is changed before all checks have passed, and a dry run changes nothing at all.

**Results.** `Run.run` gives the report and the counts, or why there was no run, with the tree
that is left.  `Run.command` is the program as a whole: what it prints and its exit code.
-/

namespace Declass

/-- Why there was no run. -/
inductive RunError where
  | configUnreadable (path : Text) (cause : OsError)
  | configInvalid (path : Text) (problem : Json.Problem)
  | invalidReceiver (error : InvalidReceiver)
  | inputMissing (input : Text)
  | invalidGlob (pattern : Text) (problem : Glob.Problem)
  | outputUnprepared (output : Text) (cause : OsError)
  | outputOverlapsInput (input output : Text)
  deriving DecidableEq, Repr

def RunError.message : RunError → Text
  | configUnreadable path cause => "failed to read " ++ path ++ ": " ++ cause.message
  | configInvalid path _ => "failed to parse " ++ path
  | invalidReceiver error => error.message
  | inputMissing input => "input directory not found: " ++ input
  | invalidGlob pattern problem =>
    "invalid glob pattern: error parsing glob '" ++ pattern ++ "': " ++ problem.message
  | outputUnprepared output cause =>
    "failed to prepare output directory " ++ output ++ ": " ++ cause.message
  | outputOverlapsInput input output =>
    "input directory " ++ input ++ " is inside output directory " ++ output

/-- What became of one file: where it lies below the input directory, the report on it, its text,
and the new text if it was not written. -/
structure FileOutcome where
  relative : Location
  report : FileReport
  source : Text
  generated : Option Text
  deriving DecidableEq, Repr

def FileOutcome.view (o : FileOutcome) : FileView :=
  ⟨Path.ofNames o.relative, .ofStatus o.report.status, o.report.warnings.map Finding.ofWarning,
    o.source, o.generated⟩

/-- A run that came to its end. -/
structure Finished where
  outcomes : List FileOutcome
  summary : Summary
  report : Text
  failOnError : Bool
  deriving DecidableEq, Repr

namespace Run

section Checks

/-- The name of the config file that is looked for in the workspace. -/
def configName : Text := "hookify.json"

/-- The directory that relative paths are seen from. -/
def workspaceOf (started : Text) (args : Arguments) : Text := Path.join started args.workspace

def configPath (workspace : Text) (args : Arguments) : Text :=
  Path.join workspace (args.config.getD configName)

def readConfig (tree : FileTree) (path : Text) : Except RunError ConfigFile := do
  match tree.read path with
  | .error cause => throw (.configUnreadable path cause)
  | .ok content =>
    match ConfigFile.parse content with
    | .error problem => throw (.configInvalid path problem)
    | .ok config => return config

/-- The config file.  One that was asked for has to be right; of any other, whatever is wrong with
it, nothing is taken. -/
def configOf (workspace : Text) (args : Arguments) (tree : FileTree) : Except RunError ConfigFile :=
  match args.config, readConfig tree (configPath workspace args) with
  | none, .error _ => .ok ConfigFile.empty
  | _, config => config

def settingsOf (started : Text) (args : Arguments) (tree : FileTree) :
    Except RunError Settings := do
  let workspace := workspaceOf started args
  let config ← configOf workspace args tree
  match Settings.resolve args config workspace with
  | .error error => throw (.invalidReceiver error)
  | .ok settings => return settings

def ignoreGlobs (patterns : List Text) : Except RunError (List Glob) :=
  patterns.mapM fun pattern =>
    match Glob.parse pattern with
    | .error problem => .error (.invalidGlob pattern problem)
    | .ok glob => .ok glob

end Checks

section Files

def sourcePath (s : Settings) (relative : Location) : Text :=
  Path.join s.input (Path.ofNames relative)

/-- The path of a file below the output directory. -/
def targetPath (s : Settings) (relative : Location) : Text :=
  Path.join s.output (Path.ofNames relative)

/-- Whether a file below the input directory is converted: it is not too deep, it has one of the
extensions, it is no output of the run itself, and it is not ignored. -/
def isChosen (s : Settings) (ignored : List Glob) (relative : Location) : Bool :=
  (s.recursive || relative.length ≤ 1)
    && s.hasExtension (sourcePath s relative)
    && (Path.isSame s.output s.input || !Path.isUnder (sourcePath s relative) s.output)
    && !ignored.any fun glob => glob.accepts (Path.ofNames relative)

/-- The files that are converted, in the order of their names. -/
def discover (s : Settings) (ignored : List Glob) (tree : FileTree) : List Location :=
  match tree.locate s.input with
  | .ok input => (tree.filesBelow input).filter (isChosen s ignored)
  | .error _ => []

/-- The settings of the run and the files that are converted. -/
def plan (started : Text) (args : Arguments) (tree : FileTree) :
    Except RunError (Settings × List Location) := do
  let s ← settingsOf started args tree
  if !tree.isDirectory s.input then throw (.inputMissing s.input)
  let ignored ← ignoreGlobs s.ignore
  return (s, discover s ignored tree)

end Files

section Output

def isCleaned (s : Settings) (tree : FileTree) : Bool := s.clean && tree.isDirectory s.output

/-- Without the files of earlier runs: those below the output directory with one of the
extensions. -/
def clean (s : Settings) (tree : FileTree) : FileTree :=
  match tree.locate s.output with
  | .ok output => tree.eraseAll fun l =>
    (tree.fileAt? l).isSome &&
      match FileTree.below? output l with
      | some relative => s.hasExtension (targetPath s relative)
      | none => false
  | .error _ => tree

def prepare (s : Settings) (tree : FileTree) : FileTree × Option RunError :=
  if isCleaned s tree && Path.isUnder s.input s.output then
    (tree, some (.outputOverlapsInput s.input s.output))
  else
    let tree := if isCleaned s tree then clean s tree else tree
    match tree.makeDirectories s.output with
    | (tree, none) => (tree, none)
    | (tree, some cause) => (tree, some (.outputUnprepared s.output cause))

/-- With a file at a path and the directories above it. -/
def store (tree : FileTree) (target content : Text) : FileTree × Option OsError :=
  match tree.makeDirectories ((Path.parent? target).getD []) with
  | (tree, some cause) => (tree, some cause)
  | (tree, none) =>
    match tree.write target content with
    | .ok tree => (tree, none)
    | .error cause => (tree, some cause)

def writing (target : Text) : Sink FileTree where
  accept _ result tree :=
    match store tree target result.code with
    | (tree, none) => (tree, none)
    | (tree, some cause) => (tree, some (.unwritten target cause))

def capturing : Sink (Option Text) where
  accept _ result _ := (some result.code, none)

end Output

section Conversions

def convertFile (s : Settings) (relative : Location) (tree : FileTree) : FileOutcome × FileTree :=
  let path := sourcePath s relative
  let identifier := Path.stem path
  match tree.read path with
  | .error cause => (⟨relative, ⟨identifier, .errored (.unreadable cause), []⟩, [], none⟩, tree)
  | .ok content =>
    let source : Source := ⟨identifier, content⟩
    if s.dryRun then
      let (report, generated) := Batch.process capturing s.options source none
      (⟨relative, report, content, generated⟩, tree)
    else
      let (report, tree) := Batch.process (writing (targetPath s relative)) s.options source tree
      (⟨relative, report, content, none⟩, tree)

def convertAll (s : Settings) : List Location → FileTree → List FileOutcome × FileTree
  | [], tree => ([], tree)
  | relative :: rest, tree =>
    let (outcome, tree) := convertFile s relative tree
    let (outcomes, tree) := convertAll s rest tree
    (outcome :: outcomes, tree)

/-- The end of a run: the outcomes in the order of their names, the counts and the report. -/
def finish (s : Settings) (outcomes : List FileOutcome) : Finished :=
  let outcomes := outcomes.mergeSort fun a b => Location.notAfter a.relative b.relative
  let summary := Summary.ofReports (outcomes.map FileOutcome.report)
  let views := outcomes.map FileOutcome.view
  let report := match s.format with
    | .human => Report.human views summary
    | .json => (Report.json views summary).pretty ++ "\n"
  ⟨outcomes, summary, report, s.failOnError⟩

/-- Prepares the output directory, unless nothing is to be written, and converts the files. -/
def execute (s : Settings) (files : List Location) (tree : FileTree) :
    Except RunError Finished × FileTree :=
  match if s.dryRun then (tree, none) else prepare s tree with
  | (tree, some error) => (.error error, tree)
  | (tree, none) =>
    let (outcomes, tree) := convertAll s files tree
    (.ok (finish s outcomes), tree)

/-- A run with the given arguments, started in the given directory. -/
def run (started : Text) (args : Arguments) (tree : FileTree) :
    Except RunError Finished × FileTree :=
  match plan started args tree with
  | .error error => (.error error, tree)
  | .ok (s, files) => execute s files tree

end Conversions

section Commands

/-- What a program leaves behind: its exit code, what it prints, and what it complains about. -/
structure Exit where
  code : Nat
  output : Text
  complaint : Text
  deriving DecidableEq, Repr

def versionLine : Text := "hookify 0.9.5\n"

def usage : Text :=
  "Usage: hookify [OPTIONS]\n\nOptions:\n"
    ++ (Arguments.longFlags.map fun flag => ("      --" : Text) ++ flag.1 ++ "\n").flatten

def exitOfUsage : UsageError → Exit
  | .helpAsked => ⟨0, usage, []⟩
  | .versionAsked => ⟨0, versionLine, []⟩
  | .unknownArgument => ⟨2, [], "error: unexpected argument found\n"⟩
  | .invalidValue => ⟨2, [], "error: invalid value for an argument\n"⟩
  | .repeated => ⟨2, [], "error: an argument cannot be used multiple times\n"⟩
  | .unwantedValue => ⟨2, [], "error: unexpected value for an argument\n"⟩

/-- The exit of a run.  Errored files count as failure only where the arguments say so. -/
def exitOfRun : Except RunError Finished → Exit
  | .error error => ⟨1, [], error.message ++ "\n"⟩
  | .ok finished =>
    ⟨if finished.failOnError && 0 < finished.summary.errored then 1 else 0, finished.report, []⟩

def command (started : Text) (words : List Text) (tree : FileTree) : Exit × FileTree :=
  match Arguments.parse words with
  | .error error => (exitOfUsage error, tree)
  | .ok args =>
    let (result, tree) := run started args tree
    (exitOfRun result, tree)

end Commands

end Run

end Declass
