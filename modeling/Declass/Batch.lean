import Declass.Conversion
import Declass.OsError

/-!
# Batches

**Input.** Components one after the other, and a sink for the converted texts.

**Algorithm.** A source without a class component is skipped, and the sink does not see it, unless a
fixed module replaces it.  Every other source reaches the sink once.  A fault in the conversion of
one component leaves the others alone: its text is handed on unchanged and it counts as errored.

**Results.** One report per source, and the counts over all of them.
-/

namespace Declass

/-- A component: its identifier and the text of its module. -/
structure Source where
  identifier : Text
  text : Text
  deriving DecidableEq, Repr

/-- Why a sink did not take a text. -/
inductive SinkError where
  | unwritten (path : Text) (cause : OsError)
  | rejected (reason : Text)
  deriving DecidableEq, Repr

def SinkError.message : SinkError → Text
  | unwritten path cause => "failed to write " ++ path ++ ": " ++ cause.message
  | rejected reason => "output rejected: " ++ reason

/-- A receiver of converted texts with a state of its own. -/
structure Sink (σ : Type) where
  accept : Source → Transformed → σ → σ × Option SinkError

/-- The sink that keeps every text under the identifier of its source. -/
def Sink.memory : Sink (List (Text × Text)) where
  accept source result kept := (kept ++ [(source.identifier, result.code)], none)

/-- Why a file failed. -/
inductive FileError where
  | unreadable (cause : OsError)
  | notTaken (cause : SinkError)
  | fault (fault : Fault)
  deriving DecidableEq, Repr

def FileError.message : FileError → Text
  | unreadable cause => "failed to read file: " ++ cause.message
  | notTaken cause => cause.message
  | fault f => f.message

/-- What happened to a file. -/
inductive Status where
  | written (outcome : Outcome)
  | skipped
  | errored (error : FileError)
  deriving DecidableEq, Repr

/-- The report on one file. -/
structure FileReport where
  identifier : Text
  status : Status
  warnings : List Warning
  deriving DecidableEq, Repr

/-- How many files were converted, skipped and errored, and how many of the converted ones were
passed through unchanged. -/
structure Summary where
  converted : Nat
  skipped : Nat
  errored : Nat
  passedThrough : Nat
  deriving DecidableEq, Repr

namespace Summary

def empty : Summary := ⟨0, 0, 0, 0⟩

def record (s : Summary) : Status → Summary
  | .written outcome =>
    { s with
      converted := s.converted + 1
      passedThrough := s.passedThrough + if outcome.isPassedThrough then 1 else 0 }
  | .skipped => { s with skipped := s.skipped + 1 }
  | .errored _ => { s with errored := s.errored + 1 }

/-- The counts over the files of the given reports. -/
def ofReports (reports : List FileReport) : Summary :=
  reports.foldl (fun s report => s.record report.status) empty

def total (s : Summary) : Nat := s.converted + s.skipped + s.errored

end Summary

namespace Batch

/-- Whether a source is left out: no fixed module replaces it and it declares no class component. -/
def isSkipped (o : Options) (source : Source) : Bool :=
  (o.fixedModule? source.identifier).isNone && !Component.isClass source.text

/-- What the sink is given for a source, and the fault in its conversion, if there was one. -/
def result (o : Options) (source : Source) : Transformed × Option Fault :=
  match transform source.identifier source.text o with
  | .ok result => (result, none)
  | .error fault => (.unchanged source.text (.internalFault fault.message), some fault)

/-- Converts one source and hands the result to the sink. -/
def process {σ : Type} (sink : Sink σ) (o : Options) (source : Source) (state : σ) :
    FileReport × σ :=
  if isSkipped o source then (⟨source.identifier, .skipped, []⟩, state)
  else
    let (result, fault) := result o source
    let (state, refused) := sink.accept source result state
    let status := match refused, fault with
      | some error, _ => Status.errored (.notTaken error)
      | none, some fault => .errored (.fault fault)
      | none, none => .written result.outcome
    (⟨source.identifier, status, result.warnings⟩, state)

def processAll {σ : Type} (sink : Sink σ) (o : Options) : List Source → σ → List FileReport × σ
  | [], state => ([], state)
  | source :: sources, state =>
    let (report, state) := process sink o source state
    let (reports, state) := processAll sink o sources state
    (report :: reports, state)

end Batch

end Declass
