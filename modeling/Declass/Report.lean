import Declass.Batch
import Declass.Json
import Declass.LineIndex

/-!
# Reports

**Input.** What happened to each file, with its source text and, where nothing was written, the new
text.

**Results.** `FileView.human` reports a file in lines for a reader, `FileView.json` as a record, and
`Report.human` and `Report.json` a whole run.  Findings are shown with the line and the column in
bytes at which they start, both counted from one.
-/

namespace Declass

/-- What is said about a file. -/
inductive Verdict where
  | converted
  | fixed
  | copied (reason : Text)
  | skipped
  | errored (message : Text)
  deriving DecidableEq, Repr

namespace Verdict

def ofStatus : Status → Verdict
  | .written .converted => .converted
  | .written .fixed => .fixed
  | .written (.passedThrough reason) => .copied reason.message
  | .skipped => .skipped
  | .errored error => .errored error.message

def skipReason : Text := "not a class component"

def name : Verdict → Text
  | converted => "converted"
  | fixed => "special-cased"
  | copied _ => "passed-through"
  | skipped => "skipped"
  | errored _ => "errored"

def reason? : Verdict → Option Text
  | converted | fixed => none
  | copied reason => some reason
  | skipped => some skipReason
  | errored message => some message

/-- A verdict on the file at `path` as a line. -/
def line (path : Text) : Verdict → Text
  | converted => "Converted " ++ path
  | fixed => "Converted " ++ path ++ " (hand-authored output)"
  | copied reason => "Copied " ++ path ++ " unchanged (" ++ reason ++ ")"
  | skipped => "Skipped " ++ path ++ " (" ++ skipReason ++ ")"
  | errored message => "Failed " ++ path ++ ": " ++ message

end Verdict

/-- A warning as it is shown: what it says, and the offset at which it starts. -/
structure Finding where
  code : Text
  message : Text
  offset : Nat
  deriving DecidableEq, Repr

def Finding.ofWarning (w : Warning) : Finding := ⟨w.notice.code, w.notice.message, w.range.start⟩

/-- What is reported about one file. -/
structure FileView where
  path : Text
  verdict : Verdict
  findings : List Finding
  source : Text
  generated : Option Text
  deriving DecidableEq, Repr

namespace FileView

/-- A finding with the line of the source that it starts in. -/
def findingText (v : FileView) (f : Finding) : Text :=
  let ix := LineIndex.ofText v.source
  let start := ix.lineCol f.offset
  let head : Text := "  warning[" ++ f.code ++ "] " ++ v.path ++ ":" ++ Text.ofNat (start.line + 1)
    ++ ":" ++ Text.ofNat (start.col + 1) ++ ": " ++ f.message ++ "\n"
  match ix.lineText? v.source start.line with
  | some line => head ++ "    | " ++ line.trim ++ "\n"
  | none => head

/-- The new text under its path, with a line feed at its end. -/
def generatedText (v : FileView) (code : Text) : Text :=
  let feed : Text := if code.getLast? == some '\n' then "" else "\n"
  "--- " ++ v.path ++ " ---\n" ++ code ++ feed

def human (v : FileView) : Text :=
  v.verdict.line v.path ++ "\n" ++ v.findings.flatMap v.findingText
    ++ (v.generated.map v.generatedText).getD []

def findingJson (v : FileView) (f : Finding) : Json :=
  let start := (LineIndex.ofText v.source).lineCol f.offset
  .obj [("code", .str f.code), ("message", .str f.message), ("line", .num (start.line + 1)),
    ("column", .num (start.col + 1)), ("offset", .num f.offset)]

/-- A field that is left out when it has no value. -/
def optionalField (key : Text) : Option Text → List (Text × Json)
  | some value => [(key, .str value)]
  | none => []

def json (v : FileView) : Json :=
  let head : List (Text × Json) := [("path", .str v.path), ("status", .str v.verdict.name)]
  let findings : List (Text × Json) := [("warnings", .arr (v.findings.map v.findingJson))]
  .obj (head ++ optionalField "reason" v.verdict.reason? ++ findings
    ++ optionalField "code" v.generated)

end FileView

namespace Summary

def files (n : Nat) : Text :=
  if n == 1 then "1 file" else Text.ofNat n ++ " files"

def human (s : Summary) : Text :=
  let copied : Text :=
    if s.passedThrough == 0 then "" else "\n" ++ files s.passedThrough ++ " copied unchanged"
  "====================================\nConverted: " ++ files s.converted
    ++ "\nSkipped (not class components): " ++ files s.skipped
    ++ "\nErrored: " ++ files s.errored ++ copied

def json (s : Summary) : Json :=
  .obj [("converted", .num s.converted), ("skipped", .num s.skipped), ("errored", .num s.errored),
    ("passed_through", .num s.passedThrough)]

end Summary

namespace Report

def human (views : List FileView) (s : Summary) : Text :=
  views.flatMap FileView.human ++ s.human ++ "\n"

def json (views : List FileView) (s : Summary) : Json :=
  .obj [("files", .arr (views.map FileView.json)), ("summary", s.json)]

end Report

end Declass
