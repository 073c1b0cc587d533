import Declass.Text

/-!
# Errors of the file system

**Results.** The ways in which reading, writing and making directories can fail, with the wording of
the operating system.
-/

namespace Declass

/-- Why an operation on files failed. -/
inductive OsError where
  | notFound
  | alreadyExists
  | notADirectory
  | isADirectory
  | invalidText
  deriving DecidableEq, Repr

def OsError.message : OsError → Text
  | notFound => "No such file or directory (os error 2)"
  | alreadyExists => "File exists (os error 17)"
  | notADirectory => "Not a directory (os error 20)"
  | isADirectory => "Is a directory (os error 21)"
  | invalidText => "stream did not contain valid UTF-8"

end Declass
