import Unguard.Check
import Unguard.Lower.Conditional
import Unguard.Text.Resolve

/-!
# Why lowering fails

Lowering a file can fail at four points: the file, its text, a conditional that no pass accepts, and
the check of a graph.
-/

namespace Unguard

/-- Why a file could not be read or written. -/
inductive FileError
  | notFound
  | isDirectory
  /-- A path goes on below a file. -/
  | notDirectory
  | nameTooLong
  /-- Its bytes are no text. -/
  | notText
  /-- Another reason, in the system's words. -/
  | other (reason : String)
deriving DecidableEq, Repr, Inhabited

def FileError.message : FileError → String
  | notFound => "No such file or directory (os error 2)"
  | isDirectory => "Is a directory (os error 21)"
  | notDirectory => "Not a directory (os error 20)"
  | nameTooLong => "File name too long (os error 36)"
  | notText => "stream did not contain valid UTF-8"
  | other reason => reason

/-- Why lowering failed. -/
inductive LowerError
  | file (error : FileError)
  | text (error : Text.ReadError)
  | arity (mismatch : ArmMismatch)
  /-- The graph does not pass the checks after the stage of that name. -/
  | invalid (stage : String) (report : CheckReport)
deriving DecidableEq, Repr, Inhabited

def LowerError.message : LowerError → String
  | file error => "I/O error: " ++ error.message
  | text error => error.message
  | arity mismatch => "lowering failed: " ++ mismatch.message
  | invalid stage report => s!"graph is invalid after {stage}: {report.text}"

end Unguard
