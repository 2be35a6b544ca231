import Unguard.Command.Run

/-!
# The program

Reads the file of the request, carries the request out and prints or saves the result.
-/

namespace Unguard.Main

open Command

/-- The number of an error, which some parts of the system give with a minus sign. -/
def systemCode (code : UInt32) : Nat :=
  min code.toNat (UInt32.size - code.toNat)

/-- Puts an error of the system in the program's words. -/
def fileError : IO.Error → FileError
  | .noFileOrDirectory .. => .notFound
  | .inappropriateType _ code reason =>
    if systemCode code = 20 then .notDirectory
    else if systemCode code = 21 then .isDirectory
    else .other s!"{reason} (os error {systemCode code})"
  | .invalidArgument _ code reason =>
    if systemCode code = 36 then .nameTooLong
    else .other s!"{reason} (os error {systemCode code})"
  | .permissionDenied _ code _ => .other s!"Permission denied (os error {systemCode code})"
  | error => .other error.toString

def readFile (path : String) : IO (Except FileError ByteArray) := do
  try
    return .ok (← IO.FS.readBinFile path)
  catch error =>
    return .error (fileError error)

def saveFile (path text : String) : IO (Except FileError Unit) := do
  try
    IO.FS.writeFile path text
    return .ok ()
  catch error =>
    return .error (fileError error)

/-- Carries out a request. -/
def perform (request : Request) : IO Ending := do
  match request.execute (← readFile request.file) with
  | .error fault => return .abort fault
  | .ok (.error error) => return .failure error
  | .ok (.ok (.print text)) => return .success text
  | .ok (.ok (.save path text)) => return .saved (← saveFile path text)

def usage : String :=
  "usage: lower FILE [--promote DIALECT.NAME]... [--pass guard-raise|promote]...\n" ++
  "             [--no-dce] [--verify] [--max-iterations N] [-o|--output FILE]\n" ++
  "       verify FILE\n"

end Unguard.Main

open Unguard Unguard.Command in
def main (args : List String) : IO UInt32 := do
  match Request.parse? args with
  | none =>
    (← IO.getStderr).putStr Main.usage
    return 2
  | some request =>
    let ending ← Main.perform request
    (← IO.getStdout).putStr ending.stdout
    (← IO.getStderr).putStr ending.stderr
    return ending.status.toUInt32
