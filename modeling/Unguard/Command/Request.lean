import Unguard.Lower.Stages

/-!
# Command-line requests

```text
lower FILE [--promote DIALECT.NAME]... [--pass PASS]... [--no-dce] [--verify]
           [--max-iterations N] [-o|--output FILE]
verify FILE
```

Options may stand before or after the file.  The value of an option follows it or is attached with
`=`, for a short option also directly; a value that follows may not look like an option itself.
After `--` everything is a file.  `--promote` and `--pass` may be given several times, the others
once.  Whatever does not fit is a usage error.
-/

namespace Unguard.Command

/-- What to lower and how. -/
structure LowerRequest where
  file : String
  promote : List Operator
  passes : List Pass
  noSweep : Bool
  verify : Bool
  limit : Option Nat
  output : Option String
deriving DecidableEq, Repr, Inhabited

inductive Request
  | lower (request : LowerRequest)
  | verify (file : String)
deriving DecidableEq, Repr, Inhabited

/-! ### Arguments -/

/-- Whether an argument looks like an option.  A single dash does not. -/
def looksLikeOption (arg : String) : Bool :=
  match arg.toList with
  | '-' :: _ :: _ => true
  | _ => false

/-- One option as given, with an attached value if it has one. -/
structure Given where
  name : String
  attached : Option String
deriving DecidableEq, Repr, Inhabited

/-- Splits an argument that looks like an option. -/
def Given.ofArg (arg : String) : Given :=
  match arg.toList with
  | '-' :: '-' :: long =>
    match long.span (· ≠ '=') with
    | (name, _ :: value) => ⟨"--" ++ String.ofList name, some (String.ofList value)⟩
    | (name, []) => ⟨"--" ++ String.ofList name, none⟩
  | '-' :: short :: '=' :: value => ⟨String.ofList ['-', short], some (String.ofList value)⟩
  | '-' :: short :: c :: value => ⟨String.ofList ['-', short], some (String.ofList (c :: value))⟩
  | _ => ⟨arg, none⟩

/-- A number below `2 ^ 64`, with or without a plus sign. -/
def parseLimit? (text : String) : Option Nat :=
  let digits := match text.toList with
    | '+' :: digits => digits
    | digits => digits
  let n := Decimal.ofDigitList digits
  if !digits.isEmpty && digits.all Char.isDigit && n < UInt64.size then some n else none

/-- A path may not be empty. -/
def parsePath? (text : String) : Option String :=
  if text.isEmpty then none else some text

/-! ### The options of `lower` -/

/-- The arguments of `lower` read so far. -/
structure LowerArgs where
  file : Option String := none
  promote : List Operator := []
  passes : List Pass := []
  noSweep : Bool := false
  verify : Bool := false
  limit : Option Nat := none
  output : Option String := none
deriving DecidableEq, Repr, Inhabited

namespace LowerArgs

/-- Adds the file. -/
def addFile (args : LowerArgs) (file : String) : Option LowerArgs := do
  let file ← parsePath? file
  if args.file.isSome then none else some { args with file := some file }

/-- Adds a switch, if the name is one. -/
def addSwitch? (args : LowerArgs) (name : String) : Option (Option LowerArgs) :=
  if name = "--no-dce" then
    some (if args.noSweep then none else some { args with noSweep := true })
  else if name = "--verify" then
    some (if args.verify then none else some { args with verify := true })
  else none

/-- Adds an option with its value. -/
def addValue (args : LowerArgs) (name value : String) : Option LowerArgs :=
  if name = "--promote" then do
    let op ← Operator.parse? value
    return { args with promote := args.promote ++ [op] }
  else if name = "--pass" then do
    let pass ← Pass.parse? value
    return { args with passes := args.passes ++ [pass] }
  else if name = "--max-iterations" then do
    let limit ← parseLimit? value
    if args.limit.isSome then none else some { args with limit := some limit }
  else if name = "--output" ∨ name = "-o" then do
    let output ← parsePath? value
    if args.output.isSome then none else some { args with output := some output }
  else none

/-- Adds files only. -/
def readFiles (args : LowerArgs) : List String → Option LowerArgs
  | [] => some args
  | file :: rest => do
    let args ← args.addFile file
    args.readFiles rest

/-- Reads arguments in order. -/
def read (args : LowerArgs) : List String → Option LowerArgs
  | [] => some args
  | arg :: rest =>
    if arg = "--" then args.readFiles rest
    else if looksLikeOption arg then
      let given := Given.ofArg arg
      match args.addSwitch? given.name with
      | some added =>
        if given.attached.isSome then none
        else do
          let args ← added
          args.read rest
      | none =>
        match given.attached, rest with
        | some value, rest => do
          let args ← args.addValue given.name value
          args.read rest
        | none, value :: rest =>
          if looksLikeOption value then none
          else do
            let args ← args.addValue given.name value
            args.read rest
        | none, [] => none
    else do
      let args ← args.addFile arg
      args.read rest

/-- The request, once there is a file. -/
def toRequest? (args : LowerArgs) : Option LowerRequest := do
  let file ← args.file
  return {
    file
    promote := args.promote
    passes := args.passes
    noSweep := args.noSweep
    verify := args.verify
    limit := args.limit
    output := args.output }

end LowerArgs

/-- The one file of `verify`. -/
def verifyFile? : List String → Option String
  | ["--", file] => parsePath? file
  | [file, "--"] | [file] => if looksLikeOption file then none else parsePath? file
  | _ => none

/-- Reads the arguments of the program, or finds that they are wrong. -/
def Request.parse? : List String → Option Request
  | "lower" :: args => do
    let args ← LowerArgs.read {} args
    let request ← args.toRequest?
    return .lower request
  | "verify" :: args => do
    let file ← verifyFile? args
    return .verify file
  | _ => none

end Unguard.Command
