import Unguard.Command.Request

/-!
# Carrying out a request

A request reads one file and leads to one effect: a text is printed or saved, or an error is
reported.  Reading and saving themselves are left to the caller.
-/

namespace Unguard.Command

/-- What a successful request leads to. -/
inductive Effect
  | print (text : String)
  | save (path text : String)
deriving DecidableEq, Repr, Inhabited

/-- How the program ends. -/
structure Ending where
  status : Nat
  stdout : String
  stderr : String
deriving DecidableEq, Repr, Inhabited

/-- The text that bytes stand for. -/
def decodeText (bytes : ByteArray) : Except FileError String :=
  match String.fromUTF8? bytes with
  | some text => .ok text
  | none => .error .notText

namespace LowerRequest

/-- How the request wants the graph lowered. -/
def config (r : LowerRequest) : Config :=
  let config : Config := { sweeps := !r.noSweep }
  let config := if r.verify then { config with verifies := true } else config
  let config :=
    if r.promote.isEmpty then config else { config with promotable := .ofList r.promote }
  let config := if r.passes.isEmpty then config else { config with passes := r.passes }
  match r.limit with
  | some limit => { config with passLimit := limit, sweepLimit := limit }
  | none => config

/-- Lowers the graph and says where its text goes. -/
def execute (r : LowerRequest) (source : Except FileError String) :
    Except Fault (Except LowerError Effect) := do
  let lowering ← r.config.lowerFile source
  match lowering.outcome with
  | .error error => return .error error
  | .ok lowered => do
    let text ← lowered.graph.text
    match r.output with
    | some path => return .ok (.save path text)
    | none => return .ok (.print text)

end LowerRequest

/-- Reads and checks a graph, and says how many nodes it has. -/
def verify (file : String) (source : Except FileError String) :
    Except Fault (Except LowerError Effect) :=
  match source with
  | .error error => .ok (.error (.file error))
  | .ok text =>
    match Graph.ofText text with
    | .error error => .ok (.error (.text error))
    | .ok g => do
      let report ← g.check
      if report.isOk then return .ok (.print s!"{file}: ok ({g.liveCount} nodes)\n")
      else return .error (.invalid "parse" report)

namespace Request

/-- The file a request reads. -/
def file : Request → String
  | lower request => request.file
  | verify file => file

/-- Carries out a request, given what its file holds. -/
def execute (r : Request) (source : Except FileError ByteArray) :
    Except Fault (Except LowerError Effect) :=
  let source := source.bind decodeText
  match r with
  | lower request => request.execute source
  | verify file => Command.verify file source

end Request

namespace Ending

/-- The program has printed `text`. -/
def success (text : String) : Ending :=
  ⟨0, text, ""⟩

/-- The program reports an error. -/
def failure (error : LowerError) : Ending :=
  ⟨1, "", "error: " ++ error.message ++ "\n"⟩

/-- The program cannot go on. -/
def abort (fault : Fault) : Ending :=
  ⟨101, "", fault.message?.getD "index out of bounds" ++ "\n"⟩

/-- The end of a program that was asked to save a text. -/
def saved : Except FileError Unit → Ending
  | .ok () => success ""
  | .error error => failure (.file error)

end Ending

end Unguard.Command
