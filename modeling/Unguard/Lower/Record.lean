import Unguard.Lower.Stages

/-!
# Events as records

How events are told: a log of when passes began and ended, and a trace of records, each with a level,
the part of the work it comes from, a message and named fields.
-/

namespace Unguard

/-- How important a record is. -/
inductive Level
  | debug
  | info
  | warn
deriving DecidableEq, Repr, Inhabited

/-- The part of the work that a record comes from. -/
inductive Source
  /-- The dumps of the graph around each pass. -/
  | dump
  /-- The running of the passes. -/
  | schedule
  /-- The reduction of a pass. -/
  | reduction (pass : Pass)
  /-- The sweeping of dead code. -/
  | sweep
deriving DecidableEq, Repr, Inhabited

inductive FieldValue
  | number (value : Nat)
  | text (value : String)
deriving DecidableEq, Repr, Inhabited

structure Record where
  level : Level
  source : Source
  message : String
  fields : List (String × FieldValue)
deriving DecidableEq, Repr, Inhabited

/-- When a pass began or ended, and how many nodes were live then. -/
structure LogEntry where
  pass : Pass
  /-- Whether the pass began. -/
  starts : Bool
  live : Nat
deriving DecidableEq, Repr, Inhabited

namespace Event

/-- The entry of an event in the log. -/
def logEntry? : Event → Option LogEntry
  | started pass graph => some ⟨pass, true, graph.liveCount⟩
  | finished pass graph => some ⟨pass, false, graph.liveCount⟩
  | _ => none

/-- What is said before a site is reduced. -/
def reducingMessage : Pass → String
  | .guardRaise => "eliminating guard-raise conditional"
  | .promote => "promoting guarded computation"

/-- What is said after the rounds of a pass. -/
def reducedMessage : Pass → String
  | .guardRaise => "guard-raise elimination finished"
  | .promote => "guarded-computation promotion finished"

/-- The record of an event. -/
def record : Event → Except Fault Record
  | started pass graph => do
    let text ← graph.text
    return ⟨.debug, .dump, s!"Pre {pass.name}:\n{text}", [("pass", .text pass.name)]⟩
  | finished pass graph => do
    let text ← graph.text
    return ⟨.debug, .dump, s!"Post {pass.name}:\n{text}", [("pass", .text pass.name)]⟩
  | reducing pass node graph => do
    let text ← graph.nodeText node
    return ⟨.debug, .reduction pass, reducingMessage pass,
      [("node", .text node.text), ("ir", .text text)]⟩
  | reduced pass report =>
    .ok ⟨.debug, .reduction pass, reducedMessage pass,
      [("rewritten", .number report.reduced), ("iterations", .number report.rounds)]⟩
  | unfinished pass rounds =>
    .ok ⟨.warn, .schedule, "pass stopped before reaching a fixpoint",
      [("pass", .text pass.name), ("iterations", .number rounds)]⟩
  | swept removed sweeps =>
    .ok ⟨.debug, .sweep, "dead code elimination finished",
      [("removed", .number removed), ("iterations", .number sweeps)]⟩
  | summary pass sites removed =>
    .ok ⟨.info, .schedule, "pass finished",
      [("pass", .text pass.name), ("rewritten", .number sites), ("removed", .number removed)]⟩

end Event

/-- The log of a run. -/
def logOf (events : List Event) : List LogEntry :=
  events.filterMap Event.logEntry?

/-- The trace of a run. -/
def traceOf (events : List Event) : Except Fault (List Record) :=
  traverse Event.record events

end Unguard
