import Unguard.Lower.DeadCode
import Unguard.Lower.Failure
import Unguard.Lower.Guard
import Unguard.Lower.Hoist
import Unguard.Text.Outline

/-!
# Lowering in stages

Lowering runs passes in order.  After each pass it may sweep dead code and check the graph.  What
happens on the way is told by events; they carry the graph as it was at the time, so what is written
about them can be worked out afterwards or not at all.
-/

namespace Unguard

/-- The reductions that can be scheduled. -/
inductive Pass
  /-- Deletes guards. -/
  | guardRaise
  /-- Hoists guarded computations. -/
  | promote
deriving DecidableEq, Repr, Inhabited

namespace Pass

def name : Pass → String
  | guardRaise => "guard-raise"
  | promote => "promote"

def parse? (name : String) : Option Pass :=
  [guardRaise, promote].find? fun pass => pass.name = name

end Pass

/-- How to lower a graph.  A limit of zero stands for one hundred. -/
structure Config where
  /-- The operators that may be hoisted. -/
  promotable : OpSet := .hoistedByDefault
  passes : List Pass := [.guardRaise, .promote]
  /-- Whether dead code is swept after every pass. -/
  sweeps : Bool := true
  /-- Whether the graph is checked after every pass. -/
  verifies : Bool := true
  passLimit : Nat := 100
  sweepLimit : Nat := 100
  /-- The operators that are never dead. -/
  impure : OpSet := .empty
deriving DecidableEq

instance : Inhabited Config := ⟨{}⟩

/-- What one scheduled pass did. -/
structure StageReport where
  pass : Pass
  rounds : RoundsReport
  sweep : Option SweepReport
deriving DecidableEq, Repr, Inhabited

/-- What happens during a run. -/
inductive Event
  /-- A pass begins. -/
  | started (pass : Pass) (graph : Graph)
  /-- A site is about to be reduced. -/
  | reducing (pass : Pass) (node : NodeId) (graph : Graph)
  /-- A pass is through with its rounds. -/
  | reduced (pass : Pass) (report : RoundsReport)
  /-- A pass met its limit. -/
  | unfinished (pass : Pass) (rounds : Nat)
  /-- Dead code is gone. -/
  | swept (removed sweeps : Nat)
  /-- A pass and what follows it are done. -/
  | summary (pass : Pass) (sites removed : Nat)
  /-- A pass ends. -/
  | finished (pass : Pass) (graph : Graph)
deriving Inhabited

/-- A run of passes: the graph it leaves, what happened, and how it ended. -/
structure Run where
  graph : Graph
  events : List Event
  outcome : Except LowerError (List StageReport)

namespace Config

/-- Runs the reduction of a pass. -/
def reduce (config : Config) (pass : Pass) (g : Graph) : Except PassError RoundsRun :=
  match pass with
  | .guardRaise => guardRemoval.run config.passLimit g
  | .promote => (hoisting config.promotable).run config.passLimit g

/-- Sweeps dead code, if that is wanted. -/
def sweep (config : Config) (g : Graph) : Except Fault (Option SweepReport × Graph) :=
  if config.sweeps then do
    let (report, g) ← g.sweepDeadCode config.impure config.sweepLimit
    return (some report, g)
  else .ok (none, g)

/-- Checks the graph, if that is wanted. -/
def verify (config : Config) (g : Graph) : Except Fault CheckReport :=
  if config.verifies then g.check else .ok ⟨[]⟩

/-- What happens during the rounds of a pass. -/
def roundEvents (pass : Pass) (run : RoundsRun) : List Event :=
  run.reduced.map (fun site => .reducing pass site.node site.before) ++
    [.reduced pass run.report] ++
    (if run.settled then [] else [.unfinished pass run.rounds])

/-- What happens during sweeps. -/
def sweepEvents : Option SweepReport → List Event
  | some report => if report.settled then [.swept report.removed report.sweeps] else []
  | none => []

/-- Runs passes in order. -/
def runPasses (config : Config) : List Pass → Graph → Except Fault Run
  | [], g => .ok ⟨g, [], .ok []⟩
  | pass :: passes, g =>
    match config.reduce pass g with
    | .error (.fault fault) => .error fault
    | .error (.mismatch mismatch) => .ok ⟨g, [.started pass g], .error (.arity mismatch)⟩
    | .ok run => do
      let (sweep, after) ← config.sweep run.graph
      let checked ← config.verify after
      let events := .started pass g :: roundEvents pass run ++ sweepEvents sweep
      if checked.isOk then do
        let rounds := run.report
        let removed := (sweep.map SweepReport.removed).getD 0
        let rest ← config.runPasses passes after
        return {
          graph := rest.graph
          events := events ++ [.summary pass rounds.reduced removed, .finished pass after] ++
            rest.events
          outcome := rest.outcome.map ({ pass, rounds, sweep } :: ·) }
      else return ⟨after, events, .error (.invalid pass.name checked)⟩

/-- Lowers a graph. -/
def run (config : Config) (g : Graph) : Except Fault Run :=
  config.runPasses config.passes g

end Config

/-- A lowered graph and what each pass did. -/
structure LoweredGraph where
  graph : Graph
  stages : List StageReport
deriving Inhabited

/-- What happened while a text was lowered, and how it ended. -/
structure Lowering where
  events : List Event
  outcome : Except LowerError LoweredGraph

/-- Lowers a graph given as text. -/
def Config.lowerText (config : Config) (source : String) : Except Fault Lowering :=
  match Graph.ofText source with
  | .error error => .ok ⟨[], .error (.text error)⟩
  | .ok g => do
    let run ← config.run g
    return ⟨run.events, run.outcome.map (LoweredGraph.mk run.graph)⟩

/-- Lowers what was read from a file. -/
def Config.lowerFile (config : Config) (source : Except FileError String) :
    Except Fault Lowering :=
  match source with
  | .error error => .ok ⟨[], .error (.file error)⟩
  | .ok text => config.lowerText text

end Unguard
