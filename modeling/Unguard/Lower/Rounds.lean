import Unguard.Lower.Conditional

/-!
# Reductions in rounds

A reduction names the sites where it applies and what it does at one.  It runs in rounds: each round
walks the whole graph for sites, without looking inside one it has found, and then reduces them in
order.  Reducing a site may make a new one, which the next round finds.  The run ends with the first
round that finds none, or at a limit.
-/

namespace Unguard

/-- A reduction whose sites carry an `α`. -/
structure Reduction (α : Type) where
  /-- Whether a node is a site. -/
  site? : Graph → NodeId → Option α
  /-- Reduces one site. -/
  apply : Graph → NodeId → α → Except Fault Graph

/-- A site that was reduced, and the graph just before. -/
structure ReducedSite where
  node : NodeId
  before : Graph
deriving Inhabited

/-- What a run of rounds did. -/
structure RoundsRun where
  graph : Graph
  /-- The sites reduced, in order. -/
  reduced : List ReducedSite
  /-- The number of rounds, with the one that found nothing. -/
  rounds : Nat
  /-- Whether the last round found nothing. -/
  settled : Bool
deriving Inhabited

/-- A run in numbers. -/
structure RoundsReport where
  reduced : Nat
  rounds : Nat
  settled : Bool
deriving DecidableEq, Repr, Inhabited

def RoundsRun.report (r : RoundsRun) : RoundsReport :=
  ⟨r.reduced.length, r.rounds, r.settled⟩

/-- Why a run did not take place. -/
inductive PassError
  | fault (fault : Fault)
  | mismatch (mismatch : ArmMismatch)
deriving DecidableEq, Repr, Inhabited

/-- A limit of zero stands for one hundred. -/
def effectiveLimit (limit : Nat) : Nat :=
  if limit = 0 then 100 else limit

namespace Reduction

variable {α : Type}

/-- The sites in the graph, in the order of a walk that passes them by. -/
def sites (r : Reduction α) (g : Graph) : Except Fault (List (NodeId × α)) := do
  let walk ← g.walk fun n => if (r.site? g n).isSome then .skip else .descend
  return walk.visited.filterMap fun n => (r.site? g n).map fun a => (n, a)

/-- Reduces sites in order. -/
def applyAll (r : Reduction α) (g : Graph) :
    List (NodeId × α) → Except Fault (Graph × List ReducedSite)
  | [] => .ok (g, [])
  | (n, a) :: sites => do
    let next ← r.apply g n a
    let (last, reduced) ← r.applyAll next sites
    return (last, ⟨n, g⟩ :: reduced)

/-- At most `limit` rounds. -/
def rounds (r : Reduction α) : Nat → Graph → Except Fault RoundsRun
  | 0, g => .ok { graph := g, reduced := [], rounds := 0, settled := false }
  | limit + 1, g => do
    let sites ← r.sites g
    if sites.isEmpty then
      return { graph := g, reduced := [], rounds := 1, settled := true }
    else do
      let (next, reduced) ← r.applyAll g sites
      let rest ← r.rounds limit next
      return {
        graph := rest.graph
        reduced := reduced ++ rest.reduced
        rounds := rest.rounds + 1
        settled := rest.settled }

/-- Runs the reduction, unless a conditional returns the wrong number of values from an arm. -/
def run (r : Reduction α) (limit : Nat) (g : Graph) : Except PassError RoundsRun :=
  match g.firstMismatch with
  | .error fault => .error (.fault fault)
  | .ok (some mismatch) => .error (.mismatch mismatch)
  | .ok none =>
    match r.rounds (effectiveLimit limit) g with
    | .error fault => .error (.fault fault)
    | .ok run => .ok run

end Reduction

end Unguard
