import Unguard.OpSet
import Unguard.Graph.Erase
import Unguard.Lower.Rounds

/-!
# Sweeping dead code

A node is dead if it computes by an operator without effects and none of its outputs is used.
Conditionals and raises are never dead.  A sweep goes through each block from its last node to its
first, after the blocks inside it, so a node whose consumers were swept away goes with them.  Sweeps
are repeated until one removes nothing, or up to a limit.
-/

namespace Unguard

/-- What a run of sweeps did. -/
structure SweepReport where
  removed : Nat
  /-- The number of sweeps, with the one that removed nothing. -/
  sweeps : Nat
  /-- Whether the last sweep removed nothing. -/
  settled : Bool
deriving DecidableEq, Repr, Inhabited

namespace Graph

/-- Whether a node is dead, where the operators of `impure` have effects. -/
def isDead (g : Graph) (impure : OpSet) (n : NodeId) : Bool :=
  match g.node? n with
  | none => false
  | some node =>
    match node.kind with
    | .op name => !impure.contains name && node.outputs.all fun v => !g.isUsed v
    | .conditional | .raise => false

/-- Erases the dead ones among nodes, in the order given.  Answers how many there were. -/
def eraseDead (g : Graph) (impure : OpSet) : List NodeId → Except Fault (Nat × Graph)
  | [] => .ok (0, g)
  | n :: ns =>
    if g.isDead impure n then do
      let g ← g.erase n
      let (count, g) ← g.eraseDead impure ns
      return (count + 1, g)
    else g.eraseDead impure ns

mutual

/-- Sweeps the blocks inside nodes, in order. -/
def sweepInside (g : Graph) (impure : OpSet) : NodeTrees → Except Fault (Nat × Graph)
  | .done => .ok (0, g)
  | .node _ arms rest => do
    let (first, g) ← g.sweepArms impure arms
    let (second, g) ← g.sweepInside impure rest
    return (first + second, g)

/-- Sweeps blocks, in order: first what is inside their nodes, then the nodes from last to first. -/
def sweepArms (g : Graph) (impure : OpSet) : BlockTrees → Except Fault (Nat × Graph)
  | .done => .ok (0, g)
  | .arm _ body rest => do
    let (inside, g) ← g.sweepInside impure body
    let (own, g) ← g.eraseDead impure (body.heads.map NodeView.id).reverse
    let (others, g) ← g.sweepArms impure rest
    return (inside + own + others, g)

end

/-- One sweep of the whole graph.  Answers how many nodes it erased. -/
def sweep (g : Graph) (impure : OpSet) : Except Fault (Nat × Graph) := do
  let tree ← g.tree
  g.sweepArms impure (.arm tree.head tree.body .done)

/-- At most `limit` sweeps. -/
def sweeps (impure : OpSet) : Nat → Graph → Except Fault (SweepReport × Graph)
  | 0, g => .ok ({ removed := 0, sweeps := 0, settled := false }, g)
  | limit + 1, g => do
    let (removed, g) ← g.sweep impure
    if removed = 0 then return ({ removed := 0, sweeps := 1, settled := true }, g)
    else do
      let (rest, g) ← sweeps impure limit g
      return ({
        removed := removed + rest.removed
        sweeps := rest.sweeps + 1
        settled := rest.settled }, g)

/-- Removes dead code. -/
def sweepDeadCode (g : Graph) (impure : OpSet) (limit : Nat) :
    Except Fault (SweepReport × Graph) :=
  sweeps impure (effectiveLimit limit) g

end Graph

end Unguard
