import Unguard.OpSet
import Unguard.Graph.Copy
import Unguard.Graph.Erase
import Unguard.Lower.Rounds

/-!
# Hoisting guarded computations

A guarded computation is a conditional of which one arm ends in a chosen operator and the other in a
raise.  The computing arm is copied in front of the conditional, the values it returns take the place
of the conditional's outputs, and the conditional is erased.
-/

namespace Unguard

/-- Whether a kind is an operator of the set. -/
def OpSet.containsKind (s : OpSet) : Kind → Bool
  | .op name => s.contains name
  | .conditional | .raise => false

/-- The operators that are hoisted unless others are chosen. -/
def OpSet.hoistedByDefault : OpSet :=
  .ofList [⟨"aten", "upsample_bilinear2d"⟩]

namespace Graph

/-- The computing arm of a guarded computation that ends in an operator of the set. -/
def computingArm? (g : Graph) (ops : OpSet) (n : NodeId) : Option BlockId :=
  match g.bareArms? n with
  | none => none
  | some (first, second) =>
    match g.armEnding first, g.armEnding second with
    | .inOther kind, .inRaise => if ops.containsKind kind then some first else none
    | .inRaise, .inOther kind => if ops.containsKind kind then some second else none
    | _, _ => none

/-- Copies nodes in order to directly in front of `anchor`. -/
def copyBefore (anchor : NodeId) (c : Copying) : NodeTrees → Except Fault Copying
  | .done => .ok c
  | .node head arms rest => do
    let (n, c) := c.copyNode head arms
    let graph ← c.graph.insertBefore anchor n
    copyBefore anchor { c with graph } rest

/-- Puts `values` in the place of the outputs of `n`, from the one at `position` on. -/
def replaceOutputs (g : Graph) (n : NodeId) (position : Nat) : List ValueId → Except Fault Graph
  | [] => .ok g
  | v :: vs => do
    let old ← g.output n position
    let g ← g.replaceUses old v
    g.replaceOutputs n (position + 1) vs

/-- Replaces the conditional `n` by the contents of its arm `arm`. -/
def hoist (g : Graph) (n : NodeId) (arm : BlockId) : Except Fault Graph := do
  let tree ← g.blockTree arm
  let c ← copyBefore n ⟨g, .empty⟩ tree.body
  let g ← c.graph.replaceOutputs n 0 (tree.head.returns.map c.subst.resolve)
  g.erase n

end Graph

/-- Hoists guarded computations that end in an operator of the set. -/
def hoisting (ops : OpSet) : Reduction BlockId where
  site? g n := g.computingArm? ops n
  apply g n arm := g.hoist n arm

end Unguard
