import Unguard.Graph.Visit

/-!
# Arms of conditionals

What can be done to a conditional depends on how its two arms end: in nothing, in a raise, or in some other
node.  Arms that take parameters are left alone, since their contents make no sense outside of them.

Before a pass begins, every conditional with two arms has to return from both as many values as it
has outputs.
-/

namespace Unguard

/-- How an arm ends. -/
inductive ArmEnding
  /-- It has no nodes. -/
  | empty
  /-- Its last node is a raise. -/
  | inRaise
  /-- Its last node is of another kind. -/
  | inOther (kind : Kind)
deriving DecidableEq, Repr, Inhabited

/-- An arm that returns another number of values than its conditional has outputs. -/
structure ArmMismatch where
  node : NodeId
  arm : Nat
  outputs : Nat
  returned : Nat
deriving DecidableEq, Repr, Inhabited

def ArmMismatch.message (m : ArmMismatch) : String :=
  s!"conditional {m.node.text} has {m.outputs} output(s) but arm #{m.arm} returns " ++
    s!"{m.returned} value(s)"

namespace Graph

/-- The last node of a block. -/
def lastNode? (g : Graph) (b : BlockId) : Option NodeId := do
  let block ← g.block? b
  block.nodes.getLast?

/-- How an arm ends. -/
def armEnding (g : Graph) (b : BlockId) : ArmEnding :=
  match (g.lastNode? b).bind g.node? with
  | none => .empty
  | some node => if node.kind = .raise then .inRaise else .inOther node.kind

/-- The arms of a conditional that has two. -/
def arms? (g : Graph) (n : NodeId) : Option (BlockId × BlockId) := do
  let node ← g.node? n
  match node.kind, node.blocks with
  | .conditional, [first, second] => some (first, second)
  | _, _ => none

/-- The arms of a conditional that has two, neither with parameters. -/
def bareArms? (g : Graph) (n : NodeId) : Option (BlockId × BlockId) := do
  let (first, second) ← g.arms? n
  if g.paramCount first = 0 ∧ g.paramCount second = 0 then some (first, second) else none

/-- The first arm of a two-armed conditional that returns the wrong number of values. -/
def armMismatch? (g : Graph) (n : NodeId) : Option ArmMismatch := do
  let (first, second) ← g.arms? n
  let outputs := (g.outputsOf n).length
  if g.returnCount first ≠ outputs then some ⟨n, 0, outputs, g.returnCount first⟩
  else if g.returnCount second ≠ outputs then some ⟨n, 1, outputs, g.returnCount second⟩
  else none

/-- The first arm in the graph, in the order of a walk, that returns the wrong number of values. -/
def firstMismatch (g : Graph) : Except Fault (Option ArmMismatch) := do
  let walk ← g.walk fun _ => .descend
  return walk.visited.findSome? g.armMismatch?

end Graph

end Unguard
