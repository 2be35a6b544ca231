import Unguard.Graph.Edit
import Unguard.Graph.Tree

/-!
# Erasing a node with all it holds

`Graph.erase` takes a node out of its block, empties and releases the blocks it owns at every depth,
and removes it.  Within a block the nodes go from the last to the first, so the consumers of a value
are gone before the node that computes it.  What remains in the way is a use of the erased node's own
outputs, or a use from outside of a value inside it; then erasing faults.
-/

namespace Unguard.Graph

mutual

/-- Erases the nodes of a body, the last one first. -/
def eraseNodes (g : Graph) : NodeTrees → Except Fault Graph
  | .done => .ok g
  | .node head arms rest => do
    let g ← g.eraseNodes rest
    let g ← g.detach head.id
    let g ← g.eraseArms arms
    g.remove head.id

/-- Empties and releases blocks in order. -/
def eraseArms (g : Graph) : BlockTrees → Except Fault Graph
  | .done => .ok g
  | .arm head body rest => do
    let g ← g.setReturns head.id []
    let g ← g.eraseNodes body
    let g ← g.release head.id
    g.eraseArms rest

end

/-- Erases a node and everything inside its blocks.  Once the node is out of its block nothing below
it can lead back to it, so what it holds is a tree. -/
def erase (g : Graph) (n : NodeId) : Except Fault Graph := do
  let g ← g.detach n
  let node ← g.node n
  let arms ← g.blockTrees node.blocks
  let g ← g.eraseArms arms
  g.remove n

end Unguard.Graph
