import Unguard.Body
import Unguard.Graph.Basic

/-!
# The tree of a graph

Nodes and blocks refer to one another by number.  Written out from a block or a node they form a
tree: the block's nodes in order, each with the blocks it owns.  Only what stands inside itself has
no such tree, and nothing that is reached from the top block does.

A tree of nested blocks is at most as deep as the graph has blocks, so the number of blocks bounds the
depth to which trees are written out.
-/

namespace Unguard

/-- A node as its surroundings see it. -/
structure NodeView where
  id : NodeId
  kind : Kind
  inputs : List ValueId
  outputs : List ValueId
  attributes : Attributes
deriving Inhabited

/-- A block as its surroundings see it. -/
structure BlockView where
  id : BlockId
  params : List ValueId
  returns : List ValueId
deriving DecidableEq, Repr, Inhabited

/-- A sequence of nodes of a graph, written out. -/
abbrev NodeTrees := Body NodeView BlockView

/-- A sequence of blocks of a graph, written out. -/
abbrev BlockTrees := Arms NodeView BlockView

/-- A block of a graph, written out. -/
structure BlockTree where
  head : BlockView
  body : NodeTrees
deriving Inhabited

namespace Node

def view (node : Node) (n : NodeId) : NodeView :=
  { id := n, kind := node.kind, inputs := node.inputs, outputs := node.outputs,
    attributes := node.attributes }

end Node

namespace Block

def view (block : Block) (b : BlockId) : BlockView :=
  { id := b, params := block.params, returns := block.returns }

end Block

mutual

/-- The values that nodes define, each node's outputs before what its arms define. -/
def NodeTrees.definitions : NodeTrees → List ValueId
  | .done => []
  | .node head arms rest =>
    head.outputs ++ BlockTrees.definitions arms ++ NodeTrees.definitions rest

/-- The values that blocks define, each block's parameters first. -/
def BlockTrees.definitions : BlockTrees → List ValueId
  | .done => []
  | .arm head body rest =>
    head.params ++ NodeTrees.definitions body ++ BlockTrees.definitions rest

end

/-- The values that a block defines, in the order of their definitions. -/
def BlockTree.definitions (t : BlockTree) : List ValueId :=
  t.head.params ++ NodeTrees.definitions t.body

namespace Graph

/-! ### Writing out

`enter` says into the blocks of which nodes to go; the others are written as if they owned none. -/

/-- Writes out blocks in order, given how to write out one. -/
def unfoldArms (unfold : BlockId → Except Fault BlockTree) :
    List BlockId → Except Fault BlockTrees
  | [] => .ok .done
  | b :: bs => do
    let tree ← unfold b
    let rest ← unfoldArms unfold bs
    return .arm tree.head tree.body rest

/-- Writes out nodes in order, given how to write out a block. -/
def unfoldNodes (g : Graph) (enter : Node → Bool) (unfold : BlockId → Except Fault BlockTree) :
    List NodeId → Except Fault NodeTrees
  | [] => .ok .done
  | n :: ns => do
    let node ← g.node n
    let arms ← unfoldArms unfold (if enter node then node.blocks else [])
    let rest ← g.unfoldNodes enter unfold ns
    return .node (node.view n) arms rest

/-- Writes out a block to at most `depth` levels of nested blocks. -/
def unfoldBlock (g : Graph) (enter : Node → Bool) : Nat → BlockId → Except Fault BlockTree
  | 0, _ => .error .endless
  | depth + 1, b => do
    let block ← g.block b
    let body ← g.unfoldNodes enter (g.unfoldBlock enter depth) block.nodes
    return ⟨block.view b, body⟩

/-! ### Trees -/

/-- The tree of a block. -/
def blockTree (g : Graph) (b : BlockId) : Except Fault BlockTree :=
  g.unfoldBlock (fun _ => true) g.blocks.size b

/-- The trees of some blocks. -/
def blockTrees (g : Graph) (bs : List BlockId) : Except Fault BlockTrees :=
  unfoldArms g.blockTree bs

/-- The trees of some nodes. -/
def nodeTree (g : Graph) (ns : List NodeId) : Except Fault NodeTrees :=
  g.unfoldNodes (fun _ => true) g.blockTree ns

/-- The tree of the top block, that is all that belongs to the graph. -/
def tree (g : Graph) : Except Fault BlockTree :=
  g.blockTree top

end Graph

end Unguard
