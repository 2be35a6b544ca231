import Unguard.Graph.Edit
import Unguard.Graph.Tree

/-!
# Copying nodes

A copy of a node has the same kind, attributes and labels, copies of all that its blocks hold, and in
its slots the values that a renaming gives for the node's own.  Copying extends the renaming: it sends
every value defined by the node, or inside it, to the value that takes its place.
-/

namespace Unguard

/-- Which value takes the place of which.  Values that are not mentioned stand for themselves. -/
structure Renaming where
  /-- The pairs, the latest first. -/
  pairs : List (ValueId × ValueId)
deriving DecidableEq, Repr, Inhabited

namespace Renaming

def empty : Renaming :=
  ⟨[]⟩

/-- Lets `target` take the place of `source`. -/
def insert (r : Renaming) (source target : ValueId) : Renaming :=
  ⟨(source, target) :: r.pairs⟩

/-- Lets the values of `targets` take the places of those of `sources`. -/
def insertAll (r : Renaming) : List ValueId → List ValueId → Renaming
  | source :: sources, target :: targets => (r.insert source target).insertAll sources targets
  | _, _ => r

/-- The value that takes the place of `v`. -/
def resolve (r : Renaming) (v : ValueId) : ValueId :=
  (r.pairs.lookup v).getD v

@[simp] theorem resolve_empty (v : ValueId) : empty.resolve v = v := rfl

theorem resolve_insert (r : Renaming) (source target v : ValueId) :
    (r.insert source target).resolve v = if v = source then target else r.resolve v := by
  rw [resolve, insert, List.lookup_cons]
  by_cases h : v = source
  · simp [h]
  · rw [beq_false_of_ne h, if_neg h]
    rfl

end Renaming

/-- A graph under copying, with the renaming as it stands. -/
structure Copying where
  graph : Graph
  subst : Renaming
deriving Inhabited

namespace Graph

/-- The label of a value; values that do not exist have the first type and no name. -/
def labelOf (g : Graph) (v : ValueId) : Label :=
  match g.value? v with
  | some value => value.label
  | none => ⟨⟨0⟩, none⟩

end Graph

namespace Copying

/-- Gives block `b` copies of the parameters `params`. -/
def copyParams (c : Copying) (b : BlockId) : List ValueId → Copying
  | [] => c
  | v :: vs =>
    let (new, graph) := c.graph.allocParam b (c.graph.labelOf v)
    copyParams ⟨graph, c.subst.insert v new⟩ b vs

/-- Copies the node `head` itself, given the copies of its blocks and its inputs' values. -/
def copyHead (c : Copying) (head : NodeView) (inputs : List ValueId) (blocks : List BlockId) :
    NodeId × Copying :=
  let (n, graph) := c.graph.allocNode
    { kind := head.kind, inputs, outputs := head.outputs.map c.graph.labelOf,
      attributes := head.attributes, blocks }
  (n, ⟨graph, c.subst.insertAll head.outputs (graph.outputsOf n)⟩)

mutual

/-- Copies the nodes of a body in order to the end of block `b`. -/
def copyNodes (c : Copying) (b : BlockId) : NodeTrees → Copying
  | .done => c
  | .node head arms rest =>
    let inputs := head.inputs.map c.subst.resolve
    let (blocks, c) := c.copyArms arms
    let (n, c) := c.copyHead head inputs blocks
    copyNodes { c with graph := c.graph.attachLast b n } b rest

/-- Copies blocks in order to new blocks. -/
def copyArms (c : Copying) : BlockTrees → List BlockId × Copying
  | .done => ([], c)
  | .arm head body rest =>
    let (b, graph) := c.graph.newBlock
    let c := { c with graph }.copyParams b head.params
    let c := c.copyNodes b body
    let returns := head.returns.map c.subst.resolve
    let (bs, c) := copyArms { c with graph := c.graph.assignReturns b returns } rest
    (b :: bs, c)

end

/-- Copies one node with what its blocks hold.  The copy stands nowhere. -/
def copyNode (c : Copying) (head : NodeView) (arms : BlockTrees) : NodeId × Copying :=
  let inputs := head.inputs.map c.subst.resolve
  let (blocks, c) := c.copyArms arms
  c.copyHead head inputs blocks

end Copying

namespace Graph

/-- Copies a node, with values renamed by `r`.  Answers the copy, the graph with it, and the renaming
extended by the values of the node. -/
def copy (g : Graph) (n : NodeId) (r : Renaming) : Except Fault (NodeId × Copying) := do
  let node ← g.node n
  let arms ← g.blockTrees node.blocks
  return Copying.copyNode ⟨g, r⟩ (node.view n) arms

end Graph

end Unguard
