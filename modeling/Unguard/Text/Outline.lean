import Unguard.Graph.Tree
import Unguard.Text.Writer

/-!
# From graph to text

A graph is written by way of its draft.  Values are named by their place in the order of definitions:
the parameters of a block come before its nodes, the outputs of a node before what its arms define.
Debug names are not written, so graphs that differ only in them have the same text.

A node written on its own has the numbers it has in the whole graph; values that are not defined under
the top block have none and are written `%?`.  Only conditionals are written with their blocks.
-/

namespace Unguard.Text

mutual

/-- An attribute with its types written out. -/
def outlineAttribute (t : TypeTable) : Attribute → Except Fault Literal
  | .unit => .ok .unit
  | .bool value => .ok (.bool value)
  | .int bits => .ok (.int bits)
  | .float bits => .ok (.float bits)
  | .string text => .ok (.string text)
  | .type ty => do
    let ty ← t.expand ty
    return .type ty
  | .list items => do
    let items ← outlineAttributes t items
    return .list items

/-- Attributes with their types written out. -/
def outlineAttributes (t : TypeTable) : List Attribute → Except Fault (List Literal)
  | [] => .ok []
  | item :: items => do
    let first ← outlineAttribute t item
    let rest ← outlineAttributes t items
    return first :: rest

end

/-- A value by its place among `order`. -/
def numbered (order : List ValueId) (v : ValueId) : Mention :=
  match order.idxOf? v with
  | some i => ⟨i.repr, 0⟩
  | none => ⟨"?", 0⟩

/-- A node with numbered values. -/
def outlineNode (g : Graph) (order : List ValueId) (node : NodeView) :
    Except Fault NodeDraft := do
  let attributes ← traverse (fun (key, value) => do
    let value ← outlineAttribute g.types value
    return (key, value)) node.attributes.toList
  let types ← traverse g.typeOf node.outputs
  return {
    results := node.outputs.map (numbered order)
    kind := node.kind
    operands := node.inputs.map (numbered order)
    attributes
    types }

/-- Numbered parameters with their types. -/
def outlineParams (g : Graph) (order : List ValueId) (params : List ValueId) :
    Except Fault (List (Mention × TypeTree)) :=
  traverse (fun v => do
    let ty ← g.typeOf v
    return (numbered order v, ty)) params

/-- A block with numbered values. -/
def outlineBlock (g : Graph) (order : List ValueId) (block : BlockView) :
    Except Fault BlockDraft := do
  let params ← outlineParams g order block.params
  return { params, returns := block.returns.map (numbered order) }

/-- Nodes with numbered values. -/
def outlineNodes (g : Graph) (order : List ValueId) (nodes : NodeTrees) :
    Except Fault BodyDraft :=
  nodes.traverse (outlineNode g order) (outlineBlock g order)

/-- A top block with numbered values. -/
def outlineGraph (g : Graph) (order : List ValueId) (tree : BlockTree) :
    Except Fault GraphDraft := do
  let params ← outlineParams g order tree.head.params
  let body ← outlineNodes g order tree.body
  return { params, block := ⟨[], tree.head.returns.map (numbered order)⟩, body }

end Unguard.Text

namespace Unguard.Graph

open Text

/-- The values under the top block in the order of their definitions. -/
def numbering (g : Graph) : Except Fault (List ValueId) := do
  let tree ← g.tree
  return tree.definitions

/-- Whether a node is written with its blocks. -/
def writesBlocks (node : Node) : Bool :=
  node.kind = .conditional

/-- Writes out a block as it is written in a text. -/
def writtenBlock (g : Graph) (b : BlockId) : Except Fault BlockTree :=
  g.unfoldBlock writesBlocks g.blocks.size b

/-- The draft of a graph. -/
def draft (g : Graph) : Except Fault GraphDraft := do
  let order ← g.numbering
  let tree ← g.writtenBlock top
  outlineGraph g order tree

/-- The text of a graph. -/
def text (g : Graph) : Except Fault String := do
  let draft ← g.draft
  return draft.text

/-- The lines of one node, as they stand in the text of the graph but for their indentation. -/
def nodeLines (g : Graph) (n : NodeId) : Except Fault (List String) := do
  let order ← g.numbering
  let nodes ← g.unfoldNodes writesBlocks g.writtenBlock [n]
  let body ← outlineNodes g order nodes
  return bodyLines 0 body

/-- The text of one node. -/
def nodeText (g : Graph) (n : NodeId) : Except Fault String := do
  let lines ← g.nodeLines n
  return joinLines lines

/-- The text of a type. -/
def typeText (g : Graph) (ty : TypeId) : Except Fault String := do
  let tree ← g.types.expand ty
  return tree.text

end Unguard.Graph
