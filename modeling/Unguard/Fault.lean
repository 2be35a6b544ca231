import Unguard.Id

/-!
# Faults

Editing a graph has preconditions: a node is placed once, a block has one owner, what is removed is
no longer in use.  A `Fault` says which of them a request broke.
-/

namespace Unguard

/-- Why an operation on a graph could not be carried out. -/
inductive Fault
  /-- An identifier or a position lies outside its table or list. -/
  | outOfRange
  /-- The structure to be written out contains itself. -/
  | endless
  /-- A slot listed in the use chain of a value does not hold that value. -/
  | slotMismatch
  /-- The new node `node` lists the top block among its arms. -/
  | topOwned (node : NodeId)
  /-- The new node `node` lists a block that `owner` owns. -/
  | blockOwned (block : BlockId) (owner node : NodeId)
  /-- A node to be removed still stands in a block. -/
  | stillAttached (node : NodeId) (parent : BlockId)
  /-- A node to be removed has an output with uses. -/
  | outputUsed (value : ValueId) (node : NodeId) (uses : Nat)
  /-- A node to be removed owns a block that was not released. -/
  | armNotReleased (block : BlockId) (node : NodeId)
  /-- A node to be appended stands in a block already. -/
  | appendPlaced (node : NodeId) (parent : BlockId)
  /-- A node to be inserted stands in a block already. -/
  | insertPlaced (node : NodeId) (parent : BlockId)
  /-- The node to insert before stands in no block. -/
  | anchorDetached (anchor : NodeId)
  /-- The node to insert before is not listed in the block it is said to stand in. -/
  | anchorMissing
  /-- The top block is never released. -/
  | releaseTop
  /-- A block to be released still has nodes. -/
  | blockHasNodes (block : BlockId) (nodes : Nat)
  /-- A block to be released still returns values. -/
  | blockReturns (block : BlockId)
deriving DecidableEq, Repr, Inhabited

namespace Fault

/-- The message of a fault.  Faults of addressing carry none. -/
def message? : Fault → Option String
  | outOfRange | endless | slotMismatch => none
  | topOwned node => some s!"create_node: the top-level block cannot be owned by {node.text}"
  | blockOwned block owner node =>
    some (s!"create_node: block {block.text} already belongs to node {owner.text}; " ++
      s!"cannot reassign to {node.text}")
  | stillAttached node parent =>
    some (s!"remove_node: node {node.text} is still attached to {parent.text}; " ++
      "call detach_node first")
  | outputUsed value node uses =>
    some (s!"remove_node: output {value.text} of {node.text} still has {uses} use(s); " ++
      "replace all uses before removing the node")
  | armNotReleased block node =>
    some s!"remove_node: owned block {block.text} of {node.text} has not been released"
  | appendPlaced node parent =>
    some (s!"push_node: node {node.text} already belongs to {parent.text}; " ++
      "remove it from the old block first")
  | insertPlaced node parent =>
    some (s!"insert_node_before: node {node.text} already belongs to {parent.text}; " ++
      "remove it from the old block first")
  | anchorDetached anchor => some s!"insert_node_before: anchor {anchor.text} is detached"
  | anchorMissing => some "insert_node_before: anchor not found in its parent block"
  | releaseTop => some "release_block: cannot release the top-level block"
  | blockHasNodes block nodes => some s!"release_block: {block.text} still has {nodes} node(s)"
  | blockReturns block => some s!"release_block: {block.text} still declares outputs"

end Fault

end Unguard
