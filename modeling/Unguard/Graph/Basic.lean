import Unguard.Operator
import Unguard.TypeTable
import Unguard.Attribute
import Unguard.Graph.Uses

/-!
# Graphs

A graph is a set of tables: nodes, values and blocks by number, the use chains of the values, and the
types.  Nodes stand in blocks, a node may own blocks (the arms of a conditional), and one block, the
top block, belongs to the graph itself.  What was removed keeps its number and is marked released.

This module holds the tables and how to read them; `Graph.Edit` changes them.
-/

namespace Unguard

/-- What a node does. -/
inductive Kind
  /-- Chooses one of two arms. -/
  | conditional
  /-- Fails at run time. -/
  | raise
  /-- Computes by the operator of that name. -/
  | op (name : Operator)
deriving DecidableEq, Repr, Inhabited

namespace Kind

def text : Kind → String
  | conditional => "if"
  | raise => "raise"
  | op name => name.text

end Kind

structure Node where
  kind : Kind
  inputs : List ValueId
  outputs : List ValueId
  attributes : Attributes
  /-- The blocks the node owns. -/
  blocks : List BlockId
  /-- The block the node stands in. -/
  parent : Option BlockId
  released : Bool
deriving Inhabited

/-- The type and the debug name of a value. -/
structure Label where
  ty : TypeId
  name : Option String
deriving DecidableEq, Repr, Inhabited

structure Value where
  origin : Origin
  label : Label
deriving DecidableEq, Repr, Inhabited

structure Block where
  params : List ValueId
  nodes : List NodeId
  /-- The values the block hands back at its end. -/
  returns : List ValueId
  /-- The node the block belongs to. -/
  owner : Option NodeId
  released : Bool
deriving DecidableEq, Repr, Inhabited

/-- A block with nothing in it. -/
def Block.empty : Block :=
  { params := [], nodes := [], returns := [], owner := none, released := false }

structure Graph where
  nodes : Array Node
  values : Array Value
  blocks : Array Block
  uses : UseTable
  types : TypeTable
deriving Inhabited

namespace Graph

/-- The block that belongs to the graph itself. -/
def top : BlockId :=
  ⟨0⟩

/-- The graph with an empty top block. -/
def empty : Graph :=
  { nodes := #[], values := #[], blocks := #[.empty], uses := .empty, types := .empty }

/-! ### Reading the tables -/

def node? (g : Graph) (n : NodeId) : Option Node :=
  g.nodes[n.index]?

def value? (g : Graph) (v : ValueId) : Option Value :=
  g.values[v.index]?

def block? (g : Graph) (b : BlockId) : Option Block :=
  g.blocks[b.index]?

/-- The node with that number, or a fault if there is none. -/
def node (g : Graph) (n : NodeId) : Except Fault Node :=
  match g.node? n with
  | some node => .ok node
  | none => .error .outOfRange

/-- The value with that number, or a fault if there is none. -/
def value (g : Graph) (v : ValueId) : Except Fault Value :=
  match g.value? v with
  | some value => .ok value
  | none => .error .outOfRange

/-- The block with that number, or a fault if there is none. -/
def block (g : Graph) (b : BlockId) : Except Fault Block :=
  match g.block? b with
  | some block => .ok block
  | none => .error .outOfRange

/-- The output of a node at a position. -/
def output (g : Graph) (n : NodeId) (position : Nat) : Except Fault ValueId := do
  let node ← g.node n
  match node.outputs[position]? with
  | some v => .ok v
  | none => .error .outOfRange

/-- The outputs of a node; a node that does not exist has none. -/
def outputsOf (g : Graph) (n : NodeId) : List ValueId :=
  match g.node? n with
  | some node => node.outputs
  | none => []

/-- The number of parameters of a block; a block that does not exist has none. -/
def paramCount (g : Graph) (b : BlockId) : Nat :=
  match g.block? b with
  | some block => block.params.length
  | none => 0

/-- The number of values a block returns; a block that does not exist returns none. -/
def returnCount (g : Graph) (b : BlockId) : Nat :=
  match g.block? b with
  | some block => block.returns.length
  | none => 0

/-- The slots that consume a value. -/
def usesOf (g : Graph) (v : ValueId) : List Slot :=
  g.uses.get v

def isUsed (g : Graph) (v : ValueId) : Bool :=
  !(g.usesOf v).isEmpty

/-- A node is live until it is removed.  Numbers not given out yet count as live. -/
def isLive (g : Graph) (n : NodeId) : Bool :=
  match g.node? n with
  | some node => !node.released
  | none => true

/-- A block is live until it is released.  Numbers not given out yet count as live. -/
def isBlockLive (g : Graph) (b : BlockId) : Bool :=
  match g.block? b with
  | some block => !block.released
  | none => true

/-- The number of live nodes, placed or not. -/
def liveCount (g : Graph) : Nat :=
  g.nodes.toList.countP fun node => !node.released

/-- The values given out so far. -/
def valueIds (g : Graph) : List ValueId :=
  (List.range g.values.size).map ValueId.mk

/-- The type of a value, written out. -/
def typeOf (g : Graph) (v : ValueId) : Except Fault TypeTree := do
  let value ← g.value v
  g.types.expand value.label.ty

end Graph

end Unguard
