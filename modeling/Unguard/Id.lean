/-!
# Identifiers of the parts of a graph

Nodes, values, blocks and types are each numbered from 0 in the order they were made.  An identifier
is that number, tagged by what it identifies, and is written `node3`, `v3`, `block3` or `ty3`.
-/

namespace Unguard

structure NodeId where
  index : Nat
deriving DecidableEq, Repr, Inhabited

structure ValueId where
  index : Nat
deriving DecidableEq, Repr, Inhabited

structure BlockId where
  index : Nat
deriving DecidableEq, Repr, Inhabited

structure TypeId where
  index : Nat
deriving DecidableEq, Repr, Inhabited

def NodeId.text (n : NodeId) : String :=
  "node" ++ n.index.repr

def ValueId.text (v : ValueId) : String :=
  "v" ++ v.index.repr

def BlockId.text (b : BlockId) : String :=
  "block" ++ b.index.repr

def TypeId.text (t : TypeId) : String :=
  "ty" ++ t.index.repr

/-- The one place that defines a value. -/
inductive Origin
  /-- The output of a node at a position. -/
  | output (node : NodeId) (position : Nat)
  /-- The parameter of a block at a position. -/
  | param (block : BlockId) (position : Nat)
deriving DecidableEq, Repr, Inhabited

namespace Origin

/-- The node that computes the value, if a node does. -/
def producer? : Origin → Option NodeId
  | output node _ => some node
  | param _ _ => none

def text : Origin → String
  | output node position => node.text ++ "#" ++ position.repr
  | param block position => block.text ++ "#" ++ position.repr

end Origin

/-- What holds values in numbered slots: a node holds its inputs, a block what it returns. -/
inductive Holder
  | node (node : NodeId)
  | block (block : BlockId)
deriving DecidableEq, Repr, Inhabited

/-- A place that holds a value, and so uses it. -/
structure Slot where
  holder : Holder
  position : Nat
deriving DecidableEq, Repr, Inhabited

namespace Holder

def text : Holder → String
  | node n => n.text
  | block b => "return of " ++ b.text

/-- The slots from `position` on, with the values they hold. -/
def slotsFrom (h : Holder) (position : Nat) : List ValueId → List (ValueId × Slot)
  | [] => []
  | v :: vs => (v, ⟨h, position⟩) :: slotsFrom h (position + 1) vs

/-- The slots of a holder of `values`, each with its value. -/
def slots (h : Holder) (values : List ValueId) : List (ValueId × Slot) :=
  h.slotsFrom 0 values

end Holder

def Slot.text (s : Slot) : String :=
  "slot #" ++ s.position.repr ++ " of " ++ s.holder.text

end Unguard
