import Unguard.Graph.Basic

/-!
# Editing a graph

Each edit comes in two parts.  Its effect on the tables is a total function (`allocNode`,
`attachLast`, …) that takes its preconditions for granted.  The edit proper (`newNode`, `append`, …)
checks the preconditions, answers the first one that fails as a `Fault`, and otherwise has exactly
that effect.

New entries get the next number of their table.  A new node stands nowhere until it is placed.  Slot
chains follow every edit: a slot is entered at the end of the chain of the value it begins to hold.
-/

namespace Unguard

/-- What a new node is made from. -/
structure NodeSpec where
  kind : Kind
  inputs : List ValueId
  /-- The labels of its outputs. -/
  outputs : List Label
  attributes : Attributes
  /-- The blocks it will own. -/
  blocks : List BlockId
deriving Inhabited

/-- Puts `n` in front of `anchor`. -/
def NodeId.insertBefore (n anchor : NodeId) : List NodeId → List NodeId
  | [] => []
  | x :: xs => if x = anchor then n :: x :: xs else x :: insertBefore n anchor xs

namespace Graph

def modifyNode (g : Graph) (n : NodeId) (f : Node → Node) : Graph :=
  { g with nodes := g.nodes.modify n.index f }

def modifyValue (g : Graph) (v : ValueId) (f : Value → Value) : Graph :=
  { g with values := g.values.modify v.index f }

def modifyBlock (g : Graph) (b : BlockId) (f : Block → Block) : Graph :=
  { g with blocks := g.blocks.modify b.index f }

/-! ### Types -/

/-- Interns a type of the graph. -/
def internType (g : Graph) (entry : TypeEntry) : TypeId × Graph :=
  let (ty, types) := g.types.intern entry
  (ty, { g with types })

/-! ### Blocks and parameters -/

/-- A new block that nothing owns. -/
def newBlock (g : Graph) : BlockId × Graph :=
  (⟨g.blocks.size⟩, { g with blocks := g.blocks.push .empty })

/-- A new parameter after those the block has. -/
def allocParam (g : Graph) (b : BlockId) (label : Label) : ValueId × Graph :=
  let v : ValueId := ⟨g.values.size⟩
  let g' := { g with values := g.values.push ⟨.param b (g.paramCount b), label⟩ }
  (v, g'.modifyBlock b fun block => { block with params := block.params ++ [v] })

/-- A new parameter of an existing block. -/
def newParam (g : Graph) (b : BlockId) (label : Label) : Except Fault (ValueId × Graph) := do
  let _ ← g.block b
  return g.allocParam b label

/-- Makes `values` what the block returns. -/
def assignReturns (g : Graph) (b : BlockId) (values : List ValueId) : Graph :=
  match g.block? b with
  | none => g
  | some block =>
    let holder := Holder.block b
    let uses := (g.uses.leave (holder.slots block.returns)).enter (holder.slots values)
    { g with uses }.modifyBlock b fun block => { block with returns := values }

/-- Makes `values` what an existing block returns. -/
def setReturns (g : Graph) (b : BlockId) (values : List ValueId) : Except Fault Graph := do
  let _ ← g.block b
  return g.assignReturns b values

/-- Marks a block released.  Only an emptied block that is not the top block can be. -/
def release (g : Graph) (b : BlockId) : Except Fault Graph :=
  if b = top then .error .releaseTop
  else do
    let block ← g.block b
    if !block.nodes.isEmpty then .error (.blockHasNodes b block.nodes.length)
    else if !block.returns.isEmpty then .error (.blockReturns b)
    else return g.modifyBlock b fun block => { block with released := true }

/-! ### Making and removing nodes -/

/-- A new node with its outputs.  It becomes the owner of its blocks. -/
def allocNode (g : Graph) (spec : NodeSpec) : NodeId × Graph :=
  let n : NodeId := ⟨g.nodes.size⟩
  let outputs := (List.range' g.values.size spec.outputs.length).map ValueId.mk
  let node : Node :=
    { kind := spec.kind, inputs := spec.inputs, outputs, attributes := spec.attributes,
      blocks := spec.blocks, parent := none, released := false }
  let values := spec.outputs.mapIdx fun position label => Value.mk (.output n position) label
  (n, { g with
    nodes := g.nodes.push node
    values := g.values ++ values.toArray
    blocks := spec.blocks.foldl
      (fun blocks b => blocks.modify b.index fun block => { block with owner := some n }) g.blocks
    uses := g.uses.enter (Holder.slots (.node n) spec.inputs) })

/-- The first reason why a new node `n` that took the blocks `taken` cannot own `blocks` as well. -/
def ownershipFault? (g : Graph) (n : NodeId) (taken : List BlockId) : List BlockId → Option Fault
  | [] => none
  | b :: bs =>
    if b = top then some (.topOwned n)
    else match g.block? b with
      | none => some .outOfRange
      | some block =>
        match if b ∈ taken then some n else block.owner with
        | some owner => some (.blockOwned b owner n)
        | none => g.ownershipFault? n (b :: taken) bs

/-- A new node.  Its blocks have to exist and be free; its inputs need not exist yet. -/
def newNode (g : Graph) (spec : NodeSpec) : Except Fault (NodeId × Graph) :=
  match g.ownershipFault? ⟨g.nodes.size⟩ [] spec.blocks with
  | some fault => .error fault
  | none => .ok (g.allocNode spec)

/-- The first reason why a node cannot be removed. -/
def removalFault? (g : Graph) (n : NodeId) (node : Node) : Option Fault :=
  match node.parent with
  | some parent => some (.stillAttached n parent)
  | none =>
    match node.outputs.find? g.isUsed with
    | some v => some (.outputUsed v n (g.usesOf v).length)
    | none => (node.blocks.find? g.isBlockLive).map fun b => .armNotReleased b n

/-- Marks a node released.  It has to stand nowhere, its outputs have to be unused and its blocks
released; its own slots leave the use chains. -/
def remove (g : Graph) (n : NodeId) : Except Fault Graph := do
  let node ← g.node n
  match g.removalFault? n node with
  | some fault => .error fault
  | none =>
    let g' := { g with uses := g.uses.leave (Holder.slots (.node n) node.inputs) }
    return g'.modifyNode n fun node => { node with released := true }

/-! ### Placing nodes -/

/-- Puts a node at the end of a block. -/
def attachLast (g : Graph) (b : BlockId) (n : NodeId) : Graph :=
  (g.modifyNode n fun node => { node with parent := some b }).modifyBlock b fun block =>
    { block with nodes := block.nodes ++ [n] }

/-- Puts a node that stands nowhere at the end of a block. -/
def append (g : Graph) (b : BlockId) (n : NodeId) : Except Fault Graph := do
  let node ← g.node n
  match node.parent with
  | some parent => .error (.appendPlaced n parent)
  | none => do
    let _ ← g.block b
    return g.attachLast b n

/-- Puts a node that stands nowhere directly in front of one that stands in a block. -/
def insertBefore (g : Graph) (anchor n : NodeId) : Except Fault Graph := do
  let node ← g.node n
  match node.parent with
  | some parent => .error (.insertPlaced n parent)
  | none => do
    let anchorNode ← g.node anchor
    match anchorNode.parent with
    | none => .error (.anchorDetached anchor)
    | some b => do
      let block ← g.block b
      if anchor ∈ block.nodes then
        return (g.modifyNode n fun node => { node with parent := some b }).modifyBlock b fun block =>
          { block with nodes := n.insertBefore anchor block.nodes }
      else .error .anchorMissing

/-- Takes a node out of the block it stands in, if it stands in one. -/
def detach (g : Graph) (n : NodeId) : Except Fault Graph := do
  let node ← g.node n
  match node.parent with
  | none => return g
  | some b =>
    return (g.modifyNode n fun node => { node with parent := none }).modifyBlock b fun block =>
      { block with nodes := block.nodes.filter (· ≠ n) }

/-! ### Values -/

/-- Gives `target` the label of `source`. -/
def copyLabel (g : Graph) (source target : ValueId) : Except Fault Graph := do
  let value ← g.value source
  let _ ← g.value target
  return g.modifyValue target fun v => { v with label := value.label }

/-- The values a holder holds. -/
def held (g : Graph) : Holder → Except Fault (List ValueId)
  | .node n => do
    let node ← g.node n
    return node.inputs
  | .block b => do
    let block ← g.block b
    return block.returns

/-- Makes `values` what a holder holds, without regard to use chains. -/
def hold (g : Graph) (values : List ValueId) : Holder → Graph
  | .node n => g.modifyNode n fun node => { node with inputs := values }
  | .block b => g.modifyBlock b fun block => { block with returns := values }

/-- Puts `new` into a slot that holds `old`. -/
def redirect (old new : ValueId) (g : Graph) (slot : Slot) : Except Fault Graph := do
  let values ← g.held slot.holder
  match values[slot.position]? with
  | none => .error .outOfRange
  | some v =>
    if v = old then
      return { g with uses := g.uses.modify new (· ++ [slot]) }.hold
        (values.set slot.position new) slot.holder
    else .error .slotMismatch

/-- Puts `new` into every slot that holds `old`.  The slots move to the end of the chain of `new` in
the order they had. -/
def replaceUses (g : Graph) (old new : ValueId) : Except Fault Graph :=
  if old = new then .ok g
  else (g.usesOf old).foldlM (redirect old new) { g with uses := g.uses.modify old fun _ => [] }

end Graph

end Unguard
