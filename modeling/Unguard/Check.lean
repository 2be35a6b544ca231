import Unguard.Graph.Tree

/-!
# Checking a graph

Three checks look at what stands under the top block.

* **Shape**: a conditional owns two arms, each of which returns as many values as the conditional has
  outputs; no other node owns blocks.
* **Scopes**: every slot holds a value that is visible there, that is a parameter of the slot's block
  or of one around it, or an output of a node before it in one of these blocks.  The outputs of a
  conditional are not visible inside its arms.
* **Slot chains**: the chains list exactly the slots under the top block.

Each check answers the violations it finds, in a fixed order.
-/

namespace Unguard

/-- One thing that is wrong with a graph. -/
inductive Violation
  /-- A conditional owns another number of arms than two. -/
  | wrongArmCount (node : NodeId) (arms : Nat)
  /-- An arm returns another number of values than its conditional has outputs. -/
  | wrongReturnCount (node : NodeId) (arm outputs returned : Nat)
  /-- A node that is no conditional owns blocks. -/
  | ownsBlocks (node : NodeId) (kind : Kind)
  /-- A slot holds a value that is not visible there. -/
  | notVisible (slot : Slot) (value : ValueId)
  /-- A slot is missing from the use chain of the value it holds. -/
  | missingUse (slot : Slot) (value : ValueId)
  /-- The use chain of a value lists a slot that does not hold it. -/
  | staleUse (slot : Slot) (value : ValueId)
deriving DecidableEq, Repr, Inhabited

def Violation.message : Violation → String
  | wrongArmCount node arms => s!"{node.text}: conditional owns {arms} arm(s), expected 2"
  | wrongReturnCount node arm outputs returned =>
    s!"{node.text}: conditional has {outputs} output(s) but arm #{arm} returns {returned}"
  | ownsBlocks node kind => s!"{node.text}: {kind.text} node must not own blocks"
  | notVisible slot value => s!"{slot.text} references {value.text}, which is not in scope"
  | missingUse slot value =>
    s!"use-chain: {slot.text} uses {value.text} but no use-chain entry exists"
  | staleUse slot value =>
    s!"use-chain: stale use-chain entry: {value.text} recorded as used by {slot.text}"

/-! ### Shape -/

/-- The arms that return another number of values than `outputs`, counted from `arm`. -/
def arityViolations (node : NodeId) (outputs arm : Nat) : List BlockView → List Violation
  | [] => []
  | b :: bs =>
    (if b.returns.length = outputs then [] else [.wrongReturnCount node arm outputs b.returns.length]) ++
      arityViolations node outputs (arm + 1) bs

/-- What is wrong with the blocks a node owns. -/
def nodeShapeViolations (node : NodeView) (arms : List BlockView) : List Violation :=
  if node.kind = .conditional then
    (if arms.length = 2 then [] else [.wrongArmCount node.id arms.length]) ++
      arityViolations node.id node.outputs.length 0 arms
  else if arms.isEmpty then [] else [.ownsBlocks node.id node.kind]

mutual

/-- What is wrong with the blocks that nodes own, in the order of a walk. -/
def NodeTrees.shapeViolations : NodeTrees → List Violation
  | .done => []
  | .node head arms rest =>
    nodeShapeViolations head arms.heads ++ BlockTrees.shapeViolations arms ++
      NodeTrees.shapeViolations rest

@[inherit_doc NodeTrees.shapeViolations]
def BlockTrees.shapeViolations : BlockTrees → List Violation
  | .done => []
  | .arm _ body rest => NodeTrees.shapeViolations body ++ BlockTrees.shapeViolations rest

end

/-! ### Scopes -/

/-- The slots that hold a value outside `visible`. -/
def slotViolations (visible : List ValueId) : List (ValueId × Slot) → List Violation
  | [] => []
  | (v, slot) :: slots =>
    (if v ∈ visible then [] else [.notVisible slot v]) ++ slotViolations visible slots

/-- What is visible on the way through a block: one set of values for the whole walk, and those of them
that the block itself has put there. -/
structure Sight where
  visible : List ValueId
  defined : List ValueId
deriving DecidableEq, Repr, Inhabited

namespace Sight

/-- A block begins with what is visible around it. -/
def enter (visible : List ValueId) : Sight :=
  ⟨visible, []⟩

/-- Makes a value visible.  The block answers for it only if it was not visible already. -/
def define (s : Sight) (v : ValueId) : Sight :=
  if v ∈ s.visible then s else ⟨v :: s.visible, v :: s.defined⟩

def defineAll (s : Sight) (vs : List ValueId) : Sight :=
  vs.foldl define s

/-- What stays visible after a block, which takes back what it has put there. -/
def leave (s : Sight) : List ValueId :=
  s.visible.filter (· ∉ s.defined)

end Sight

mutual

/-- Goes through nodes with what is visible, and answers the slots that hold a value which is not
visible there. -/
def NodeTrees.scanScopes (s : Sight) : NodeTrees → List Violation × Sight
  | .done => ([], s)
  | .node head arms rest =>
    let found := slotViolations s.visible (Holder.slots (.node head.id) head.inputs)
    let (inside, visible) := BlockTrees.scanScopes s.visible arms
    let (after, s) := NodeTrees.scanScopes (Sight.defineAll ⟨visible, s.defined⟩ head.outputs) rest
    (found ++ inside ++ after, s)

/-- The same for blocks, one after another. -/
def BlockTrees.scanScopes (visible : List ValueId) : BlockTrees → List Violation × List ValueId
  | .done => ([], visible)
  | .arm head body rest =>
    let (inside, s) := NodeTrees.scanScopes ((Sight.enter visible).defineAll head.params) body
    let returned := slotViolations s.visible (Holder.slots (.block head.id) head.returns)
    let (after, visible) := BlockTrees.scanScopes s.leave rest
    (inside ++ returned ++ after, visible)

end

/-- The tree of one block as a sequence. -/
def BlockTree.toArms (t : BlockTree) : BlockTrees :=
  .arm t.head t.body .done

/-! ### Slot chains -/

mutual

/-- The slots of nodes and of what they hold. -/
def NodeTrees.slots : NodeTrees → List (ValueId × Slot)
  | .done => []
  | .node head arms rest =>
    Holder.slots (.node head.id) head.inputs ++ BlockTrees.slots arms ++ NodeTrees.slots rest

/-- The slots of blocks and of what they hold. -/
def BlockTrees.slots : BlockTrees → List (ValueId × Slot)
  | .done => []
  | .arm head body rest =>
    NodeTrees.slots body ++ Holder.slots (.block head.id) head.returns ++ BlockTrees.slots rest

end

namespace Graph

/-- The slots among `slots` that the use chains do not list, in the order of their messages. -/
def missingUses (g : Graph) (slots : List (ValueId × Slot)) : List Violation :=
  let missing := slots.filter fun (v, slot) => slot ∉ g.usesOf v
  (missing.map fun (v, slot) => Violation.missingUse slot v).mergeSort fun a b =>
    decide (a.message ≤ b.message)

/-- The entries of the use chains that are not among `slots`. -/
def staleUses (g : Graph) (slots : List (ValueId × Slot)) : List Violation :=
  g.valueIds.flatMap fun v =>
    ((g.usesOf v).filter fun slot => (v, slot) ∉ slots).map fun slot => Violation.staleUse slot v

end Graph

/-! ### The checks -/

/-- The violations that a check found. -/
structure CheckReport where
  violations : List Violation
deriving DecidableEq, Repr, Inhabited

namespace CheckReport

def isOk (r : CheckReport) : Bool :=
  r.violations.isEmpty

def text (r : CheckReport) : String :=
  if r.isOk then "validation passed"
  else s!"{r.violations.length} validation error(s) found:\n" ++
    String.join (r.violations.map fun v => "  - " ++ v.message ++ "\n")

end CheckReport

namespace Graph

/-- Checks the blocks that nodes own. -/
def checkShape (g : Graph) : Except Fault CheckReport := do
  let tree ← g.tree
  return ⟨BlockTrees.shapeViolations tree.toArms⟩

/-- Checks that slots hold visible values. -/
def checkScopes (g : Graph) : Except Fault CheckReport := do
  let tree ← g.tree
  return ⟨(BlockTrees.scanScopes [] tree.toArms).1⟩

/-- Checks the use chains. -/
def checkUses (g : Graph) : Except Fault CheckReport := do
  let tree ← g.tree
  let slots := BlockTrees.slots tree.toArms
  return ⟨g.missingUses slots ++ g.staleUses slots⟩

/-- All checks, one after the other. -/
def check (g : Graph) : Except Fault CheckReport := do
  let shape ← g.checkShape
  let scopes ← g.checkScopes
  let uses ← g.checkUses
  return ⟨shape.violations ++ scopes.violations ++ uses.violations⟩

end Graph

end Unguard
