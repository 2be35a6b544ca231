import Unguard.Graph.Basic

/-!
# Walks

A walk goes through nodes in order and visits each one before the contents of the blocks it owns.  At
every node the visitor decides whether to go into the node's blocks, to pass them by, or to end the
walk there.  It may remember something from node to node and decide by that.

From the top block a walk never comes back to a block it is inside of, so it is at most as deep as the
graph has blocks.  Detached nodes may be inside themselves, and a walk that starts there and looks at
the nodes alone either keeps to that depth or never ends.
-/

namespace Unguard

/-- What to do at a node. -/
inductive Step
  /-- Go into its blocks, then on. -/
  | descend
  /-- Go on without going into its blocks. -/
  | skip
  /-- End the walk. -/
  | stop
deriving DecidableEq, Repr, Inhabited

/-- Decides what to do at a node, by the node and by what it remembers of the nodes before, and says
what it remembers from then on. -/
abbrev Visitor (σ : Type) : Type :=
  σ → NodeId → Step × σ

/-- The visitor that looks at the node alone. -/
def Visitor.ofStep (visit : NodeId → Step) : Visitor Unit :=
  fun memory n => (visit n, memory)

/-- The nodes a walk visited, in order, and where it was ended, if it was. -/
structure Walk where
  visited : List NodeId
  stopped : Option NodeId
deriving DecidableEq, Repr, Inhabited

namespace Walk

def empty : Walk :=
  ⟨[], none⟩

/-- The walk `w` and then, after its last node, the walk `w'`. -/
def append (w w' : Walk) : Walk :=
  ⟨w.visited ++ w'.visited, w'.stopped⟩

instance : Append Walk := ⟨append⟩

end Walk

namespace Graph

variable {σ : Type}

/-- Walks blocks in order, given how to walk one. -/
def walkArms (walk : σ → BlockId → Except Fault (Walk × σ)) : σ → List BlockId →
    Except Fault (Walk × σ)
  | memory, [] => .ok (.empty, memory)
  | memory, b :: bs => do
    let (first, memory) ← walk memory b
    if first.stopped.isSome then return (first, memory)
    else do
      let (rest, memory) ← walkArms walk memory bs
      return (first ++ rest, memory)

/-- Visits a node, and goes into its blocks if the visitor says so. -/
def visitNode (g : Graph) (visit : Visitor σ) (walk : σ → BlockId → Except Fault (Walk × σ))
    (memory : σ) (n : NodeId) : Except Fault (Walk × σ) :=
  match visit memory n with
  | (.stop, memory) => .ok (⟨[n], some n⟩, memory)
  | (.skip, memory) => .ok (⟨[n], none⟩, memory)
  | (.descend, memory) => do
    let node ← g.node n
    let (inside, memory) ← walkArms walk memory node.blocks
    return (⟨[n], none⟩ ++ inside, memory)

/-- Walks nodes in order, given how to walk a block. -/
def walkNodes (g : Graph) (visit : Visitor σ) (walk : σ → BlockId → Except Fault (Walk × σ)) :
    σ → List NodeId → Except Fault (Walk × σ)
  | memory, [] => .ok (.empty, memory)
  | memory, n :: ns => do
    let (first, memory) ← g.visitNode visit walk memory n
    if first.stopped.isSome then return (first, memory)
    else do
      let (rest, memory) ← g.walkNodes visit walk memory ns
      return (first ++ rest, memory)

/-- Walks a block to at most `depth` levels of nested blocks. -/
def walkTo (g : Graph) (visit : Visitor σ) : Nat → σ → BlockId → Except Fault (Walk × σ)
  | 0, _, _ => .error .endless
  | depth + 1, memory, b => do
    let block ← g.block b
    g.walkNodes visit (g.walkTo visit depth) memory block.nodes

/-- Walks the whole graph with a visitor that starts from `memory`.  Answers what it remembers at the
end as well. -/
def walkWith (g : Graph) (visit : Visitor σ) (memory : σ) : Except Fault (Walk × σ) :=
  g.walkTo visit g.blocks.size memory top

/-! Visitors that look at the node alone. -/

/-- Walks the contents of a block. -/
def walkBlock (g : Graph) (visit : NodeId → Step) (b : BlockId) : Except Fault Walk := do
  let (walk, _) ← g.walkTo (.ofStep visit) g.blocks.size () b
  return walk

/-- Walks a node and the contents of its blocks. -/
def walkNode (g : Graph) (visit : NodeId → Step) (n : NodeId) : Except Fault Walk := do
  let (walk, _) ← g.visitNode (.ofStep visit) (g.walkTo (.ofStep visit) g.blocks.size) () n
  return walk

/-- Walks the whole graph. -/
def walk (g : Graph) (visit : NodeId → Step) : Except Fault Walk := do
  let (walk, _) ← g.walkWith (.ofStep visit) ()
  return walk

end Graph

end Unguard
