/-!
# Bodies and arms

The shape that a graph and its text share: a body is a sequence of nodes, each node has arms, and an
arm is a block with a body of its own.  `Body ν β` is that shape with data `ν` at every node and `β`
at every block.

The two types are one another's lists (`done` ends a sequence), so every function on them is a plain
structural recursion with one case for a body and one for arms.
-/

namespace Unguard

mutual

/-- A sequence of nodes. -/
inductive Body (ν β : Type)
  | done
  | node (head : ν) (arms : Arms ν β) (rest : Body ν β)

/-- A sequence of blocks. -/
inductive Arms (ν β : Type)
  | done
  | arm (head : β) (body : Body ν β) (rest : Arms ν β)

end

deriving instance Repr for Body, Arms

variable {ν β ν' β' : Type}

instance : Inhabited (Body ν β) := ⟨.done⟩

instance : Inhabited (Arms ν β) := ⟨.done⟩

/-! ### One level -/

/-- The nodes of the sequence itself, without what their arms hold. -/
def Body.heads : Body ν β → List ν
  | .done => []
  | .node head _ rest => head :: rest.heads

/-- The blocks of the sequence itself. -/
def Arms.heads : Arms ν β → List β
  | .done => []
  | .arm head _ rest => head :: rest.heads

def Body.append : Body ν β → Body ν β → Body ν β
  | .done, next => next
  | .node head arms rest, next => .node head arms (rest.append next)

instance : Append (Body ν β) := ⟨Body.append⟩

/-! ### All levels -/

mutual

/-- The nodes at every depth, each before what its arms hold. -/
def Body.nodes : Body ν β → List ν
  | .done => []
  | .node head arms rest => head :: (arms.nodes ++ rest.nodes)

@[inherit_doc Body.nodes]
def Arms.nodes : Arms ν β → List ν
  | .done => []
  | .arm _ body rest => body.nodes ++ rest.nodes

end

mutual

/-- The blocks at every depth, each before those inside it. -/
def Body.blocks : Body ν β → List β
  | .done => []
  | .node _ arms rest => arms.blocks ++ rest.blocks

@[inherit_doc Body.blocks]
def Arms.blocks : Arms ν β → List β
  | .done => []
  | .arm head body rest => head :: (body.blocks ++ rest.blocks)

end

mutual

/-- Replaces the data at every node and block, from left to right, unless one replacement fails. -/
def Body.traverse {ε : Type} (f : ν → Except ε ν') (g : β → Except ε β') :
    Body ν β → Except ε (Body ν' β')
  | .done => .ok .done
  | .node head arms rest => do
    let head ← f head
    let arms ← arms.traverse f g
    let rest ← rest.traverse f g
    return .node head arms rest

@[inherit_doc Body.traverse]
def Arms.traverse {ε : Type} (f : ν → Except ε ν') (g : β → Except ε β') :
    Arms ν β → Except ε (Arms ν' β')
  | .done => .ok .done
  | .arm head body rest => do
    let head ← g head
    let body ← body.traverse f g
    let rest ← rest.traverse f g
    return .arm head body rest

end

/-! ### Small facts -/

@[simp] theorem Body.done_append (next : Body ν β) : Body.done ++ next = next := rfl

@[simp] theorem Body.node_append (head : ν) (arms : Arms ν β) (rest next : Body ν β) :
    Body.node head arms rest ++ next = Body.node head arms (rest ++ next) := rfl

@[simp] theorem Body.append_done : (body : Body ν β) → body ++ .done = body
  | .done => rfl
  | .node head arms rest => congrArg (Body.node head arms) rest.append_done

theorem Body.append_assoc : (a b c : Body ν β) → a ++ b ++ c = a ++ (b ++ c)
  | .done, _, _ => rfl
  | .node head arms rest, b, c => congrArg (Body.node head arms) (rest.append_assoc b c)

@[simp] theorem Body.heads_append : (a b : Body ν β) → (a ++ b).heads = a.heads ++ b.heads
  | .done, _ => rfl
  | .node head _ rest, b => congrArg (head :: ·) (rest.heads_append b)

@[simp] theorem Body.nodes_append : (a b : Body ν β) → (a ++ b).nodes = a.nodes ++ b.nodes
  | .done, _ => rfl
  | .node head arms rest, b => by
    rw [node_append, nodes, nodes, rest.nodes_append b, List.cons_append, List.append_assoc]

end Unguard
