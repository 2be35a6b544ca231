import Unguard.Check
import Unguard.Proofs.Tables
import Mathlib.Logic.Equiv.Basic

/-!
# Changing trees

What a rewrite does to a graph is said on its tree.  Three changes are enough:

* `subst σ` puts `σ v` into every slot that holds `v`;
* `replace n new` puts the nodes `new` in the place of the node `n` and all it holds;
* `relabel π` gives nodes, blocks and values other identifiers, by permutations of all identifiers.

Identifiers are permuted rather than mapped: a permutation keeps different identifiers different, so
whatever does not look at particular identifiers commutes with `relabel`.
-/

namespace Unguard

variable {ν β ν' β' ν'' β'' : Type}

/-! ### New data at every node and block -/

mutual

/-- Replaces the data at every node and block. -/
def Body.map (f : ν → ν') (k : β → β') : Body ν β → Body ν' β'
  | .done => .done
  | .node head arms rest => .node (f head) (arms.map f k) (rest.map f k)

@[inherit_doc Body.map]
def Arms.map (f : ν → ν') (k : β → β') : Arms ν β → Arms ν' β'
  | .done => .done
  | .arm head body rest => .arm (k head) (body.map f k) (rest.map f k)

end

theorem Body.heads_map (f : ν → ν') (k : β → β') : ∀ body : Body ν β,
    (body.map f k).heads = body.heads.map f
  | .done => rfl
  | .node head _ rest => congrArg (f head :: ·) (rest.heads_map f k)

theorem Arms.heads_map (f : ν → ν') (k : β → β') : ∀ arms : Arms ν β,
    (arms.map f k).heads = arms.heads.map k
  | .done => rfl
  | .arm head _ rest => congrArg (k head :: ·) (rest.heads_map f k)

theorem Body.map_append (f : ν → ν') (k : β → β') : ∀ a b : Body ν β,
    (a ++ b).map f k = a.map f k ++ b.map f k
  | .done, _ => rfl
  | .node head arms rest, b => congrArg (Body.node (f head) (arms.map f k)) (rest.map_append f k b)

mutual

theorem Body.nodes_map (f : ν → ν') (k : β → β') : ∀ body : Body ν β,
    (body.map f k).nodes = body.nodes.map f
  | .done => rfl
  | .node head arms rest => by
    rw [Body.map, Body.nodes, Body.nodes, List.map_cons, List.map_append, arms.nodes_map f k,
      rest.nodes_map f k]

theorem Arms.nodes_map (f : ν → ν') (k : β → β') : ∀ arms : Arms ν β,
    (arms.map f k).nodes = arms.nodes.map f
  | .done => rfl
  | .arm head body rest => by
    rw [Arms.map, Arms.nodes, Arms.nodes, List.map_append, body.nodes_map f k, rest.nodes_map f k]

end

mutual

theorem Body.blocks_map (f : ν → ν') (k : β → β') : ∀ body : Body ν β,
    (body.map f k).blocks = body.blocks.map k
  | .done => rfl
  | .node head arms rest => by
    rw [Body.map, Body.blocks, Body.blocks, List.map_append, arms.blocks_map f k,
      rest.blocks_map f k]

theorem Arms.blocks_map (f : ν → ν') (k : β → β') : ∀ arms : Arms ν β,
    (arms.map f k).blocks = arms.blocks.map k
  | .done => rfl
  | .arm head body rest => by
    rw [Arms.map, Arms.blocks, Arms.blocks, List.map_cons, List.map_append, body.blocks_map f k,
      rest.blocks_map f k]

end

mutual

theorem Body.map_map (f : ν → ν') (k : β → β') (f' : ν' → ν'') (k' : β' → β'') :
    ∀ body : Body ν β, (body.map f k).map f' k' = body.map (f' ∘ f) (k' ∘ k)
  | .done => rfl
  | .node head arms rest => by
    rw [Body.map, Body.map, Body.map, arms.map_map f k f' k', rest.map_map f k f' k']
    rfl

theorem Arms.map_map (f : ν → ν') (k : β → β') (f' : ν' → ν'') (k' : β' → β'') :
    ∀ arms : Arms ν β, (arms.map f k).map f' k' = arms.map (f' ∘ f) (k' ∘ k)
  | .done => rfl
  | .arm head body rest => by
    rw [Arms.map, Arms.map, Arms.map, body.map_map f k f' k', rest.map_map f k f' k']
    rfl

end

mutual

/-- Only what is done to the data that occur matters. -/
theorem Body.map_congr {f f' : ν → ν'} {k k' : β → β'} : ∀ {body : Body ν β},
    (∀ x ∈ body.nodes, f x = f' x) → (∀ b ∈ body.blocks, k b = k' b) →
    body.map f k = body.map f' k'
  | .done, _, _ => rfl
  | .node head arms rest, hf, hk => by
    simp only [Body.nodes, List.mem_cons, List.mem_append] at hf
    simp only [Body.blocks, List.mem_append] at hk
    rw [Body.map, Body.map, hf head (Or.inl rfl),
      Arms.map_congr (fun x hx => hf x (Or.inr (Or.inl hx))) fun b hb => hk b (Or.inl hb),
      Body.map_congr (fun x hx => hf x (Or.inr (Or.inr hx))) fun b hb => hk b (Or.inr hb)]

@[inherit_doc Body.map_congr]
theorem Arms.map_congr {f f' : ν → ν'} {k k' : β → β'} : ∀ {arms : Arms ν β},
    (∀ x ∈ arms.nodes, f x = f' x) → (∀ b ∈ arms.blocks, k b = k' b) →
    arms.map f k = arms.map f' k'
  | .done, _, _ => rfl
  | .arm head body rest, hf, hk => by
    simp only [Arms.nodes, List.mem_append] at hf
    simp only [Arms.blocks, List.mem_cons, List.mem_append] at hk
    rw [Arms.map, Arms.map, hk head (Or.inl rfl),
      Body.map_congr (fun x hx => hf x (Or.inl hx)) fun b hb => hk b (Or.inr (Or.inl hb)),
      Arms.map_congr (fun x hx => hf x (Or.inr hx)) fun b hb => hk b (Or.inr (Or.inr hb))]

end

mutual

theorem Body.map_id : ∀ body : Body ν β, body.map id id = body
  | .done => rfl
  | .node head arms rest => by rw [Body.map, arms.map_id, rest.map_id]; rfl

theorem Arms.map_id : ∀ arms : Arms ν β, arms.map id id = arms
  | .done => rfl
  | .arm head body rest => by rw [Arms.map, body.map_id, rest.map_id]; rfl

end

@[simp] theorem Body.blocks_append : ∀ a b : Body ν β, (a ++ b).blocks = a.blocks ++ b.blocks
  | .done, _ => rfl
  | .node head arms rest, b => by
    rw [Body.node_append, Body.blocks, Body.blocks, rest.blocks_append b, List.append_assoc]

/-! ### Gathering lists from nodes and blocks -/

section Collect

variable {γ δ : Type}

mutual

/-- The lists that `f` gives for the nodes and `k` for the blocks, each before what is inside. -/
def Body.collect (f : ν → List γ) (k : β → List γ) : Body ν β → List γ
  | .done => []
  | .node head arms rest => f head ++ (arms.collect f k ++ rest.collect f k)

@[inherit_doc Body.collect]
def Arms.collect (f : ν → List γ) (k : β → List γ) : Arms ν β → List γ
  | .done => []
  | .arm head body rest => k head ++ (body.collect f k ++ rest.collect f k)

end

mutual

theorem Body.mem_collect {f : ν → List γ} {k : β → List γ} {x : γ} : ∀ {body : Body ν β},
    x ∈ body.collect f k ↔ (∃ v ∈ body.nodes, x ∈ f v) ∨ ∃ b ∈ body.blocks, x ∈ k b
  | .done => by simp [Body.collect, Body.nodes, Body.blocks]
  | .node head arms rest => by
    simp only [Body.collect, Body.nodes, Body.blocks, List.mem_append, List.mem_cons,
      Arms.mem_collect, Body.mem_collect, or_and_right, exists_or, exists_eq_left]
    grind

theorem Arms.mem_collect {f : ν → List γ} {k : β → List γ} {x : γ} : ∀ {arms : Arms ν β},
    x ∈ arms.collect f k ↔ (∃ v ∈ arms.nodes, x ∈ f v) ∨ ∃ b ∈ arms.blocks, x ∈ k b
  | .done => by simp [Arms.collect, Arms.nodes, Arms.blocks]
  | .arm head body rest => by
    simp only [Arms.collect, Arms.nodes, Arms.blocks, List.mem_append, List.mem_cons,
      Arms.mem_collect, Body.mem_collect, or_and_right, exists_or, exists_eq_left]
    grind

end

theorem Body.collect_append (f : ν → List γ) (k : β → List γ) : ∀ a b : Body ν β,
    (a ++ b).collect f k = a.collect f k ++ b.collect f k
  | .done, _ => rfl
  | .node head arms rest, b => by
    rw [Body.node_append, Body.collect, Body.collect, rest.collect_append f k b]
    simp only [List.append_assoc]

mutual

theorem Body.collect_map (f : ν' → List γ) (k : β' → List γ) (f' : ν → ν') (k' : β → β') :
    ∀ body : Body ν β, (body.map f' k').collect f k = body.collect (f ∘ f') (k ∘ k')
  | .done => rfl
  | .node head arms rest => by
    rw [Body.map, Body.collect, Body.collect, arms.collect_map f k, rest.collect_map f k]
    rfl

theorem Arms.collect_map (f : ν' → List γ) (k : β' → List γ) (f' : ν → ν') (k' : β → β') :
    ∀ arms : Arms ν β, (arms.map f' k').collect f k = arms.collect (f ∘ f') (k ∘ k')
  | .done => rfl
  | .arm head body rest => by
    rw [Arms.map, Arms.collect, Arms.collect, body.collect_map f k, rest.collect_map f k]
    rfl

end

mutual

theorem Body.map_collect (f : ν → List γ) (k : β → List γ) (e : γ → δ) :
    ∀ body : Body ν β, (body.collect f k).map e = body.collect (List.map e ∘ f) (List.map e ∘ k)
  | .done => rfl
  | .node head arms rest => by
    rw [Body.collect, Body.collect, List.map_append, List.map_append, arms.map_collect f k,
      rest.map_collect f k]
    rfl

theorem Arms.map_collect (f : ν → List γ) (k : β → List γ) (e : γ → δ) :
    ∀ arms : Arms ν β, (arms.collect f k).map e = arms.collect (List.map e ∘ f) (List.map e ∘ k)
  | .done => rfl
  | .arm head body rest => by
    rw [Arms.collect, Arms.collect, List.map_append, List.map_append, body.map_collect f k,
      rest.map_collect f k]
    rfl

end

end Collect

/-! ### Identifiers, definitions and mentions -/

/-- The identifiers of the nodes at every depth. -/
def Body.ids (body : NodeTrees) : List NodeId :=
  body.collect (fun v => [v.id]) fun _ => []

@[inherit_doc Body.ids]
def Arms.ids (arms : BlockTrees) : List NodeId :=
  arms.collect (fun v => [v.id]) fun _ => []

/-- The identifiers of the blocks at every depth. -/
def Body.blockIds (body : NodeTrees) : List BlockId :=
  body.collect (fun _ => []) fun b => [b.id]

@[inherit_doc Body.blockIds]
def Arms.blockIds (arms : BlockTrees) : List BlockId :=
  arms.collect (fun _ => []) fun b => [b.id]

/-- The identifiers of the nodes of the sequence itself. -/
def Body.headIds (body : NodeTrees) : List NodeId :=
  body.heads.map NodeView.id

/-- The identifiers of the blocks of the sequence itself. -/
def Arms.headIds (arms : BlockTrees) : List BlockId :=
  arms.heads.map BlockView.id

/-- The values that stand in slots. -/
def Body.mentions (body : NodeTrees) : List ValueId :=
  body.collect NodeView.inputs BlockView.returns

@[inherit_doc Body.mentions]
def Arms.mentions (arms : BlockTrees) : List ValueId :=
  arms.collect NodeView.inputs BlockView.returns

/-- The outputs of the nodes of the sequence itself. -/
def Body.outputs (body : NodeTrees) : List ValueId :=
  body.heads.flatMap NodeView.outputs

mutual

theorem NodeTrees.definitions_eq_collect : ∀ body : NodeTrees,
    NodeTrees.definitions body = body.collect NodeView.outputs BlockView.params
  | .done => rfl
  | .node head arms rest => by
    rw [NodeTrees.definitions, Body.collect, BlockTrees.definitions_eq_collect arms,
      NodeTrees.definitions_eq_collect rest, List.append_assoc]

theorem BlockTrees.definitions_eq_collect : ∀ arms : BlockTrees,
    BlockTrees.definitions arms = arms.collect NodeView.outputs BlockView.params
  | .done => rfl
  | .arm head body rest => by
    rw [BlockTrees.definitions, Arms.collect, NodeTrees.definitions_eq_collect body,
      BlockTrees.definitions_eq_collect rest, List.append_assoc]

end

section Cons

variable (head : NodeView) (arms : BlockTrees) (rest : NodeTrees) (block : BlockView)
  (body : NodeTrees) (more : BlockTrees)

@[simp] theorem Body.ids_done : (Body.done : NodeTrees).ids = [] := rfl

@[simp] theorem Body.ids_node : (Body.node head arms rest).ids = head.id :: (arms.ids ++ rest.ids) :=
  rfl

@[simp] theorem Arms.ids_done : (Arms.done : BlockTrees).ids = [] := rfl

@[simp] theorem Arms.ids_arm : (Arms.arm block body more).ids = body.ids ++ more.ids := rfl

@[simp] theorem Body.blockIds_done : (Body.done : NodeTrees).blockIds = [] := rfl

@[simp] theorem Body.blockIds_node :
    (Body.node head arms rest).blockIds = arms.blockIds ++ rest.blockIds := rfl

@[simp] theorem Arms.blockIds_done : (Arms.done : BlockTrees).blockIds = [] := rfl

@[simp] theorem Arms.blockIds_arm :
    (Arms.arm block body more).blockIds = block.id :: (body.blockIds ++ more.blockIds) := rfl

@[simp] theorem Body.headIds_done : (Body.done : NodeTrees).headIds = [] := rfl

@[simp] theorem Body.headIds_node : (Body.node head arms rest).headIds = head.id :: rest.headIds :=
  rfl

@[simp] theorem Arms.headIds_done : (Arms.done : BlockTrees).headIds = [] := rfl

@[simp] theorem Arms.headIds_arm : (Arms.arm block body more).headIds = block.id :: more.headIds :=
  rfl

@[simp] theorem Body.mentions_done : (Body.done : NodeTrees).mentions = [] := rfl

@[simp] theorem Body.mentions_node :
    (Body.node head arms rest).mentions = head.inputs ++ (arms.mentions ++ rest.mentions) := rfl

@[simp] theorem Arms.mentions_done : (Arms.done : BlockTrees).mentions = [] := rfl

@[simp] theorem Arms.mentions_arm :
    (Arms.arm block body more).mentions = block.returns ++ (body.mentions ++ more.mentions) := rfl

@[simp] theorem Body.outputs_done : (Body.done : NodeTrees).outputs = [] := rfl

@[simp] theorem Body.outputs_node :
    (Body.node head arms rest).outputs = head.outputs ++ rest.outputs := rfl

@[simp] theorem NodeTrees.definitions_done : NodeTrees.definitions .done = [] := rfl

@[simp] theorem NodeTrees.definitions_node :
    NodeTrees.definitions (.node head arms rest) =
      head.outputs ++ (BlockTrees.definitions arms ++ NodeTrees.definitions rest) :=
  List.append_assoc ..

@[simp] theorem BlockTrees.definitions_done : BlockTrees.definitions .done = [] := rfl

@[simp] theorem BlockTrees.definitions_arm :
    BlockTrees.definitions (.arm block body more) =
      block.params ++ (NodeTrees.definitions body ++ BlockTrees.definitions more) :=
  List.append_assoc ..

end Cons

/-! ### Nodes with what they hold -/

mutual

/-- Every node with the blocks it owns, each before what is inside. -/
def Body.subtrees : NodeTrees → List (NodeView × BlockTrees)
  | .done => []
  | .node head arms rest => (head, arms) :: (arms.subtrees ++ rest.subtrees)

@[inherit_doc Body.subtrees]
def Arms.subtrees : BlockTrees → List (NodeView × BlockTrees)
  | .done => []
  | .arm _ body rest => body.subtrees ++ rest.subtrees

end

mutual

theorem Body.map_fst_subtrees : ∀ body : NodeTrees, body.subtrees.map Prod.fst = body.nodes
  | .done => rfl
  | .node head arms rest => by
    rw [Body.subtrees, Body.nodes, List.map_cons, List.map_append, arms.map_fst_subtrees,
      Body.map_fst_subtrees rest]

theorem Arms.map_fst_subtrees : ∀ arms : BlockTrees, arms.subtrees.map Prod.fst = arms.nodes
  | .done => rfl
  | .arm head body rest => by
    rw [Arms.subtrees, Arms.nodes, List.map_append, body.map_fst_subtrees,
      Arms.map_fst_subtrees rest]

end

theorem Body.mem_nodes {x : NodeView} {body : NodeTrees} :
    x ∈ body.nodes ↔ ∃ arms, (x, arms) ∈ body.subtrees := by
  rw [← Body.map_fst_subtrees]
  simp

theorem Arms.mem_nodes {x : NodeView} {arms : BlockTrees} :
    x ∈ arms.nodes ↔ ∃ inside, (x, inside) ∈ arms.subtrees := by
  rw [← Arms.map_fst_subtrees]
  simp

mutual

theorem Body.map_id_nodes : ∀ body : NodeTrees, body.nodes.map NodeView.id = body.ids
  | .done => rfl
  | .node head arms rest => by
    rw [Body.nodes, List.map_cons, List.map_append, arms.map_id_nodes, Body.map_id_nodes rest,
      Body.ids_node]

theorem Arms.map_id_nodes : ∀ arms : BlockTrees, arms.nodes.map NodeView.id = arms.ids
  | .done => rfl
  | .arm head body rest => by
    rw [Arms.nodes, List.map_append, body.map_id_nodes, Arms.map_id_nodes rest, Arms.ids_arm]

end

theorem Body.mem_ids {n : NodeId} {body : NodeTrees} :
    n ∈ body.ids ↔ ∃ p ∈ body.subtrees, p.1.id = n := by
  have hnodes : (∃ v ∈ body.nodes, v.id = n) ↔ ∃ p ∈ body.subtrees, p.1.id = n := by
    rw [← body.map_fst_subtrees]
    simp
  rw [← hnodes, ids, Body.mem_collect]
  simp [eq_comm]

theorem Arms.mem_ids {n : NodeId} {arms : BlockTrees} :
    n ∈ arms.ids ↔ ∃ p ∈ arms.subtrees, p.1.id = n := by
  have hnodes : (∃ v ∈ arms.nodes, v.id = n) ↔ ∃ p ∈ arms.subtrees, p.1.id = n := by
    rw [← arms.map_fst_subtrees]
    simp
  rw [← hnodes, ids, Arms.mem_collect]
  simp [eq_comm]

theorem Body.headIds_sublist_ids : ∀ {body : NodeTrees}, body.headIds.Sublist body.ids
  | .done => List.Sublist.refl _
  | .node head arms rest => by
    rw [Body.headIds_node, Body.ids_node]
    exact (Body.headIds_sublist_ids.trans (List.sublist_append_right _ _)).cons_cons _

theorem Arms.headIds_sublist_blockIds : ∀ {arms : BlockTrees}, arms.headIds.Sublist arms.blockIds
  | .done => List.Sublist.refl _
  | .arm head body rest => by
    rw [Arms.headIds_arm, Arms.blockIds_arm]
    exact (Arms.headIds_sublist_blockIds.trans (List.sublist_append_right _ _)).cons_cons _

theorem Arms.headIds_subset_blockIds {arms : BlockTrees} : arms.headIds ⊆ arms.blockIds :=
  Arms.headIds_sublist_blockIds.subset

theorem Body.mem_blockIds {b : BlockId} {body : NodeTrees} :
    b ∈ body.blockIds ↔ ∃ v ∈ body.blocks, v.id = b := by
  rw [Body.blockIds, Body.mem_collect]
  simp [eq_comm]

theorem Arms.mem_blockIds {b : BlockId} {arms : BlockTrees} :
    b ∈ arms.blockIds ↔ ∃ v ∈ arms.blocks, v.id = b := by
  rw [Arms.blockIds, Arms.mem_collect]
  simp [eq_comm]

theorem Body.subtrees_append : ∀ a b : NodeTrees, (a ++ b).subtrees = a.subtrees ++ b.subtrees
  | .done, _ => rfl
  | .node head arms rest, b => by
    rw [Body.node_append, Body.subtrees, Body.subtrees, Body.subtrees_append rest b]
    simp only [List.cons_append, List.append_assoc]

mutual

/-- What is inside a node of the tree is in the tree. -/
theorem Body.subtrees_trans {head : NodeView} {arms : BlockTrees} : ∀ {body : NodeTrees},
    (head, arms) ∈ body.subtrees → arms.subtrees ⊆ body.subtrees
  | .node first inside rest, h => by
    rw [Body.subtrees] at h ⊢
    rcases List.mem_cons.1 h with h | h
    · cases h
      exact fun p hp => List.mem_cons_of_mem _ (List.mem_append_left _ hp)
    · rcases List.mem_append.1 h with h | h
      · exact fun p hp => List.mem_cons_of_mem _ (List.mem_append_left _ (Arms.subtrees_trans h hp))
      · exact fun p hp => List.mem_cons_of_mem _ (List.mem_append_right _ (Body.subtrees_trans h hp))

@[inherit_doc Body.subtrees_trans]
theorem Arms.subtrees_trans {head : NodeView} {arms : BlockTrees} : ∀ {more : BlockTrees},
    (head, arms) ∈ more.subtrees → arms.subtrees ⊆ more.subtrees
  | .arm block body rest, h => by
    rw [Arms.subtrees] at h ⊢
    rcases List.mem_append.1 h with h | h
    · exact fun p hp => List.mem_append_left _ (Body.subtrees_trans h hp)
    · exact fun p hp => List.mem_append_right _ (Arms.subtrees_trans h hp)

end

/-! ### Substitution -/

/-- A node with other values in its slots. -/
def NodeView.subst (σ : ValueId → ValueId) (v : NodeView) : NodeView :=
  { v with inputs := v.inputs.map σ }

/-- A block with other values in its slots. -/
def BlockView.subst (σ : ValueId → ValueId) (b : BlockView) : BlockView :=
  { b with returns := b.returns.map σ }

/-- Nodes with `σ v` in the slots that hold `v`. -/
def Body.subst (σ : ValueId → ValueId) (body : NodeTrees) : NodeTrees :=
  body.map (NodeView.subst σ) (BlockView.subst σ)

@[inherit_doc Body.subst]
def Arms.subst (σ : ValueId → ValueId) (arms : BlockTrees) : BlockTrees :=
  arms.map (NodeView.subst σ) (BlockView.subst σ)

theorem Body.subst_append (σ : ValueId → ValueId) (a b : NodeTrees) :
    (a ++ b).subst σ = a.subst σ ++ b.subst σ :=
  Body.map_append ..

theorem Body.headIds_subst (σ : ValueId → ValueId) (body : NodeTrees) :
    (body.subst σ).headIds = body.headIds := by
  rw [headIds, headIds, subst, Body.heads_map, List.map_map]
  rfl

theorem Arms.headIds_subst (σ : ValueId → ValueId) (arms : BlockTrees) :
    (arms.subst σ).headIds = arms.headIds := by
  rw [headIds, headIds, subst, Arms.heads_map, List.map_map]
  rfl

theorem Arms.subst_subst (σ τ : ValueId → ValueId) (arms : BlockTrees) :
    (arms.subst σ).subst τ = arms.subst (τ ∘ σ) := by
  rw [subst, subst, Arms.map_map]
  refine Arms.map_congr (fun x _ => ?_) fun b _ => ?_ <;>
    simp [NodeView.subst, BlockView.subst]

theorem Arms.mentions_subst (σ : ValueId → ValueId) (arms : BlockTrees) :
    (arms.subst σ).mentions = arms.mentions.map σ := by
  rw [mentions, mentions, subst, Arms.collect_map, Arms.map_collect]
  rfl

theorem Arms.ids_subst (σ : ValueId → ValueId) (arms : BlockTrees) :
    (arms.subst σ).ids = arms.ids := by
  rw [ids, ids, subst, Arms.collect_map]
  rfl

theorem Arms.blockIds_subst (σ : ValueId → ValueId) (arms : BlockTrees) :
    (arms.subst σ).blockIds = arms.blockIds := by
  rw [blockIds, blockIds, subst, Arms.collect_map]
  rfl

theorem Arms.definitions_subst (σ : ValueId → ValueId) (arms : BlockTrees) :
    BlockTrees.definitions (arms.subst σ) = BlockTrees.definitions arms := by
  rw [BlockTrees.definitions_eq_collect, BlockTrees.definitions_eq_collect, subst, Arms.collect_map]
  rfl

theorem map_eq_self_of_forall {α : Type} {f : α → α} {l : List α} (h : ∀ a ∈ l, f a = a) :
    l.map f = l :=
  (List.map_congr_left h).trans l.map_id

theorem NodeView.subst_eq_self {σ : ValueId → ValueId} {x : NodeView}
    (h : ∀ v ∈ x.inputs, σ v = v) : x.subst σ = x := by
  rw [NodeView.subst, map_eq_self_of_forall h]

theorem BlockView.subst_eq_self {σ : ValueId → ValueId} {b : BlockView}
    (h : ∀ v ∈ b.returns, σ v = v) : b.subst σ = b := by
  rw [BlockView.subst, map_eq_self_of_forall h]

theorem Body.subst_eq_self {σ : ValueId → ValueId} {body : NodeTrees}
    (h : ∀ v ∈ body.mentions, σ v = v) : body.subst σ = body := by
  refine (Body.map_congr (fun x hx => ?_) fun b hb => ?_).trans body.map_id
  · exact NodeView.subst_eq_self fun v hv => h v (Body.mem_collect.2 (Or.inl ⟨x, hx, hv⟩))
  · exact BlockView.subst_eq_self fun v hv => h v (Body.mem_collect.2 (Or.inr ⟨b, hb, hv⟩))

theorem Arms.subst_eq_self {σ : ValueId → ValueId} {arms : BlockTrees}
    (h : ∀ v ∈ arms.mentions, σ v = v) : arms.subst σ = arms := by
  refine (Arms.map_congr (fun x hx => ?_) fun b hb => ?_).trans arms.map_id
  · exact NodeView.subst_eq_self fun v hv => h v (Arms.mem_collect.2 (Or.inl ⟨x, hx, hv⟩))
  · exact BlockView.subst_eq_self fun v hv => h v (Arms.mem_collect.2 (Or.inr ⟨b, hb, hv⟩))

theorem Body.subst_id (body : NodeTrees) : body.subst id = body :=
  Body.subst_eq_self fun _ _ => rfl

theorem Arms.subst_id (arms : BlockTrees) : arms.subst id = arms :=
  Arms.subst_eq_self fun _ _ => rfl

/-! ### Replacing a node -/

mutual

/-- The nodes `new` in the place of the node `n` and all it holds. -/
def Body.replace (n : NodeId) : NodeTrees → (new : NodeTrees) → NodeTrees
  | .done, _ => .done
  | .node head arms rest, new =>
    if head.id = n then new ++ rest.replace n new
    else .node head (arms.replace n new) (rest.replace n new)

@[inherit_doc Body.replace]
def Arms.replace (n : NodeId) : BlockTrees → (new : NodeTrees) → BlockTrees
  | .done, _ => .done
  | .arm head body rest, new => .arm head (body.replace n new) (rest.replace n new)

end

theorem Arms.heads_replace (n : NodeId) (new : NodeTrees) : ∀ arms : BlockTrees,
    (arms.replace n new).heads = arms.heads
  | .done => rfl
  | .arm head _ rest => congrArg (head :: ·) (Arms.heads_replace n new rest)

theorem Arms.headIds_replace (n : NodeId) (new : NodeTrees) (arms : BlockTrees) :
    (arms.replace n new).headIds = arms.headIds := by
  rw [headIds, headIds, arms.heads_replace]

theorem Body.headIds_append (a b : NodeTrees) : (a ++ b).headIds = a.headIds ++ b.headIds := by
  rw [headIds, Body.heads_append, List.map_append]
  rfl

theorem Body.headIds_replace (n : NodeId) (new : NodeTrees) : ∀ body : NodeTrees,
    (body.replace n new).headIds = body.headIds.flatMap fun m => if m = n then new.headIds else [m]
  | .done => rfl
  | .node head arms rest => by
    rw [Body.replace, Body.headIds_node, List.flatMap_cons, ← Body.headIds_replace n new rest]
    split
    · exact Body.headIds_append ..
    · rfl

mutual

theorem Body.replace_of_not_mem {n : NodeId} {new : NodeTrees} : ∀ {body : NodeTrees},
    n ∉ body.ids → body.replace n new = body
  | .done, _ => rfl
  | .node head arms rest, h => by
    simp only [Body.ids_node, List.mem_cons, List.mem_append, not_or] at h
    rw [Body.replace, if_neg (Ne.symm h.1), Arms.replace_of_not_mem h.2.1,
      Body.replace_of_not_mem h.2.2]

theorem Arms.replace_of_not_mem {n : NodeId} {new : NodeTrees} : ∀ {arms : BlockTrees},
    n ∉ arms.ids → arms.replace n new = arms
  | .done, _ => rfl
  | .arm head body rest, h => by
    simp only [Arms.ids_arm, List.mem_append, not_or] at h
    rw [Arms.replace, Body.replace_of_not_mem h.1, Arms.replace_of_not_mem h.2]

end

theorem Body.replace_append (n : NodeId) (new : NodeTrees) : ∀ a b : NodeTrees,
    (a ++ b).replace n new = a.replace n new ++ b.replace n new
  | .done, _ => rfl
  | .node head arms rest, b => by
    rw [Body.node_append, Body.replace, Body.replace, Body.replace_append n new rest b]
    split
    · rw [Body.append_assoc]
    · rfl

mutual

/-- Replacing the node inside its replacement as well. -/
theorem Body.replace_replace (n : NodeId) (new new' : NodeTrees) : ∀ body : NodeTrees,
    (body.replace n new).replace n new' = body.replace n (new.replace n new')
  | .done => rfl
  | .node head arms rest => by
    rw [Body.replace, Body.replace]
    split
    · rw [Body.replace_append, Body.replace_replace n new new' rest]
    · rename_i h
      rw [Body.replace, if_neg h, arms.replace_replace n new new',
        Body.replace_replace n new new' rest]

theorem Arms.replace_replace (n : NodeId) (new new' : NodeTrees) : ∀ arms : BlockTrees,
    (arms.replace n new).replace n new' = arms.replace n (new.replace n new')
  | .done => rfl
  | .arm head body rest => by
    rw [Arms.replace, Arms.replace, Arms.replace, Body.replace_replace n new new' body,
      Arms.replace_replace n new new' rest]

end

mutual

theorem Body.replace_self {n : NodeId} {head : NodeView} {arms : BlockTrees} (hn : head.id = n) :
    ∀ {body : NodeTrees}, body.ids.Nodup → (head, arms) ∈ body.subtrees →
      body.replace n (.node head arms .done) = body
  | .done, _, h => nomatch h
  | .node first inside rest, hnodup, h => by
    simp only [Body.ids_node, List.nodup_cons, List.nodup_append, List.mem_append, not_or] at hnodup
    obtain ⟨⟨hf₁, hf₂⟩, hinside, hrest, hdisj⟩ := hnodup
    simp only [Body.subtrees, List.mem_cons, List.mem_append, Prod.mk.injEq] at h
    rw [Body.replace]
    rcases h with ⟨rfl, rfl⟩ | h | h
    · rw [if_pos hn, Body.replace_of_not_mem (hn ▸ hf₂)]
      rfl
    · have hmem : n ∈ inside.ids := Arms.mem_ids.2 ⟨_, h, hn⟩
      rw [if_neg fun hf : first.id = n => hf₁ (hf.symm ▸ hmem), Arms.replace_self hn hinside h,
        Body.replace_of_not_mem fun hr => hdisj n hmem n hr rfl]
    · have hmem : n ∈ rest.ids := Body.mem_ids.2 ⟨_, h, hn⟩
      rw [if_neg fun hf : first.id = n => hf₂ (hf.symm ▸ hmem), Body.replace_self hn hrest h,
        Arms.replace_of_not_mem fun hr => hdisj n hr n hmem rfl]

theorem Arms.replace_self {n : NodeId} {head : NodeView} {arms : BlockTrees} (hn : head.id = n) :
    ∀ {more : BlockTrees}, more.ids.Nodup → (head, arms) ∈ more.subtrees →
      more.replace n (.node head arms .done) = more
  | .done, _, h => nomatch h
  | .arm block body rest, hnodup, h => by
    simp only [Arms.ids_arm, List.nodup_append] at hnodup
    obtain ⟨hbody, hrest, hdisj⟩ := hnodup
    simp only [Arms.subtrees, List.mem_append] at h
    rw [Arms.replace]
    rcases h with h | h
    · have hmem : n ∈ body.ids := Body.mem_ids.2 ⟨_, h, hn⟩
      rw [Body.replace_self hn hbody h,
        Arms.replace_of_not_mem fun hr => hdisj n hmem n hr rfl]
    · have hmem : n ∈ rest.ids := Arms.mem_ids.2 ⟨_, h, hn⟩
      rw [Arms.replace_self hn hrest h,
        Body.replace_of_not_mem fun hr => hdisj n hr n hmem rfl]

end

section CollectReplace

variable {γ : Type}

theorem perm_append_of_left {x y z : List γ} (a c : List γ) (h : z.Perm (x ++ y)) :
    (a ++ (z ++ c)).Perm (x ++ (a ++ (y ++ c))) := by
  refine ((h.append_right c).append_left a).trans ?_
  rw [List.append_assoc]
  exact List.perm_append_comm_assoc ..

theorem perm_append_of_right {x y z : List γ} (a c : List γ) (h : z.Perm (x ++ y)) :
    (a ++ (c ++ z)).Perm (x ++ (a ++ (c ++ y))) := by
  refine ((h.append_left c).append_left a).trans ?_
  exact ((List.perm_append_comm_assoc ..).append_left a).trans (List.perm_append_comm_assoc ..)

mutual

/-- What is gathered after a replacement: what the new nodes give, besides what is left. -/
theorem Body.collect_replace (f : NodeView → List γ) (k : BlockView → List γ) {n : NodeId}
    (new : NodeTrees) : ∀ {body : NodeTrees}, body.ids.Nodup → n ∈ body.ids →
      ((body.replace n new).collect f k).Perm
        (new.collect f k ++ (body.replace n .done).collect f k)
  | .done, _, h => nomatch h
  | .node first inside rest, hnodup, h => by
    simp only [Body.ids_node, List.nodup_cons, List.nodup_append, List.mem_append, not_or] at hnodup
    obtain ⟨⟨hf₁, hf₂⟩, hinside, hrest, hdisj⟩ := hnodup
    simp only [Body.ids_node, List.mem_cons, List.mem_append] at h
    rw [Body.replace, Body.replace]
    -- The numbers are distinct, so only one of the head, the arms and the rest changes.
    by_cases hf : first.id = n
    · have hn : n ∉ rest.ids := hf ▸ hf₂
      rw [if_pos hf, if_pos hf, Body.replace_of_not_mem hn, Body.replace_of_not_mem hn,
        Body.collect_append]
      rfl
    · rw [if_neg hf, if_neg hf, Body.collect, Body.collect]
      rcases h with h | h | h
      · exact absurd h.symm hf
      · have hn : n ∉ rest.ids := fun hr => hdisj n h n hr rfl
        rw [Body.replace_of_not_mem hn, Body.replace_of_not_mem hn]
        exact perm_append_of_left _ _ (Arms.collect_replace f k new hinside h)
      · have hn : n ∉ inside.ids := fun hi => hdisj n hi n h rfl
        rw [Arms.replace_of_not_mem hn, Arms.replace_of_not_mem hn]
        exact perm_append_of_right _ _ (Body.collect_replace f k new hrest h)

@[inherit_doc Body.collect_replace]
theorem Arms.collect_replace (f : NodeView → List γ) (k : BlockView → List γ) {n : NodeId}
    (new : NodeTrees) : ∀ {arms : BlockTrees}, arms.ids.Nodup → n ∈ arms.ids →
      ((arms.replace n new).collect f k).Perm
        (new.collect f k ++ (arms.replace n .done).collect f k)
  | .done, _, h => nomatch h
  | .arm block body rest, hnodup, h => by
    simp only [Arms.ids_arm, List.nodup_append] at hnodup
    obtain ⟨hbody, hrest, hdisj⟩ := hnodup
    simp only [Arms.ids_arm, List.mem_append] at h
    rw [Arms.replace, Arms.replace, Arms.collect, Arms.collect]
    rcases h with h | h
    · have hn : n ∉ rest.ids := fun hr => hdisj n h n hr rfl
      rw [Arms.replace_of_not_mem hn, Arms.replace_of_not_mem hn]
      exact perm_append_of_left _ _ (Body.collect_replace f k new hbody h)
    · have hn : n ∉ body.ids := fun hb => hdisj n hb n h rfl
      rw [Body.replace_of_not_mem hn, Body.replace_of_not_mem hn]
      exact perm_append_of_right _ _ (Arms.collect_replace f k new hrest h)

end

/-- What a tree gives is what one of its nodes gives with all it holds, besides what is left without
that node. -/
theorem Arms.collect_perm (f : NodeView → List γ) (k : BlockView → List γ) {head : NodeView}
    {arms more : BlockTrees} (hnodup : more.ids.Nodup) (h : (head, arms) ∈ more.subtrees) :
    (more.collect f k).Perm
      ((f head ++ arms.collect f k) ++ (more.replace head.id .done).collect f k) := by
  have hperm := Arms.collect_replace f k (.node head arms .done) hnodup
    (Arms.mem_ids.2 ⟨_, h, rfl⟩)
  rw [Arms.replace_self rfl hnodup h] at hperm
  simpa [Body.collect] using hperm

end CollectReplace

mutual

theorem Body.nodes_eq_collect {ν β : Type} : ∀ body : Body ν β,
    body.nodes = body.collect (fun v => [v]) fun _ => []
  | .done => rfl
  | .node head arms rest => by
    rw [Body.nodes, Body.collect, arms.nodes_eq_collect, rest.nodes_eq_collect]
    rfl

theorem Arms.nodes_eq_collect {ν β : Type} : ∀ arms : Arms ν β,
    arms.nodes = arms.collect (fun v => [v]) fun _ => []
  | .done => rfl
  | .arm head body rest => by
    rw [Arms.nodes, Arms.collect, body.nodes_eq_collect, rest.nodes_eq_collect]
    rfl

end

mutual

theorem Body.blocks_eq_collect {ν β : Type} : ∀ body : Body ν β,
    body.blocks = body.collect (fun _ => []) fun b => [b]
  | .done => rfl
  | .node head arms rest => by
    rw [Body.blocks, Body.collect, arms.blocks_eq_collect, rest.blocks_eq_collect]
    rfl

theorem Arms.blocks_eq_collect {ν β : Type} : ∀ arms : Arms ν β,
    arms.blocks = arms.collect (fun _ => []) fun b => [b]
  | .done => rfl
  | .arm head body rest => by
    rw [Arms.blocks, Arms.collect, body.blocks_eq_collect, rest.blocks_eq_collect]
    rfl

end

/-- The nodes of a tree are one of them, those inside it, and those that are left without it. -/
theorem Arms.nodes_perm {head : NodeView} {arms more : BlockTrees} (hnodup : more.ids.Nodup)
    (h : (head, arms) ∈ more.subtrees) :
    more.nodes.Perm ((head :: arms.nodes) ++ (more.replace head.id .done).nodes) := by
  rw [Arms.nodes_eq_collect more, Arms.nodes_eq_collect arms, Arms.nodes_eq_collect (more.replace _ _)]
  exact Arms.collect_perm (fun v => [v]) (fun _ => []) hnodup h

theorem Arms.blocks_perm {head : NodeView} {arms more : BlockTrees} (hnodup : more.ids.Nodup)
    (h : (head, arms) ∈ more.subtrees) :
    more.blocks.Perm (arms.blocks ++ (more.replace head.id .done).blocks) := by
  rw [Arms.blocks_eq_collect more, Arms.blocks_eq_collect arms,
    Arms.blocks_eq_collect (more.replace _ _)]
  exact Arms.collect_perm (fun _ => []) (fun b => [b]) hnodup h

theorem Arms.ids_perm {head : NodeView} {arms more : BlockTrees} (hnodup : more.ids.Nodup)
    (h : (head, arms) ∈ more.subtrees) :
    more.ids.Perm ((head.id :: arms.ids) ++ (more.replace head.id .done).ids) :=
  Arms.collect_perm (fun v => [v.id]) (fun _ => []) hnodup h

theorem Arms.blockIds_perm {head : NodeView} {arms more : BlockTrees} (hnodup : more.ids.Nodup)
    (h : (head, arms) ∈ more.subtrees) :
    more.blockIds.Perm (arms.blockIds ++ (more.replace head.id .done).blockIds) :=
  Arms.collect_perm (fun _ => []) (fun b => [b.id]) hnodup h

theorem Arms.definitions_perm {head : NodeView} {arms more : BlockTrees} (hnodup : more.ids.Nodup)
    (h : (head, arms) ∈ more.subtrees) :
    (BlockTrees.definitions more).Perm ((head.outputs ++ BlockTrees.definitions arms) ++
      BlockTrees.definitions (more.replace head.id .done)) := by
  rw [BlockTrees.definitions_eq_collect more, BlockTrees.definitions_eq_collect arms,
    BlockTrees.definitions_eq_collect (more.replace _ _)]
  exact Arms.collect_perm NodeView.outputs BlockView.params hnodup h

theorem Arms.mentions_perm {head : NodeView} {arms more : BlockTrees} (hnodup : more.ids.Nodup)
    (h : (head, arms) ∈ more.subtrees) :
    more.mentions.Perm ((head.inputs ++ arms.mentions) ++ (more.replace head.id .done).mentions) :=
  Arms.collect_perm NodeView.inputs BlockView.returns hnodup h

mutual

theorem Body.subst_replace (σ : ValueId → ValueId) (n : NodeId) (new : NodeTrees) :
    ∀ body : NodeTrees, (body.replace n new).subst σ = (body.subst σ).replace n (new.subst σ)
  | .done => rfl
  | .node head arms rest => by
    change _ = Body.replace n (.node (head.subst σ) (arms.subst σ) (rest.subst σ)) _
    rw [Body.replace, Body.replace, ← Body.subst_replace σ n new rest,
      ← Arms.subst_replace σ n new arms]
    change _ = if head.id = n then _ else _
    split
    · exact Body.subst_append ..
    · rfl

theorem Arms.subst_replace (σ : ValueId → ValueId) (n : NodeId) (new : NodeTrees) :
    ∀ arms : BlockTrees, (arms.replace n new).subst σ = (arms.subst σ).replace n (new.subst σ)
  | .done => rfl
  | .arm head body rest => by
    change _ = Arms.replace n (.arm (head.subst σ) (body.subst σ) (rest.subst σ)) _
    rw [Arms.replace, Arms.replace, ← Body.subst_replace σ n new body,
      ← Arms.subst_replace σ n new rest]
    rfl

end

section MapReplace

variable {f f' : NodeView → NodeView} {k k' : BlockView → BlockView} {n : NodeId}
  {new new' : NodeTrees}

mutual

/-- Trees in which the same node is replaced are the same under two maps that agree on what is left
of them and on the new nodes. -/
theorem Body.map_replace_congr (hnew : new.map f k = new'.map f' k') : ∀ {body : NodeTrees},
    (∀ x ∈ (body.replace n .done).nodes, f x = f' x) →
    (∀ b ∈ (body.replace n .done).blocks, k b = k' b) →
    (body.replace n new).map f k = (body.replace n new').map f' k'
  | .done, _, _ => rfl
  | .node head arms rest, hf, hk => by
    rw [Body.replace] at hf hk ⊢
    rw [Body.replace]
    split
    · rename_i h
      rw [if_pos h, Body.done_append] at hf hk
      rw [Body.map_append, Body.map_append, hnew, Body.map_replace_congr hnew hf hk]
    · rename_i h
      rw [if_neg h] at hf hk
      simp only [Body.nodes, Body.blocks, List.mem_cons, List.mem_append] at hf hk
      rw [Body.map, Body.map, hf head (Or.inl rfl),
        Arms.map_replace_congr hnew (fun x hx => hf x (Or.inr (Or.inl hx)))
          fun b hb => hk b (Or.inl hb),
        Body.map_replace_congr hnew (fun x hx => hf x (Or.inr (Or.inr hx)))
          fun b hb => hk b (Or.inr hb)]

@[inherit_doc Body.map_replace_congr]
theorem Arms.map_replace_congr (hnew : new.map f k = new'.map f' k') : ∀ {arms : BlockTrees},
    (∀ x ∈ (arms.replace n .done).nodes, f x = f' x) →
    (∀ b ∈ (arms.replace n .done).blocks, k b = k' b) →
    (arms.replace n new).map f k = (arms.replace n new').map f' k'
  | .done, _, _ => rfl
  | .arm head body rest, hf, hk => by
    rw [Arms.replace] at hf hk
    simp only [Arms.nodes, Arms.blocks, List.mem_cons, List.mem_append] at hf hk
    rw [Arms.replace, Arms.replace, Arms.map, Arms.map, hk head (Or.inl rfl),
      Body.map_replace_congr hnew (fun x hx => hf x (Or.inl hx))
        fun b hb => hk b (Or.inr (Or.inl hb)),
      Arms.map_replace_congr hnew (fun x hx => hf x (Or.inr hx))
        fun b hb => hk b (Or.inr (Or.inr hb))]

end

end MapReplace

/-! ### Subtrees of changed trees -/

mutual

theorem Body.subtrees_map (f : NodeView → NodeView) (k : BlockView → BlockView) :
    ∀ body : NodeTrees, (body.map f k).subtrees = body.subtrees.map fun p => (f p.1, p.2.map f k)
  | .done => rfl
  | .node head arms rest => by
    rw [Body.map, Body.subtrees, Body.subtrees, List.map_cons, List.map_append,
      Arms.subtrees_map f k arms, Body.subtrees_map f k rest]

theorem Arms.subtrees_map (f : NodeView → NodeView) (k : BlockView → BlockView) :
    ∀ arms : BlockTrees, (arms.map f k).subtrees = arms.subtrees.map fun p => (f p.1, p.2.map f k)
  | .done => rfl
  | .arm head body rest => by
    rw [Arms.map, Arms.subtrees, Arms.subtrees, List.map_append, Body.subtrees_map f k body,
      Arms.subtrees_map f k rest]

end

mutual

/-- The nodes after a replacement: the new ones, and those that were there, with the replacement
inside them. -/
theorem Body.mem_subtrees_replace {n : NodeId} {new : NodeTrees} {p : NodeView × BlockTrees} :
    ∀ {body : NodeTrees}, p ∈ (body.replace n new).subtrees →
      p ∈ new.subtrees ∨ ∃ arms, (p.1, arms) ∈ body.subtrees ∧ p.2 = arms.replace n new
  | .done, h => nomatch h
  | .node head arms rest, h => by
    rw [Body.replace] at h
    have hrest : p ∈ (rest.replace n new).subtrees →
        p ∈ new.subtrees ∨ ∃ a, (p.1, a) ∈ (Body.node head arms rest).subtrees ∧
          p.2 = a.replace n new := by
      intro hp
      obtain hp | ⟨a, ha, hpa⟩ := Body.mem_subtrees_replace hp
      · exact Or.inl hp
      · exact Or.inr ⟨a, List.mem_cons_of_mem _ (List.mem_append_right _ ha), hpa⟩
    split at h
    · rw [Body.subtrees_append, List.mem_append] at h
      exact h.elim Or.inl hrest
    · rw [Body.subtrees, List.mem_cons, List.mem_append] at h
      rcases h with rfl | h | h
      · exact Or.inr ⟨arms, List.mem_cons_self, rfl⟩
      · obtain hp | ⟨a, ha, hpa⟩ := Arms.mem_subtrees_replace h
        · exact Or.inl hp
        · exact Or.inr ⟨a, List.mem_cons_of_mem _ (List.mem_append_left _ ha), hpa⟩
      · exact hrest h

@[inherit_doc Body.mem_subtrees_replace]
theorem Arms.mem_subtrees_replace {n : NodeId} {new : NodeTrees} {p : NodeView × BlockTrees} :
    ∀ {more : BlockTrees}, p ∈ (more.replace n new).subtrees →
      p ∈ new.subtrees ∨ ∃ arms, (p.1, arms) ∈ more.subtrees ∧ p.2 = arms.replace n new
  | .done, h => nomatch h
  | .arm block body rest, h => by
    rw [Arms.replace, Arms.subtrees, List.mem_append] at h
    rcases h with h | h
    · obtain hp | ⟨a, ha, hpa⟩ := Body.mem_subtrees_replace h
      · exact Or.inl hp
      · exact Or.inr ⟨a, List.mem_append_left _ ha, hpa⟩
    · obtain hp | ⟨a, ha, hpa⟩ := Arms.mem_subtrees_replace h
      · exact Or.inl hp
      · exact Or.inr ⟨a, List.mem_append_right _ ha, hpa⟩

end

mutual

theorem Body.mem_subtrees_replace_of_mem {n : NodeId} {new : NodeTrees} {p : NodeView × BlockTrees}
    (hp : p ∈ new.subtrees) : ∀ {body : NodeTrees}, n ∈ body.ids →
      p ∈ (body.replace n new).subtrees
  | .done, h => nomatch h
  | .node head arms rest, h => by
    rw [Body.replace]
    split
    · rw [Body.subtrees_append]
      exact List.mem_append_left _ hp
    · rename_i hne
      rw [Body.ids_node, List.mem_cons, List.mem_append] at h
      rw [Body.subtrees, List.mem_cons, List.mem_append]
      rcases h with h | h | h
      · exact absurd h.symm hne
      · exact Or.inr (Or.inl (Arms.mem_subtrees_replace_of_mem hp h))
      · exact Or.inr (Or.inr (Body.mem_subtrees_replace_of_mem hp h))

theorem Arms.mem_subtrees_replace_of_mem {n : NodeId} {new : NodeTrees} {p : NodeView × BlockTrees}
    (hp : p ∈ new.subtrees) : ∀ {more : BlockTrees}, n ∈ more.ids →
      p ∈ (more.replace n new).subtrees
  | .done, h => nomatch h
  | .arm block body rest, h => by
    rw [Arms.ids_arm, List.mem_append] at h
    rw [Arms.replace, Arms.subtrees, List.mem_append]
    rcases h with h | h
    · exact Or.inl (Body.mem_subtrees_replace_of_mem hp h)
    · exact Or.inr (Arms.mem_subtrees_replace_of_mem hp h)

end

theorem Body.mem_ids_of_replace {n m : NodeId} {new body : NodeTrees}
    (h : m ∈ (body.replace n new).ids) : m ∈ new.ids ∨ m ∈ body.ids := by
  obtain ⟨p, hp, rfl⟩ := Body.mem_ids.1 h
  obtain hp | ⟨arms, harms, -⟩ := Body.mem_subtrees_replace hp
  · exact Or.inl (Body.mem_ids.2 ⟨p, hp, rfl⟩)
  · exact Or.inr (Body.mem_ids.2 ⟨_, harms, rfl⟩)

theorem Arms.mem_ids_of_replace {n m : NodeId} {new : NodeTrees} {arms : BlockTrees}
    (h : m ∈ (arms.replace n new).ids) : m ∈ new.ids ∨ m ∈ arms.ids := by
  obtain ⟨p, hp, rfl⟩ := Arms.mem_ids.1 h
  obtain hp | ⟨inside, hinside, -⟩ := Arms.mem_subtrees_replace hp
  · exact Or.inl (Body.mem_ids.2 ⟨p, hp, rfl⟩)
  · exact Or.inr (Arms.mem_ids.2 ⟨_, hinside, rfl⟩)

mutual

/-- A node that is left after a replacement and does not hold the replaced one is left as it was. -/
theorem Body.subtrees_replace {n : NodeId} {new : NodeTrees} {head : NodeView} {arms : BlockTrees}
    (hn : n ∉ arms.ids) : ∀ {body : NodeTrees}, body.ids.Nodup →
      head.id ∈ (body.replace n .done).ids → (head, arms) ∈ body.subtrees →
      (head, arms) ∈ (body.replace n new).subtrees
  | .done, _, _, h => nomatch h
  | .node first inside rest, hnodup, hleft, h => by
    simp only [Body.ids_node, List.nodup_cons, List.nodup_append, List.mem_append, not_or] at hnodup
    obtain ⟨⟨hf₁, hf₂⟩, hinside, hrest, hdisj⟩ := hnodup
    simp only [Body.subtrees, List.mem_cons, List.mem_append, Prod.mk.injEq] at h
    rw [Body.replace] at hleft ⊢
    -- The first node is the replaced one, or it is kept and what it holds may change.
    by_cases hf : first.id = n
    · have hnr : n ∉ rest.ids := hf ▸ hf₂
      rw [if_pos hf, Body.done_append, Body.replace_of_not_mem hnr] at hleft
      rw [if_pos hf, Body.replace_of_not_mem hnr, Body.subtrees_append, List.mem_append]
      rcases h with ⟨rfl, -⟩ | h | h
      · exact absurd hleft hf₂
      · exact absurd rfl (hdisj _ (Arms.mem_ids.2 ⟨_, h, rfl⟩) _ hleft)
      · exact Or.inr h
    · rw [if_neg hf, Body.ids_node, List.mem_cons, List.mem_append] at hleft
      rw [if_neg hf, Body.subtrees, List.mem_cons, List.mem_append]
      rcases h with ⟨rfl, rfl⟩ | h | h
      · exact Or.inl (by rw [Arms.replace_of_not_mem hn])
      · have hmem : head.id ∈ inside.ids := Arms.mem_ids.2 ⟨_, h, rfl⟩
        rcases hleft with hleft | hleft | hleft
        · exact absurd (hleft ▸ hmem) hf₁
        · exact Or.inr (Or.inl (Arms.subtrees_replace hn hinside hleft h))
        · obtain hdone | hleft := Body.mem_ids_of_replace hleft
          · exact nomatch hdone
          · exact absurd rfl (hdisj _ hmem _ hleft)
      · have hmem : head.id ∈ rest.ids := Body.mem_ids.2 ⟨_, h, rfl⟩
        rcases hleft with hleft | hleft | hleft
        · exact absurd (hleft ▸ hmem) hf₂
        · obtain hdone | hleft := Arms.mem_ids_of_replace hleft
          · exact nomatch hdone
          · exact absurd rfl (hdisj _ hleft _ hmem)
        · exact Or.inr (Or.inr (Body.subtrees_replace hn hrest hleft h))

theorem Arms.subtrees_replace {n : NodeId} {new : NodeTrees} {head : NodeView} {arms : BlockTrees}
    (hn : n ∉ arms.ids) : ∀ {more : BlockTrees}, more.ids.Nodup →
      head.id ∈ (more.replace n .done).ids → (head, arms) ∈ more.subtrees →
      (head, arms) ∈ (more.replace n new).subtrees
  | .done, _, _, h => nomatch h
  | .arm block body rest, hnodup, hleft, h => by
    simp only [Arms.ids_arm, List.nodup_append] at hnodup
    obtain ⟨hbody, hrest, hdisj⟩ := hnodup
    simp only [Arms.subtrees, List.mem_append] at h
    rw [Arms.replace, Arms.ids_arm, List.mem_append] at hleft
    rw [Arms.replace, Arms.subtrees, List.mem_append]
    -- The subtree is in the first block or in the others, and only there.
    rcases h with h | h
    · have hmem : head.id ∈ body.ids := Body.mem_ids.2 ⟨_, h, rfl⟩
      rcases hleft with hleft | hleft
      · exact Or.inl (Body.subtrees_replace hn hbody hleft h)
      · obtain hdone | hleft := Arms.mem_ids_of_replace hleft
        · exact nomatch hdone
        · exact absurd rfl (hdisj _ hmem _ hleft)
    · have hmem : head.id ∈ rest.ids := Arms.mem_ids.2 ⟨_, h, rfl⟩
      rcases hleft with hleft | hleft
      · obtain hdone | hleft := Body.mem_ids_of_replace hleft
        · exact nomatch hdone
        · exact absurd rfl (hdisj _ hleft _ hmem)
      · exact Or.inr (Arms.subtrees_replace hn hrest hleft h)

end

/-- A node apart from a replaced one is left as it was. -/
theorem Arms.mem_subtrees_of_apart {p q : NodeView × BlockTrees} {more : BlockTrees}
    (hnodup : more.ids.Nodup) (hp : p ∈ more.subtrees) (hq : q ∈ more.subtrees)
    (hapart : ((p.1.id :: p.2.ids) ++ (q.1.id :: q.2.ids)).Nodup) (new : NodeTrees) :
    q ∈ (more.replace p.1.id new).subtrees := by
  rw [List.nodup_append] at hapart
  have hin : q.1.id ∈ more.ids := Arms.mem_ids.2 ⟨q, hq, rfl⟩
  refine Arms.subtrees_replace (fun hn => ?_) hnodup ?_ hq
  · exact hapart.2.2 _ List.mem_cons_self _ (List.mem_cons_of_mem _ hn) rfl
  · refine (List.mem_append.1 ((Arms.ids_perm hnodup hp).subset hin)).resolve_left fun hn => ?_
    exact hapart.2.2 _ hn _ List.mem_cons_self rfl

end Unguard
