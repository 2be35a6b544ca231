import Unguard.Check
import Unguard.Proofs.Conditionals

/-!
# What the checks say

Each check finds nothing exactly if a property of the tree holds: the check of shapes if conditionals
own two arms that return what they should (`BlockTrees.shapeViolations_eq_nil_iff`), the check of scopes
if every slot holds a value that is seen there (`BlockTrees.scopeViolations_eq_nil_iff`).  The use
chains of a graph that represents a tree list the slots of the tree, so their check finds nothing
(`Graph.Represents.checkUses_eq`).  Together, a graph passes all checks exactly if its tree has these
properties (`Graph.Represents.check_eq_nil_iff`).

The check of scopes has one set of visible values, to which a block adds and from which it takes away
again.  A block takes away exactly what it has added (`Sight.Over.leave_eq`), so the check finds what it
would find if every block had a list of its own (`BlockTrees.scanScopes_eq`).
-/

namespace Unguard

/-! ### Shape -/

theorem arityViolations_eq_nil_iff {node : NodeId} {outputs : Nat} : ∀ {bs : List BlockView} {arm : Nat},
    arityViolations node outputs arm bs = [] ↔ ∀ b ∈ bs, b.returns.length = outputs
  | [], _ => by simp [arityViolations]
  | b :: bs, arm => by
    rw [arityViolations, List.append_eq_nil_iff, arityViolations_eq_nil_iff, List.forall_mem_cons]
    by_cases hb : b.returns.length = outputs <;> simp [hb]

/-- A node has no violations if it has the right number of arms and they return what it defines. -/
theorem nodeShapeViolations_eq_nil_iff {node : NodeView} {arms : List BlockView} :
    nodeShapeViolations node arms = [] ↔
      (if node.kind = .conditional then arms.length = 2 else arms = []) ∧
        ∀ b ∈ arms, b.returns.length = node.outputs.length := by
  rw [nodeShapeViolations]
  split
  · rw [List.append_eq_nil_iff, arityViolations_eq_nil_iff]
    by_cases hlen : arms.length = 2 <;> simp [hlen]
  · cases arms with
    | nil => simp
    | cons b bs => simp

mutual

/-- The violations of all nodes, in order. -/
theorem NodeTrees.shapeViolations_eq : ∀ body : NodeTrees, NodeTrees.shapeViolations body =
    body.subtrees.flatMap fun p => nodeShapeViolations p.1 p.2.heads
  | .done => rfl
  | .node head arms rest => by
    rw [NodeTrees.shapeViolations, BlockTrees.shapeViolations_eq arms, NodeTrees.shapeViolations_eq rest,
      Body.subtrees, List.flatMap_cons, List.flatMap_append, List.append_assoc]

theorem BlockTrees.shapeViolations_eq : ∀ arms : BlockTrees, BlockTrees.shapeViolations arms =
    arms.subtrees.flatMap fun p => nodeShapeViolations p.1 p.2.heads
  | .done => rfl
  | .arm head body rest => by
    rw [BlockTrees.shapeViolations, NodeTrees.shapeViolations_eq body, BlockTrees.shapeViolations_eq rest,
      Arms.subtrees, List.flatMap_append]

end

/-- The first check is for shape and balance. -/
theorem BlockTrees.shapeViolations_eq_nil_iff {arms : BlockTrees} :
    BlockTrees.shapeViolations arms = [] ↔ arms.Shaped ∧ arms.Balanced := by
  rw [BlockTrees.shapeViolations_eq, List.flatMap_eq_nil_iff]
  simp only [nodeShapeViolations_eq_nil_iff]
  constructor
  · intro h
    exact ⟨fun p hp => (h p hp).1, fun p hp => (h p hp).2⟩
  · rintro ⟨hshape, hbal⟩ p hp
    exact ⟨hshape p hp, hbal p hp⟩

/-! ### Scopes -/

theorem slotViolations_eq_nil_iff {visible : List ValueId} : ∀ {slots : List (ValueId × Slot)},
    slotViolations visible slots = [] ↔ ∀ p ∈ slots, p.1 ∈ visible
  | [] => by simp [slotViolations]
  | (v, slot) :: slots => by
    rw [slotViolations, List.append_eq_nil_iff, slotViolations_eq_nil_iff, List.forall_mem_cons]
    by_cases hv : v ∈ visible <;> simp [hv]

/-- Operands violate nothing if all of them are visible. -/
theorem slotViolations_slots_eq_nil_iff {visible values : List ValueId} {holder : Holder} :
    slotViolations visible (holder.slots values) = [] ↔ values ⊆ visible := by
  rw [slotViolations_eq_nil_iff]
  constructor
  · intro h v hv
    obtain ⟨i, hi⟩ := List.mem_iff_getElem?.1 hv
    exact h (v, ⟨holder, i⟩) (Holder.mem_slots.2 ⟨rfl, hi⟩)
  · rintro h ⟨v, slot⟩ hv
    exact h (List.mem_of_getElem? (Holder.mem_slots.1 hv).2)

/-- The values visible after nodes that were entered with `visible`. -/
def visibleAfter (visible : List ValueId) (nodes : List NodeView) : List ValueId :=
  (nodes.flatMap NodeView.outputs).reverse ++ visible

mutual

/-- The slots of nodes that hold a value they do not see, where `visible` is what the first one
sees. -/
def NodeTrees.scopeViolations (visible : List ValueId) : NodeTrees → List Violation
  | .done => []
  | .node head arms rest =>
    slotViolations visible (Holder.slots (.node head.id) head.inputs) ++
      BlockTrees.scopeViolations visible arms ++
      NodeTrees.scopeViolations (visibleAfter visible [head]) rest

/-- The same for blocks: a block sees its parameters besides `visible`. -/
def BlockTrees.scopeViolations (visible : List ValueId) : BlockTrees → List Violation
  | .done => []
  | .arm head body rest =>
    NodeTrees.scopeViolations (head.params ++ visible) body ++
      slotViolations (visibleAfter (head.params ++ visible) body.heads)
        (Holder.slots (.block head.id) head.returns) ++
      BlockTrees.scopeViolations visible rest

end

namespace Sight

variable {s : Sight} {outer : List ValueId}

theorem mem_visible_define {v w : ValueId} : w ∈ (s.define v).visible ↔ w = v ∨ w ∈ s.visible := by
  rw [define]
  split
  · rename_i hv
    exact ⟨Or.inr, fun hw => hw.elim (fun heq => heq ▸ hv) id⟩
  · exact List.mem_cons

/-- Definitions become visible and hide nothing. -/
theorem mem_visible_defineAll {vs : List ValueId} {w : ValueId} :
    w ∈ (s.defineAll vs).visible ↔ w ∈ vs ∨ w ∈ s.visible := by
  rw [defineAll]
  induction vs generalizing s with
  | nil => simp
  | cons v vs ih =>
    rw [List.foldl_cons, ih, mem_visible_define, List.mem_cons]
    tauto

/-- Besides the values of `outer`, those are visible that the block has put there, and none of these was
visible before. -/
structure Over (outer : List ValueId) (s : Sight) : Prop where
  visible : s.visible = s.defined ++ outer
  new : ∀ v ∈ s.defined, v ∉ outer

theorem over_enter (outer : List ValueId) : (enter outer).Over outer :=
  ⟨rfl, List.forall_mem_nil _⟩

/-- What is visible in a block is what was visible outside and what the block has added. -/
theorem Over.define (h : s.Over outer) (v : ValueId) : (s.define v).Over outer := by
  rw [Sight.define]
  split
  · exact h
  · rename_i hv
    rw [h.visible, List.mem_append, not_or] at hv
    refine ⟨?_, List.forall_mem_cons.2 ⟨hv.2, h.new⟩⟩
    rw [h.visible]
    rfl

theorem Over.defineAll (h : s.Over outer) (vs : List ValueId) : (s.defineAll vs).Over outer := by
  rw [Sight.defineAll]
  induction vs generalizing s with
  | nil => exact h
  | cons v vs ih => exact ih (h.define v)

/-- After a block the same values are visible as before it. -/
theorem Over.leave_eq (h : s.Over outer) : s.leave = outer := by
  have hdefined : s.defined.filter (· ∉ s.defined) = [] :=
    List.filter_eq_nil_iff.2 fun v hv => by simpa using hv
  have houter : outer.filter (· ∉ s.defined) = outer :=
    List.filter_eq_self.2 fun v hv => decide_eq_true fun hd => h.new v hd hv
  rw [leave, h.visible, List.filter_append, hdefined, houter, List.nil_append]

end Sight

theorem slotViolations_congr {visible seen : List ValueId} (h : ∀ v, v ∈ visible ↔ v ∈ seen) :
    ∀ slots : List (ValueId × Slot), slotViolations visible slots = slotViolations seen slots
  | [] => rfl
  | (v, slot) :: slots => by
    rw [slotViolations, slotViolations, slotViolations_congr h slots]
    simp only [h]

mutual

/-- On the way through nodes the set is what the nodes before see, in some order. -/
theorem NodeTrees.scanScopes_eq : ∀ (body : NodeTrees) {s : Sight} {outer seen : List ValueId},
    s.Over outer → (∀ v, v ∈ s.visible ↔ v ∈ seen) →
    (NodeTrees.scanScopes s body).1 = NodeTrees.scopeViolations seen body ∧
      (NodeTrees.scanScopes s body).2.Over outer ∧
      ∀ v, v ∈ (NodeTrees.scanScopes s body).2.visible ↔ v ∈ visibleAfter seen body.heads
  | .done, _, _, _, hover, hseen => ⟨rfl, hover, hseen⟩
  | .node head arms rest, s, outer, seen, hover, hseen => by
    have harms := BlockTrees.scanScopes_eq arms hseen
    -- The arms have taken back what they added, so the block goes on where it was.
    have hsight : (⟨(BlockTrees.scanScopes s.visible arms).2, s.defined⟩ : Sight) = s := by
      rw [harms]
    have hafter : ∀ v, v ∈ (s.defineAll head.outputs).visible ↔ v ∈ visibleAfter seen [head] := by
      intro v
      simp [Sight.mem_visible_defineAll, visibleAfter, hseen]
    obtain ⟨hfound, hover', hlast⟩ :=
      NodeTrees.scanScopes_eq rest (hover.defineAll head.outputs) hafter
    have hscan : NodeTrees.scanScopes s (.node head arms rest) =
        (slotViolations s.visible (Holder.slots (.node head.id) head.inputs) ++
          (BlockTrees.scanScopes s.visible arms).1 ++
          (NodeTrees.scanScopes (s.defineAll head.outputs) rest).1,
        (NodeTrees.scanScopes (s.defineAll head.outputs) rest).2) := by
      rw [NodeTrees.scanScopes]
      dsimp only
      rw [hsight]
    rw [hscan]
    refine ⟨?_, hover', fun v => ?_⟩
    · rw [NodeTrees.scopeViolations, hfound, harms, slotViolations_congr hseen]
    · rw [hlast]
      simp [visibleAfter, Body.heads, or_assoc, or_comm]

/-- Blocks leave the set as they found it. -/
theorem BlockTrees.scanScopes_eq : ∀ (arms : BlockTrees) {visible seen : List ValueId},
    (∀ v, v ∈ visible ↔ v ∈ seen) →
    BlockTrees.scanScopes visible arms = (BlockTrees.scopeViolations seen arms, visible)
  | .done, _, _, _ => rfl
  | .arm head body rest, visible, seen, hseen => by
    have hparams : ∀ v, v ∈ ((Sight.enter visible).defineAll head.params).visible ↔
        v ∈ head.params ++ seen := by
      intro v
      simp [Sight.mem_visible_defineAll, Sight.enter, hseen]
    obtain ⟨hfound, hover, hlast⟩ := NodeTrees.scanScopes_eq body
      ((Sight.over_enter visible).defineAll head.params) hparams
    rw [BlockTrees.scanScopes]
    dsimp only
    rw [hover.leave_eq, BlockTrees.scanScopes_eq rest hseen, hfound, slotViolations_congr hlast,
      BlockTrees.scopeViolations]

end

/-- The check of scopes reports what the tree has out of scope. -/
theorem Graph.checkScopes_of_tree {g : Graph} {t : BlockTree} (h : g.tree = .ok t) :
    g.checkScopes = .ok ⟨BlockTrees.scopeViolations [] t.toArms⟩ := by
  rw [checkScopes, h, ok_bind, BlockTrees.scanScopes_eq _ fun _ => Iff.rfl]
  rfl

theorem subset_congr_right {vs a b : List ValueId} (h : ∀ v, v ∈ a ↔ v ∈ b) : vs ⊆ a ↔ vs ⊆ b :=
  ⟨fun hs v hv => (h v).1 (hs hv), fun hs v hv => (h v).2 (hs hv)⟩

mutual

/-- The check may list what is visible in another order. -/
theorem NodeTrees.scopeViolations_eq_nil_iff : ∀ {body : NodeTrees} {visible seen : List ValueId},
    (∀ v, v ∈ visible ↔ v ∈ seen) → (NodeTrees.scopeViolations visible body = [] ↔ body.Scoped seen)
  | .done, _, _, _ => by simp [NodeTrees.scopeViolations, Body.Scoped]
  | .node head arms rest, visible, seen, h => by
    have hafter : ∀ v, v ∈ visibleAfter visible [head] ↔ v ∈ head.outputs ++ seen := by
      intro v
      simp [visibleAfter, h]
    rw [NodeTrees.scopeViolations, List.append_eq_nil_iff, List.append_eq_nil_iff,
      slotViolations_slots_eq_nil_iff, BlockTrees.scopeViolations_eq_nil_iff h,
      NodeTrees.scopeViolations_eq_nil_iff hafter, subset_congr_right h, Body.Scoped, and_assoc]

/-- Every block starts from what is visible to the node that it belongs to. -/
theorem BlockTrees.scopeViolations_eq_nil_iff : ∀ {arms : BlockTrees} {visible seen : List ValueId},
    (∀ v, v ∈ visible ↔ v ∈ seen) → (BlockTrees.scopeViolations visible arms = [] ↔ arms.Scoped seen)
  | .done, _, _, _ => by simp [BlockTrees.scopeViolations, Arms.Scoped]
  | .arm head body rest, visible, seen, h => by
    have hinside : ∀ v, v ∈ head.params ++ visible ↔ v ∈ head.params ++ seen := by
      intro v
      simp [h]
    have hafter : ∀ v, v ∈ visibleAfter (head.params ++ visible) body.heads ↔
        v ∈ body.outputs ++ (head.params ++ seen) := by
      intro v
      simp [visibleAfter, Body.outputs, h]
    rw [BlockTrees.scopeViolations, List.append_eq_nil_iff, List.append_eq_nil_iff,
      NodeTrees.scopeViolations_eq_nil_iff hinside, slotViolations_slots_eq_nil_iff,
      BlockTrees.scopeViolations_eq_nil_iff h, subset_congr_right hafter, Arms.Scoped, and_assoc]

end

/-! ### Use chains -/

mutual

theorem NodeTrees.mem_slots {p : ValueId × Slot} : ∀ {body : NodeTrees}, p ∈ NodeTrees.slots body ↔
    (∃ x ∈ body.nodes, p ∈ Holder.slots (.node x.id) x.inputs) ∨
      ∃ b ∈ body.blocks, p ∈ Holder.slots (.block b.id) b.returns
  | .done => by simp [NodeTrees.slots, Body.nodes, Body.blocks]
  | .node head arms rest => by
    rw [NodeTrees.slots, List.mem_append, List.mem_append, BlockTrees.mem_slots, NodeTrees.mem_slots]
    simp only [Body.nodes, Body.blocks, List.mem_append, List.mem_cons, or_and_right, exists_or,
      exists_eq_left]
    grind

/-- The slots of a tree are those of its nodes and its blocks. -/
theorem BlockTrees.mem_slots {p : ValueId × Slot} : ∀ {arms : BlockTrees}, p ∈ BlockTrees.slots arms ↔
    (∃ x ∈ arms.nodes, p ∈ Holder.slots (.node x.id) x.inputs) ∨
      ∃ b ∈ arms.blocks, p ∈ Holder.slots (.block b.id) b.returns
  | .done => by simp [BlockTrees.slots, Arms.nodes, Arms.blocks]
  | .arm head body rest => by
    rw [BlockTrees.slots, List.mem_append, List.mem_append, NodeTrees.mem_slots, BlockTrees.mem_slots]
    simp only [Arms.nodes, Arms.blocks, List.mem_append, List.mem_cons, or_and_right, exists_or,
      exists_eq_left]
    grind

end

namespace Graph.Represents

variable {g : Graph} {t : BlockTree}

/-- The slots of the tree are those that hold a value. -/
theorem mem_slots_iff (h : g.Represents t) {v : ValueId} {s : Slot} :
    (v, s) ∈ BlockTrees.slots t.toArms ↔ g.heldIn? s = some v := by
  obtain ⟨holder, i⟩ := s
  rw [BlockTrees.mem_slots]
  simp only [Holder.mem_slots]
  constructor
  · -- A slot of the tree is held by an entry, since the tree stands in the tables.
    rintro (⟨x, hx, rfl, hv⟩ | ⟨b, hb, rfl, hv⟩)
    · obtain ⟨inside, hmem⟩ := Arms.mem_nodes.1 hx
      obtain ⟨place, hnode, -⟩ := h.stand.subtree hmem
      rw [heldIn?_node, hnode]
      exact hv
    · obtain ⟨nodes, owner, hblock, -⟩ := h.stand.block hb
      rw [heldIn?_block, hblock]
      exact hv
  · -- Whatever holds something is in the tree.
    intro hv
    have hin := h.within_of_held hv
    cases holder with
    | node n =>
      obtain ⟨⟨head, inside⟩, hmem, rfl⟩ := Arms.mem_ids.1 hin
      obtain ⟨place, hnode, -⟩ := h.stand.subtree hmem
      rw [heldIn?_node, hnode] at hv
      exact Or.inl ⟨head, Arms.mem_nodes.2 ⟨inside, hmem⟩, rfl, hv⟩
    | block b =>
      obtain ⟨view, hview, rfl⟩ := Arms.mem_blockIds.1 hin
      obtain ⟨nodes, owner, hblock, -⟩ := h.stand.block hview
      rw [heldIn?_block, hblock] at hv
      exact Or.inr ⟨view, hview, rfl, hv⟩

/-- The chains of a graph that represents a tree have the slots of the tree: none is missing and none is
stale. -/
theorem checkUses_eq (h : g.Represents t) : g.checkUses = .ok ⟨[]⟩ := by
  have hmissing : g.missingUses (BlockTrees.slots t.toArms) = [] := by
    rw [missingUses, List.filter_eq_nil_iff.2 fun p hp => ?_, List.map_nil, List.mergeSort_nil]
    have hin := (h.mirrored.mem_iff p.1 p.2).2 (h.mem_slots_iff.1 hp)
    simpa using hin
  have hstale : g.staleUses (BlockTrees.slots t.toArms) = [] := by
    refine List.flatMap_eq_nil_iff.2 fun v _ => List.map_eq_nil_iff.2 ?_
    refine List.filter_eq_nil_iff.2 fun s hs => ?_
    have hin := h.mem_slots_iff.2 ((h.mirrored.mem_iff v s).1 hs)
    simpa using hin
  rw [checkUses, h.tree_eq, ok_bind]
  dsimp only
  rw [hmissing, hstale]
  rfl

/-- A graph passes all checks exactly if its tree has the right shape and scopes. -/
theorem check_eq_nil_iff (h : g.Represents t) : g.check = .ok ⟨[]⟩ ↔
    t.toArms.Shaped ∧ t.toArms.Balanced ∧ t.toArms.Scoped [] := by
  rw [check, checkShape, checkScopes_of_tree h.tree_eq, h.checkUses_eq, h.tree_eq]
  simp only [ok_bind, pure_eq_ok, Except.ok.injEq, CheckReport.mk.injEq, List.append_nil,
    List.append_eq_nil_iff, BlockTrees.shapeViolations_eq_nil_iff,
    BlockTrees.scopeViolations_eq_nil_iff fun _ => Iff.rfl, and_assoc]

end Graph.Represents

end Unguard
