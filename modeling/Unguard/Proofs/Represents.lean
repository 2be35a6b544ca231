import Mathlib.Data.List.Nodup
import Mathlib.Data.List.Perm.Subperm
import Unguard.Check
import Unguard.Proofs.SlotChains
import Unguard.Proofs.Standing

/-!
# The tree that a graph represents

`Graph.Represents g t` says that `t` is all there is to the graph `g`: it stands in it from the top
block on, every live node is one of its nodes, no other block returns anything, and the slot chains
mirror the slots.  From then on reading the graph is reading the tree: unfolding
(`Represents.tree_eq`), walks (`Represents.walk_eq`) and uses (`Represents.isUsed_iff`).
-/

namespace Unguard

/-! ### Trees of one block -/

namespace BlockTree

/-- Puts `new` in the place of the node `n`. -/
def replace (t : BlockTree) (n : NodeId) (new : NodeTrees) : BlockTree :=
  ⟨t.head, t.body.replace n new⟩

/-- Renames the values in slots by `σ`. -/
def subst (σ : ValueId → ValueId) (t : BlockTree) : BlockTree :=
  ⟨t.head.subst σ, t.body.subst σ⟩

@[simp] theorem toArms_replace (t : BlockTree) (n : NodeId) (new : NodeTrees) :
    (t.replace n new).toArms = t.toArms.replace n new := rfl

@[simp] theorem toArms_subst (σ : ValueId → ValueId) (t : BlockTree) :
    (t.subst σ).toArms = t.toArms.subst σ := rfl

theorem toArms_injective {s t : BlockTree} (h : s.toArms = t.toArms) : s = t := by
  cases s
  cases t
  simp_all [toArms]

theorem headIds_toArms (t : BlockTree) : t.toArms.headIds = [t.head.id] := rfl

end BlockTree

/-- Different blocks of a table are at most as many as the table has. -/
theorem length_le_of_nodup_blockIds {bs : List BlockId} {size : Nat} (hnodup : bs.Nodup)
    (hlt : ∀ b ∈ bs, b.index < size) : bs.length ≤ size := by
  have hinj : Function.Injective BlockId.index := fun a b h => by cases a; cases b; simp_all
  have hsub : bs.map BlockId.index ⊆ List.range size := by
    intro i hi
    obtain ⟨b, hb, rfl⟩ := List.mem_map.1 hi
    exact List.mem_range.2 (hlt b hb)
  have hle := ((List.Nodup.map hinj hnodup).subperm hsub).length_le
  rwa [List.length_map, List.length_range] at hle

section Stand

variable {g : Graph} {arms : BlockTrees} {owner : Option NodeId}

/-- A tree of blocks that are in the table is no higher than the table is long. -/
theorem Arms.ShownBy.height_le (h : arms.ShownBy g) (hnodup : arms.blockIds.Nodup) :
    arms.height ≤ g.blocks.size := by
  refine Nat.le_trans arms.height_le_length_blockIds (length_le_of_nodup_blockIds hnodup ?_)
  intro b hb
  obtain ⟨view, hview, rfl⟩ := Arms.mem_blockIds.1 hb
  obtain ⟨block, hblock, -⟩ := h.block hview
  exact g.index_lt_of_block? hblock

/-- A walk from the top goes through the tree that the graph shows there. -/
theorem Arms.ShownBy.walk_eq {t : BlockTree} (h : t.toArms.ShownBy g) (htop : t.head.id = Graph.top)
    (hnodup : t.toArms.blockIds.Nodup) (visit : NodeId → Step) :
    g.walk visit = .ok (t.body.walk visit) := by
  have hheight : max (t.body.height + 1) 0 ≤ g.blocks.size := h.height_le hnodup
  obtain ⟨⟨block, hblock, -, hnodes⟩, hbody, -⟩ := h
  obtain ⟨depth, hdepth⟩ : ∃ d, g.blocks.size = d + 1 := ⟨g.blocks.size - 1, by omega⟩
  rw [Graph.walk, Graph.walkWith, hdepth, Graph.walkTo, ← htop, (g.block_eq_ok_iff).2 hblock, ok_bind,
    hnodes, Graph.walkNodes_of_shown visit depth hbody (by omega)]
  rfl

/-- Unfolding the blocks of a tree that stands gives the tree back. -/
theorem Arms.Stand.blockTrees_eq (h : arms.Stand g owner) (hnodup : arms.blockIds.Nodup) :
    g.blockTrees arms.headIds = .ok arms :=
  Graph.unfoldArms_of_stand g.blocks.size h (h.shownBy.height_le hnodup) nofun

end Stand

namespace Graph

/-- The tree is all there is to the graph. -/
structure Represents (g : Graph) (t : BlockTree) : Prop where
  top : t.head.id = Graph.top
  stand : t.toArms.Stand g none
  nodup_ids : t.toArms.ids.Nodup
  nodup_blockIds : t.toArms.blockIds.Nodup
  mem_ids : ∀ n node, g.node? n = some node → node.released = false → n ∈ t.toArms.ids
  returns : ∀ b block, g.block? b = some block → b ∉ t.toArms.blockIds → block.returns = []
  mirrored : g.Mirrored
  defined : ∀ v ∈ BlockTrees.definitions t.toArms, v.index < g.values.size

namespace Represents

variable {g : Graph} {t : BlockTree}

/-! ### Reading the graph off the tree -/

/-- Unfolding gives the tree, whatever nodes are entered, as long as no node that is left out has blocks. -/
theorem unfoldBlock_top (h : g.Represents t) {enter : Node → Bool}
    (henter : ∀ p ∈ t.toArms.subtrees, ∀ place, enter (p.1.entry p.2.headIds place) = false →
      p.2 = .done) :
    g.unfoldBlock enter g.blocks.size Graph.top = .ok t := by
  have hunfold := unfoldArms_of_stand g.blocks.size h.stand
    (h.stand.shownBy.height_le h.nodup_blockIds) henter
  rw [BlockTree.headIds_toArms, h.top, unfoldArms, bind_eq_ok_iff] at hunfold
  obtain ⟨s, hs, hst⟩ := hunfold
  rw [hs]
  exact congrArg Except.ok (BlockTree.toArms_injective (Except.ok.inj hst))

theorem tree_eq (h : g.Represents t) : g.tree = .ok t :=
  h.unfoldBlock_top nofun

/-- A graph represents one tree at most. -/
theorem unique (h : g.Represents t) {s : BlockTree} (hs : g.Represents s) : s = t :=
  Except.ok.inj (hs.tree_eq.symm.trans h.tree_eq)

/-- A walk of the graph is a walk of its tree. -/
theorem walk_eq (h : g.Represents t) (visit : NodeId → Step) :
    g.walk visit = .ok (t.body.walk visit) := by
  have hshown := h.stand.shownBy
  exact hshown.walk_eq h.top h.nodup_blockIds visit

theorem index_lt_of_mem_ids (h : g.Represents t) {n : NodeId} (hn : n ∈ t.toArms.ids) :
    n.index < g.nodes.size := by
  obtain ⟨node, hnode, -⟩ := h.stand.exists_node hn
  exact g.index_lt_of_node? hnode

theorem index_lt_of_mem_blockIds (h : g.Represents t) {b : BlockId} (hb : b ∈ t.toArms.blockIds) :
    b.index < g.blocks.size := by
  obtain ⟨view, hview, rfl⟩ := Arms.mem_blockIds.1 hb
  obtain ⟨nodes, place, hentry, -⟩ := h.stand.block hview
  exact g.index_lt_of_block? hentry

/-! ### One node of the tree -/

variable {head : NodeView} {arms : BlockTrees}

/-- No node is inside itself. -/
theorem nodup_subtree (h : g.Represents t) (hmem : (head, arms) ∈ t.toArms.subtrees) :
    (head.id :: arms.ids).Nodup := by
  have hnodup := (Arms.ids_perm h.nodup_ids hmem).nodup_iff.1 h.nodup_ids
  exact (List.nodup_append.1 hnodup).1

theorem not_mem_inside (h : g.Represents t) (hmem : (head, arms) ∈ t.toArms.subtrees) :
    head.id ∉ arms.ids :=
  (List.nodup_cons.1 (h.nodup_subtree hmem)).1

theorem nodup_blockIds_subtree (h : g.Represents t) (hmem : (head, arms) ∈ t.toArms.subtrees) :
    arms.blockIds.Nodup := by
  have hnodup := (Arms.blockIds_perm h.nodup_ids hmem).nodup_iff.1 h.nodup_blockIds
  exact (List.nodup_append.1 hnodup).1

/-- The top block belongs to no node. -/
theorem top_not_mem_inside (h : g.Represents t) (hmem : (head, arms) ∈ t.toArms.subtrees) :
    Graph.top ∉ arms.blockIds := by
  have hnodup := (Arms.blockIds_perm h.nodup_ids hmem).nodup_iff.1 h.nodup_blockIds
  exact fun hin => (List.nodup_append.1 hnodup).2.2 _ hin _ List.mem_cons_self h.top.symm

/-- The block that lists a node is outside the node. -/
theorem parent (h : g.Represents t) (hmem : (head, arms) ∈ t.toArms.subtrees) :
    ∃ b block, g.node? head.id = some (head.entry arms.headIds (some b)) ∧
      g.block? b = some block ∧ head.id ∈ block.nodes ∧ b ∉ arms.blockIds := by
  obtain ⟨place, hnode, harms, b, -, rfl, block, hblock, hlisted⟩ := h.stand.subtree hmem
  refine ⟨b, block, hnode, hblock, hlisted, fun hin => ?_⟩
  obtain ⟨view, hview, rfl⟩ := Arms.mem_blockIds.1 hin
  obtain ⟨nodes, owner, hentry, -, hsub, -⟩ := harms.block hview
  obtain rfl := Option.some.inj (hentry.symm.trans hblock)
  exact h.not_mem_inside hmem (hsub.subset hlisted)

/-- The blocks of a node know the node they belong to. -/
theorem stand_inside (h : g.Represents t) (hmem : (head, arms) ∈ t.toArms.subtrees) :
    arms.Stand g (some head.id) := by
  obtain ⟨place, -, harms, -⟩ := h.stand.subtree hmem
  exact harms

/-- In another block than the one it stands in, a node is not listed. -/
theorem not_mem_nodes (h : g.Represents t) {n : NodeId} {node : Node} {b : BlockId}
    (hn : g.node? n = some node) (hp : node.parent = some b) {view : BlockView}
    (hview : view ∈ t.toArms.blocks) (hne : view.id ≠ b) {block : Block}
    (hblock : g.block? view.id = some block) : n ∉ block.nodes := by
  intro hin
  obtain ⟨nodes, place, hentry, -, -, hnodes⟩ := h.stand.block hview
  obtain rfl := Option.some.inj (hentry.symm.trans hblock)
  obtain ⟨node', hn', hp'⟩ := hnodes n hin
  obtain rfl := Option.some.inj (hn'.symm.trans hn)
  exact hne (Option.some.inj (hp'.symm.trans hp))

/-! ### Uses -/

/-- Whatever holds a value is a node or a block of the tree. -/
theorem within_of_held (h : g.Represents t) {s : Slot} {v : ValueId} (hv : g.heldIn? s = some v) :
    s.holder.Within t.toArms.ids t.toArms.blockIds := by
  obtain ⟨holder, i⟩ := s
  cases holder with
  | node n =>
    obtain ⟨node, hn, hv⟩ := Option.bind_eq_some_iff.1 hv
    split at hv
    · exact nomatch hv
    · rename_i hlive
      exact h.mem_ids n node hn (Bool.not_eq_true _ ▸ hlive)
  | block b =>
    obtain ⟨block, hb, hv⟩ := Option.bind_eq_some_iff.1 hv
    by_contra hmem
    rw [h.returns b block hb hmem] at hv
    exact nomatch hv

/-- What the tree mentions is what is used. -/
theorem exists_mem_usesOf_iff (h : g.Represents t) {v : ValueId} :
    (∃ s, s ∈ g.usesOf v) ↔ v ∈ t.toArms.mentions := by
  constructor
  · rintro ⟨s, hs⟩
    have hheld := (h.mirrored.mem_iff _ _).1 hs
    exact h.stand.mem_mentions (h.within_of_held hheld) hheld
  · rw [Arms.mentions, Arms.mem_collect]
    rintro (⟨head, hhead, hv⟩ | ⟨view, hview, hv⟩)
    · obtain ⟨arms, hmem⟩ := Arms.mem_nodes.1 hhead
      obtain ⟨place, hentry, -⟩ := h.stand.subtree hmem
      obtain ⟨i, hi⟩ := List.mem_iff_getElem?.1 hv
      exact ⟨⟨.node _, i⟩, (h.mirrored.mem_usesOf_node hentry).2 ⟨rfl, hi⟩⟩
    · obtain ⟨nodes, owner, hentry, -⟩ := h.stand.block hview
      obtain ⟨i, hi⟩ := List.mem_iff_getElem?.1 hv
      exact ⟨⟨.block _, i⟩, (h.mirrored.mem_usesOf_block hentry).2 hi⟩

/-- A value is used if and only if the tree mentions it. -/
theorem isUsed_iff (h : g.Represents t) {v : ValueId} :
    g.isUsed v = true ↔ v ∈ t.toArms.mentions := by
  rw [← h.exists_mem_usesOf_iff, isUsed]
  cases g.usesOf v with
  | nil => simp
  | cons s ss => simp

end Represents

end Graph

end Unguard
