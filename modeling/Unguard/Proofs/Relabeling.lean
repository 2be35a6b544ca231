import Mathlib.Logic.Equiv.Basic
import Mathlib.Algebra.Group.End
import Unguard.Proofs.Represents
import Unguard.Proofs.Scopes

/-!
# Trees up to their numbers

A copy of nodes is the same tree with other numbers.  `Body.rename` replaces the numbers of nodes,
blocks and values by functions; `Body.relabel` does so by permutations, so that nothing is lost.  A
permutation can exchange the numbers of a copy for those of the original and leave all others alone
(`exists_perm_map_eq`), so that replacing nodes by a copy of them is a relabeling of the whole tree.

Two trees are equal if they are equal without the numbers of nodes and blocks, and list these numbers
in the same order (`Body.eq_of_unnumbered_eq`).
-/

namespace Unguard

/-! ### Renaming -/

def NodeView.rename (nodes : NodeId → NodeId) (values : ValueId → ValueId) (v : NodeView) :
    NodeView :=
  { id := nodes v.id, kind := v.kind, inputs := v.inputs.map values,
    outputs := v.outputs.map values, attributes := v.attributes }

def BlockView.rename (blocks : BlockId → BlockId) (values : ValueId → ValueId) (b : BlockView) :
    BlockView :=
  { id := blocks b.id, params := b.params.map values, returns := b.returns.map values }

section Rename

variable (nodes : NodeId → NodeId) (blocks : BlockId → BlockId) (values : ValueId → ValueId)

def Body.rename (body : NodeTrees) : NodeTrees :=
  body.map (NodeView.rename nodes values) (BlockView.rename blocks values)

def Arms.rename (arms : BlockTrees) : BlockTrees :=
  arms.map (NodeView.rename nodes values) (BlockView.rename blocks values)

variable (head : NodeView) (block : BlockView) (body rest : NodeTrees) (arms more : BlockTrees)

@[simp] theorem Body.rename_done : Body.rename nodes blocks values .done = .done := rfl

@[simp] theorem Body.rename_node : Body.rename nodes blocks values (.node head arms rest) =
    .node (head.rename nodes values) (arms.rename nodes blocks values)
      (rest.rename nodes blocks values) := rfl

@[simp] theorem Arms.rename_done : Arms.rename nodes blocks values .done = .done := rfl

@[simp] theorem Arms.rename_arm : Arms.rename nodes blocks values (.arm block body more) =
    .arm (block.rename blocks values) (body.rename nodes blocks values)
      (more.rename nodes blocks values) := rfl

theorem Body.ids_rename : (body.rename nodes blocks values).ids = body.ids.map nodes := by
  rw [Body.ids, Body.ids, Body.rename, Body.collect_map, Body.map_collect]
  rfl

theorem Arms.ids_rename : (arms.rename nodes blocks values).ids = arms.ids.map nodes := by
  rw [Arms.ids, Arms.ids, Arms.rename, Arms.collect_map, Arms.map_collect]
  rfl

theorem Body.blockIds_rename :
    (body.rename nodes blocks values).blockIds = body.blockIds.map blocks := by
  rw [Body.blockIds, Body.blockIds, Body.rename, Body.collect_map, Body.map_collect]
  rfl

theorem Arms.blockIds_rename :
    (arms.rename nodes blocks values).blockIds = arms.blockIds.map blocks := by
  rw [Arms.blockIds, Arms.blockIds, Arms.rename, Arms.collect_map, Arms.map_collect]
  rfl

theorem Body.definitions_rename : NodeTrees.definitions (body.rename nodes blocks values) =
    (NodeTrees.definitions body).map values := by
  rw [NodeTrees.definitions_eq_collect, NodeTrees.definitions_eq_collect, Body.rename,
    Body.collect_map, Body.map_collect]
  rfl

theorem Arms.definitions_rename : BlockTrees.definitions (arms.rename nodes blocks values) =
    (BlockTrees.definitions arms).map values := by
  rw [BlockTrees.definitions_eq_collect, BlockTrees.definitions_eq_collect, Arms.rename,
    Arms.collect_map, Arms.map_collect]
  rfl

theorem Body.outputs_rename :
    (body.rename nodes blocks values).outputs = body.outputs.map values := by
  rw [Body.outputs, Body.outputs, Body.rename, Body.heads_map, List.flatMap_map, List.map_flatMap]
  rfl

theorem Body.mentions_rename :
    (body.rename nodes blocks values).mentions = body.mentions.map values := by
  rw [Body.mentions, Body.mentions, Body.rename, Body.collect_map, Body.map_collect]
  rfl

theorem Body.rename_append (a b : NodeTrees) : (a ++ b).rename nodes blocks values =
    a.rename nodes blocks values ++ b.rename nodes blocks values :=
  Body.map_append ..

end Rename

section Congr

variable {nodes : NodeId → NodeId} {blocks : BlockId → BlockId} {values values' : ValueId → ValueId}

/-- Only what is mentioned or defined has to be renamed alike. -/
theorem Body.rename_congr {body : NodeTrees} (hm : ∀ v ∈ body.mentions, values v = values' v)
    (hd : ∀ v ∈ NodeTrees.definitions body, values v = values' v) :
    body.rename nodes blocks values = body.rename nodes blocks values' := by
  simp only [Body.mentions, NodeTrees.definitions_eq_collect, Body.mem_collect] at hm hd
  refine Body.map_congr (fun x hx => ?_) fun b hb => ?_
  · rw [NodeView.rename, NodeView.rename,
      List.map_congr_left fun v hv => hm v (Or.inl ⟨x, hx, hv⟩),
      List.map_congr_left fun v hv => hd v (Or.inl ⟨x, hx, hv⟩)]
  · rw [BlockView.rename, BlockView.rename,
      List.map_congr_left fun v hv => hm v (Or.inr ⟨b, hb, hv⟩),
      List.map_congr_left fun v hv => hd v (Or.inr ⟨b, hb, hv⟩)]

theorem Arms.rename_congr {arms : BlockTrees} (hm : ∀ v ∈ arms.mentions, values v = values' v)
    (hd : ∀ v ∈ BlockTrees.definitions arms, values v = values' v) :
    arms.rename nodes blocks values = arms.rename nodes blocks values' := by
  simp only [Arms.mentions, BlockTrees.definitions_eq_collect, Arms.mem_collect] at hm hd
  refine Arms.map_congr (fun x hx => ?_) fun b hb => ?_
  · rw [NodeView.rename, NodeView.rename,
      List.map_congr_left fun v hv => hm v (Or.inl ⟨x, hx, hv⟩),
      List.map_congr_left fun v hv => hd v (Or.inl ⟨x, hx, hv⟩)]
  · rw [BlockView.rename, BlockView.rename,
      List.map_congr_left fun v hv => hm v (Or.inr ⟨b, hb, hv⟩),
      List.map_congr_left fun v hv => hd v (Or.inr ⟨b, hb, hv⟩)]

end Congr

section Scoped

variable {nodes : NodeId → NodeId} {blocks : BlockId → BlockId} {values : ValueId → ValueId}

mutual

/-- What was visible under the old names is visible under the new ones. -/
theorem Body.Scoped.rename : ∀ {body : NodeTrees} {visible : List ValueId}, body.Scoped visible →
    (body.rename nodes blocks values).Scoped (visible.map values)
  | .done, _, _ => trivial
  | .node head arms rest, visible, ⟨hinputs, harms, hrest⟩ => by
    refine ⟨List.map_subset _ hinputs, harms.rename, ?_⟩
    have h : (rest.rename nodes blocks values).Scoped ((head.outputs ++ visible).map values) :=
      hrest.rename
    rwa [List.map_append] at h

theorem Arms.Scoped.rename : ∀ {arms : BlockTrees} {visible : List ValueId}, arms.Scoped visible →
    (arms.rename nodes blocks values).Scoped (visible.map values)
  | .done, _, _ => trivial
  | .arm head body rest, visible, ⟨hbody, hreturns, hrest⟩ => by
    have h : (body.rename nodes blocks values).Scoped ((head.params ++ visible).map values) :=
      hbody.rename
    have hr := List.map_subset values hreturns
    rw [List.map_append, List.map_append, ← Body.outputs_rename nodes blocks] at hr
    rw [List.map_append] at h
    exact ⟨h, hr, hrest.rename⟩

end

end Scoped

/-! ### Equality up to numbers -/

/-- The nodes without the numbers of nodes and blocks. -/
def Body.unnumbered (body : NodeTrees) : NodeTrees :=
  body.rename (fun _ => ⟨0⟩) (fun _ => ⟨0⟩) (fun v => v)

/-- The blocks without the numbers of nodes and blocks. -/
def Arms.unnumbered (arms : BlockTrees) : BlockTrees :=
  arms.rename (fun _ => ⟨0⟩) (fun _ => ⟨0⟩) (fun v => v)

/-- A node is determined by its number and by all the rest. -/
theorem NodeView.eq_of_rename_eq {x y : NodeView} (hid : x.id = y.id)
    (h : x.rename (fun _ => ⟨0⟩) (fun v => v) = y.rename (fun _ => ⟨0⟩) fun v => v) : x = y := by
  cases x
  cases y
  simp_all [NodeView.rename]

theorem BlockView.eq_of_rename_eq {x y : BlockView} (hid : x.id = y.id)
    (h : x.rename (fun _ => ⟨0⟩) (fun v => v) = y.rename (fun _ => ⟨0⟩) fun v => v) : x = y := by
  cases x
  cases y
  simp_all [BlockView.rename]

theorem Body.length_ids_unnumbered (body : NodeTrees) :
    body.unnumbered.ids.length = body.ids.length := by
  rw [unnumbered, Body.ids_rename, List.length_map]

theorem Arms.length_ids_unnumbered (arms : BlockTrees) :
    arms.unnumbered.ids.length = arms.ids.length := by
  rw [unnumbered, Arms.ids_rename, List.length_map]

theorem Body.length_blockIds_unnumbered (body : NodeTrees) :
    body.unnumbered.blockIds.length = body.blockIds.length := by
  rw [unnumbered, Body.blockIds_rename, List.length_map]

theorem Arms.length_blockIds_unnumbered (arms : BlockTrees) :
    arms.unnumbered.blockIds.length = arms.blockIds.length := by
  rw [unnumbered, Arms.blockIds_rename, List.length_map]

mutual

/-- Trees that differ in numbers at most are equal if their numbers are, read in order. -/
theorem Body.eq_of_unnumbered_eq : ∀ {a b : NodeTrees}, a.unnumbered = b.unnumbered →
    a.ids = b.ids → a.blockIds = b.blockIds → a = b
  | .done, .done, _, _, _ => rfl
  | .done, .node _ _ _, h, _, _ => nomatch h
  | .node _ _ _, .done, h, _, _ => nomatch h
  | .node x xs a, .node y ys b, h, hids, hbids => by
    simp only [Body.unnumbered, Body.rename_node, Body.node.injEq] at h
    obtain ⟨hx, hxs, ha⟩ := h
    rw [Body.ids_node, Body.ids_node, List.cons.injEq] at hids
    rw [Body.blockIds_node, Body.blockIds_node] at hbids
    have hlen : xs.ids.length = ys.ids.length := by
      rw [← xs.length_ids_unnumbered, ← ys.length_ids_unnumbered, Arms.unnumbered, hxs]
      rfl
    have hblen : xs.blockIds.length = ys.blockIds.length := by
      rw [← xs.length_blockIds_unnumbered, ← ys.length_blockIds_unnumbered, Arms.unnumbered, hxs]
      rfl
    obtain ⟨hids₁, hids₂⟩ := List.append_inj hids.2 hlen
    obtain ⟨hbids₁, hbids₂⟩ := List.append_inj hbids hblen
    rw [NodeView.eq_of_rename_eq hids.1 hx, Arms.eq_of_unnumbered_eq hxs hids₁ hbids₁,
      Body.eq_of_unnumbered_eq ha hids₂ hbids₂]

theorem Arms.eq_of_unnumbered_eq : ∀ {a b : BlockTrees}, a.unnumbered = b.unnumbered →
    a.ids = b.ids → a.blockIds = b.blockIds → a = b
  | .done, .done, _, _, _ => rfl
  | .done, .arm _ _ _, h, _, _ => nomatch h
  | .arm _ _ _, .done, h, _, _ => nomatch h
  | .arm x xs a, .arm y ys b, h, hids, hbids => by
    simp only [Arms.unnumbered, Arms.rename_arm, Arms.arm.injEq] at h
    obtain ⟨hx, hxs, ha⟩ := h
    rw [Arms.ids_arm, Arms.ids_arm] at hids
    rw [Arms.blockIds_arm, Arms.blockIds_arm, List.cons.injEq] at hbids
    have hlen : xs.ids.length = ys.ids.length := by
      rw [← xs.length_ids_unnumbered, ← ys.length_ids_unnumbered, Body.unnumbered, hxs]
      rfl
    have hblen : xs.blockIds.length = ys.blockIds.length := by
      rw [← xs.length_blockIds_unnumbered, ← ys.length_blockIds_unnumbered, Body.unnumbered, hxs]
      rfl
    obtain ⟨hids₁, hids₂⟩ := List.append_inj hids hlen
    obtain ⟨hbids₁, hbids₂⟩ := List.append_inj hbids.2 hblen
    rw [BlockView.eq_of_rename_eq hbids.1 hx, Body.eq_of_unnumbered_eq hxs hids₁ hbids₁,
      Arms.eq_of_unnumbered_eq ha hids₂ hbids₂]

end

/-! ### Permutations of numbers -/

/-- A permutation that takes one list to another and moves nothing else. -/
theorem exists_perm_map_eq {ι : Type} [DecidableEq ι] : ∀ {xs ys : List ι}, xs.length = ys.length →
    xs.Nodup → ys.Nodup → (∀ x ∈ xs, x ∉ ys) →
    ∃ π : Equiv.Perm ι, xs.map π = ys ∧ ∀ z, z ∉ xs → z ∉ ys → π z = z
  | [], [], _, _, _, _ => ⟨1, rfl, fun _ _ _ => rfl⟩
  | x :: xs, y :: ys, hlen, hxs, hys, hdisj => by
    rw [List.nodup_cons] at hxs hys
    simp only [List.mem_cons, not_or] at hdisj
    obtain ⟨π, hmap, hfix⟩ := exists_perm_map_eq (Nat.succ.inj hlen) hxs.2 hys.2 fun z hz =>
      (hdisj z (Or.inr hz)).2
    have hx : π x = x := hfix x hxs.1 (hdisj x (Or.inl rfl)).2
    refine ⟨Equiv.swap x y * π, ?_, fun z hz hz' => ?_⟩
    · rw [List.map_cons, Equiv.Perm.mul_apply, hx, Equiv.swap_apply_left]
      refine congrArg (y :: ·) ((List.map_congr_left fun z hz => ?_).trans hmap)
      -- The other numbers go to `ys`, away from both `x` and `y`.
      have hmem : π z ∈ ys := hmap ▸ List.mem_map_of_mem hz
      have hzx : π z ≠ x := fun h => (hdisj x (Or.inl rfl)).2 (h ▸ hmem)
      have hzy : π z ≠ y := fun h => hys.1 (h ▸ hmem)
      rw [Equiv.Perm.mul_apply, Equiv.swap_apply_of_ne_of_ne hzx hzy]
    · simp only [List.mem_cons, not_or] at hz hz'
      rw [Equiv.Perm.mul_apply, hfix z hz.2 hz'.2, Equiv.swap_apply_of_ne_of_ne hz.1 hz'.1]

/-- Permutations of the numbers of nodes, blocks and values. -/
structure Relabeling where
  nodes : Equiv.Perm NodeId
  blocks : Equiv.Perm BlockId
  values : Equiv.Perm ValueId

def Body.relabel (π : Relabeling) (body : NodeTrees) : NodeTrees :=
  body.rename π.nodes π.blocks π.values

def Arms.relabel (π : Relabeling) (arms : BlockTrees) : BlockTrees :=
  arms.rename π.nodes π.blocks π.values

def BlockTree.relabel (π : Relabeling) (t : BlockTree) : BlockTree :=
  ⟨t.head.rename π.blocks π.values, t.body.relabel π⟩

@[simp] theorem BlockTree.toArms_relabel (π : Relabeling) (t : BlockTree) :
    (t.relabel π).toArms = t.toArms.relabel π := rfl

/-- Some numbers can be exchanged for others that do not occur, and all else can be left alone. -/
theorem exists_perm_of_nodup_append {ι : Type} [DecidableEq ι] {xs ys : List ι}
    (hlen : xs.length = ys.length) (h : (xs ++ ys).Nodup) :
    ∃ π : Equiv.Perm ι, xs.map π = ys ∧ ∀ z, z ∉ xs → z ∉ ys → π z = z := by
  rw [List.nodup_append] at h
  exact exists_perm_map_eq hlen h.1 h.2.1 fun x hx hy => h.2.2 x hx x hy rfl

/-- Nodes that are the same but for their numbers are a relabeling of one another, which moves no other
numbers. -/
theorem Body.exists_relabel {body body' : NodeTrees} {ρ : ValueId → ValueId}
    (hsame : body'.unnumbered = body.rename (fun _ => ⟨0⟩) (fun _ => ⟨0⟩) ρ)
    (hids : (body.ids ++ body'.ids).Nodup) (hbids : (body.blockIds ++ body'.blockIds).Nodup)
    (hdefs : (NodeTrees.definitions body ++ NodeTrees.definitions body').Nodup)
    (hρ : ∀ v ∈ body.mentions, v ∉ NodeTrees.definitions body →
      ρ v = v ∧ v ∉ NodeTrees.definitions body') :
    ∃ π : Relabeling, body.relabel π = body' ∧
      (∀ n, n ∉ body.ids → n ∉ body'.ids → π.nodes n = n) ∧
      (∀ b, b ∉ body.blockIds → b ∉ body'.blockIds → π.blocks b = b) ∧
      (∀ v, v ∉ NodeTrees.definitions body → v ∉ NodeTrees.definitions body' → π.values v = v) ∧
      ∀ v ∈ NodeTrees.definitions body, π.values v = ρ v := by
  have hlen : body.ids.length = body'.ids.length := by
    rw [← body'.length_ids_unnumbered, hsame, Body.ids_rename, List.length_map]
  have hblen : body.blockIds.length = body'.blockIds.length := by
    rw [← body'.length_blockIds_unnumbered, hsame, Body.blockIds_rename, List.length_map]
  have hmapρ : (NodeTrees.definitions body).map ρ = NodeTrees.definitions body' := by
    rw [← Body.definitions_rename (fun _ => ⟨0⟩) (fun _ => ⟨0⟩), ← hsame, Body.unnumbered,
      Body.definitions_rename, List.map_id']
  -- Lists without a number in common are exchanged by a permutation that moves nothing else.
  obtain ⟨nodes, hnodes, hnodes'⟩ := exists_perm_of_nodup_append hlen hids
  obtain ⟨blocks, hblocks, hblocks'⟩ := exists_perm_of_nodup_append hblen hbids
  obtain ⟨values, hvalues, hvalues'⟩ := exists_perm_of_nodup_append
    (by rw [← hmapρ, List.length_map]) hdefs
  have hagree : ∀ v ∈ NodeTrees.definitions body, values v = ρ v :=
    List.map_inj_left.1 (hvalues.trans hmapρ.symm)
  refine ⟨⟨nodes, blocks, values⟩, ?_, hnodes', hblocks', hvalues', hagree⟩
  refine Body.eq_of_unnumbered_eq ?_ ?_ ?_
  · rw [hsame]
    have hcomp : (body.relabel ⟨nodes, blocks, values⟩).unnumbered =
        body.rename (fun _ => ⟨0⟩) (fun _ => ⟨0⟩) values := by
      rw [Body.unnumbered, Body.relabel, Body.rename, Body.rename, Body.map_map]
      refine Body.map_congr (fun x _ => ?_) fun b _ => ?_ <;>
        simp [NodeView.rename, BlockView.rename]
    rw [hcomp]
    refine Body.rename_congr (fun v hv => ?_) hagree
    by_cases hd : v ∈ NodeTrees.definitions body
    · exact hagree v hd
    · obtain ⟨hfix, hnew⟩ := hρ v hv hd
      rw [hvalues' v hd hnew, hfix]
  · rw [Body.relabel, Body.ids_rename]
    exact hnodes
  · rw [Body.relabel, Body.blockIds_rename]
    exact hblocks

/-- Renaming by a permutation takes different names to different names. -/
theorem Arms.WellFormed.relabel (π : Relabeling) {arms : BlockTrees} {visible : List ValueId}
    (h : arms.WellFormed visible) : (arms.relabel π).WellFormed (visible.map π.values) where
  scope := h.scope.rename
  ids := by
    rw [Arms.relabel, Arms.ids_rename]
    exact List.Nodup.map π.nodes.injective h.ids
  blockIds := by
    rw [Arms.relabel, Arms.blockIds_rename]
    exact List.Nodup.map π.blocks.injective h.blockIds
  definitions := by
    rw [Arms.relabel, Arms.definitions_rename]
    exact List.Nodup.map π.values.injective h.definitions
  fresh v hv := by
    obtain ⟨w, hw, rfl⟩ := List.mem_map.1 hv
    rw [Arms.relabel, Arms.definitions_rename, List.mem_map_of_injective π.values.injective]
    exact h.fresh w hw

end Unguard
