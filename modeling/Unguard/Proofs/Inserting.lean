import Unguard.Lower.Hoist
import Unguard.Proofs.Copying
import Unguard.Proofs.Edits

/-!
# Copies in front of a node

Copying nodes to directly in front of another one never faults, and gives a copy that stands there
(`copyBefore_copies`).  A graph that has grown by nodes in front of a node represents the tree with
these nodes in front of it (`Represents.grow`).
-/

namespace Unguard

/-! ### Lists with nodes put in -/

/-- A node is put right before its anchor. -/
theorem NodeId.insertBefore_append {n anchor : NodeId} : ∀ {before : List NodeId}
    {after : List NodeId}, anchor ∉ before →
    n.insertBefore anchor (before ++ anchor :: after) = before ++ n :: anchor :: after
  | [], _, _ => if_pos rfl
  | m :: before, after, h => by
    rw [List.mem_cons, not_or] at h
    rw [List.cons_append, NodeId.insertBefore, if_neg (Ne.symm h.1), insertBefore_append h.2]
    rfl

/-- Puts nodes in front of `anchor`, in order. -/
def insertAllBefore (anchor : NodeId) (ns l : List NodeId) : List NodeId :=
  ns.foldl (fun l n => n.insertBefore anchor l) l

/-- Nodes that are put before an anchor one by one stand there in their order. -/
theorem insertAllBefore_append {anchor : NodeId} : ∀ {ns before after : List NodeId},
    anchor ∉ before → anchor ∉ ns →
    insertAllBefore anchor ns (before ++ anchor :: after) = before ++ (ns ++ anchor :: after)
  | [], _, _, _, _ => rfl
  | n :: ns, before, after, hb, hns => by
    rw [List.mem_cons, not_or] at hns
    have hb' : anchor ∉ before ++ [n] := by
      rw [List.mem_append, List.mem_singleton, not_or]
      exact ⟨hb, hns.1⟩
    have hsplit : before ++ n :: anchor :: after = (before ++ [n]) ++ anchor :: after := by simp
    rw [insertAllBefore, List.foldl_cons, NodeId.insertBefore_append hb, hsplit]
    have h : insertAllBefore anchor ns ((before ++ [n]) ++ anchor :: after) = _ :=
      insertAllBefore_append hb' hns.2
    rw [insertAllBefore] at h
    rw [h]
    simp

theorem flatMap_of_not_mem {anchor : NodeId} {ns : List NodeId} : ∀ {l : List NodeId}, anchor ∉ l →
    (l.flatMap fun m => if m = anchor then ns else [m]) = l
  | [], _ => rfl
  | m :: l, h => by
    rw [List.mem_cons, not_or] at h
    rw [List.flatMap_cons, if_neg (Ne.symm h.1), flatMap_of_not_mem h.2]
    rfl

theorem insertAllBefore_eq_flatMap {anchor : NodeId} {ns l : List NodeId} (hl : l.Nodup)
    (hmem : anchor ∈ l) (hns : anchor ∉ ns) :
    insertAllBefore anchor ns l = l.flatMap fun m => if m = anchor then ns ++ [anchor] else [m] := by
  obtain ⟨before, after, rfl, hbefore⟩ := List.eq_append_cons_of_mem hmem
  have hafter : anchor ∉ after := by
    rw [List.nodup_append, List.nodup_cons] at hl
    exact hl.2.1.1
  rw [insertAllBefore_append hbefore hns, List.flatMap_append, List.flatMap_cons, if_pos rfl,
    flatMap_of_not_mem hbefore, flatMap_of_not_mem hafter, List.append_assoc, List.singleton_append]

theorem NodeId.mem_insertBefore {n anchor : NodeId} : ∀ {l : List NodeId}, anchor ∈ l →
    anchor ∈ n.insertBefore anchor l
  | m :: l, h => by
    rw [NodeId.insertBefore]
    split
    · exact List.mem_cons_of_mem _ h
    · rename_i hne
      exact List.mem_cons_of_mem _ (mem_insertBefore ((List.mem_cons.1 h).resolve_left (Ne.symm hne)))

namespace Graph

variable {g g' : Graph} {anchor n : NodeId} {b : BlockId}

/-! ### Copying -/

/-- `anchor` stands in block `b`, and the block lists it. -/
structure Anchored (anchor : NodeId) (b : BlockId) (g : Graph) : Prop where
  node : ∃ node, g.node? anchor = some node ∧ node.parent = some b
  block : ∃ block, g.block? b = some block ∧ anchor ∈ block.nodes

/-- A node that stands nowhere can be put before one that stands somewhere. -/
theorem insertBefore_ok {node : Node} (hn : g.node? n = some node) (hp : node.parent = none)
    (ha : Anchored anchor b g) :
    ∃ g', g.insertBefore anchor n = .ok g' ∧ Placed b n (n.insertBefore anchor) g g' := by
  obtain ⟨anchorNode, hanchor, hparent⟩ := ha.node
  obtain ⟨block, hblock, hmem⟩ := ha.block
  refine ⟨(g.modifyNode n fun node => { node with parent := some b }).modifyBlock b fun block =>
    { block with nodes := n.insertBefore anchor block.nodes }, ?_, ⟨fun m => ?_, fun c => ?_, rfl, rfl,
    ?_, ?_⟩⟩
  · rw [insertBefore, (g.node_eq_ok_iff).2 hn, ok_bind, hp]
    change (g.node anchor >>= _) = _
    rw [(g.node_eq_ok_iff).2 hanchor, ok_bind, hparent]
    change (g.block b >>= _) = _
    rw [(g.block_eq_ok_iff).2 hblock, ok_bind, if_pos hmem]
    rfl
  · rw [node?_modifyBlock, node?_modifyNode]
  · rw [block?_modifyBlock, block?_modifyNode]
  · exact size_nodes_modifyNode g n _
  · exact size_blocks_modifyBlock _ b _

theorem Anchored.placed {put : List NodeId → List NodeId} (ha : Anchored anchor b g)
    (h : Placed b n put g g') (hne : n ≠ anchor) (hput : ∀ l, anchor ∈ l → anchor ∈ put l) :
    Anchored anchor b g' := by
  obtain ⟨node, hnode, hparent⟩ := ha.node
  obtain ⟨block, hblock, hmem⟩ := ha.block
  refine ⟨⟨node, ?_, hparent⟩, ⟨{ block with nodes := put block.nodes }, ?_, hput _ hmem⟩⟩
  · rw [h.node?, if_neg hne, hnode]
  · rw [h.block?, if_pos rfl, hblock]
    rfl

/-- Copying a node does not move the anchor. -/
theorem Anchored.copyHead {arms' : BlockTrees} {c : Copying} (ha : Anchored anchor b g)
    (h : GrowsArms arms' g c.graph) (head : NodeView) (inputs : List ValueId)
    (blocks : List BlockId) : Anchored anchor b (c.copyHead head inputs blocks).2.graph := by
  obtain ⟨node, hnode, hparent⟩ := ha.node
  obtain ⟨block, hblock, hmem⟩ := ha.block
  have hlt := g.index_lt_of_node? hnode
  have hne : anchor ≠ ⟨c.graph.nodes.size⟩ := fun he => by
    have := h.extension.nodes_le
    subst he
    simp at hlt
    omega
  rw [Copying.copyHead_eq]
  refine ⟨⟨node, ?_, hparent⟩, ?_⟩
  · rw [node?_allocNode, if_neg hne, h.extension.node? _ hlt, hnode]
  · rw [block?_allocNode, h.extension.block? _ (g.index_lt_of_block? hblock), hblock]
    refine ⟨_, rfl, ?_⟩
    split <;> exact hmem

/-- A body is copied node by node, and each copy is put before the anchor; it ends up there in order. -/
theorem copyBefore_copies : ∀ {body : NodeTrees} {c : Copying} {visible : List ValueId},
    body.WellFormed visible → (∀ v ∈ NodeTrees.definitions body, v.index < c.graph.values.size) →
    Anchored anchor b c.graph → c.graph.Mirrored →
    ∃ c' body', copyBefore anchor c body = .ok c' ∧
      Copying.CopiesNodes b (insertAllBefore anchor body'.headIds) body body' c c' ∧
      c'.graph.Mirrored
  | .done, c, _, _, _, _, hm =>
    ⟨c, .done, rfl, ⟨Grows.done c.graph b, rfl, Copying.Renews.refl c⟩, hm⟩
  | .node head arms rest, c, visible, hwf, hold, ha, hm => by
    simp only [NodeTrees.definitions_node, List.mem_append] at hold
    obtain ⟨block, hblock, -⟩ := ha.block
    have hb := c.graph.index_lt_of_block? hblock
    obtain ⟨arms', harms, hblocks⟩ := Copying.copyArms_copies (c := c) hwf.inside fun v hv =>
      hold v (Or.inr (Or.inl hv))
    set c₁ := (c.copyArms arms).2
    set c₂ := (c₁.copyHead head (head.inputs.map c.subst.resolve) arms'.headIds).2 with hc₂
    have hm₂ : c₂.graph.Mirrored := (Mirrored.keptByCopying.copyArms arms [] hm).allocNode _
    have ha₂ : Anchored anchor b c₂.graph := ha.copyHead harms.grows head _ _
    have hnew : c₂.graph.node? ⟨c₁.graph.nodes.size⟩ = some (newEntry c₁.graph
        (c₁.headSpec head (head.inputs.map c.subst.resolve) arms'.headIds)) := by
      rw [hc₂, Copying.copyHead_eq, node?_allocNode, if_pos rfl]
    -- The copy of the node is whole before it is put in front of the anchor.
    obtain ⟨g', hinsert, hplaced⟩ := insertBefore_ok hnew rfl ha₂
    have hnode := harms.node hwf.single (fun v hv => hold v (Or.inl hv)) hb hplaced
    have hne : (⟨c₁.graph.nodes.size⟩ : NodeId) ≠ anchor := fun he => by
      obtain ⟨node, hanchor, -⟩ := ha.node
      have hlt := c.graph.index_lt_of_node? hanchor
      have hle := harms.grows.extension.nodes_le
      rw [← he] at hlt
      exact absurd hlt (Nat.not_lt.2 hle)
    -- The anchor is where it was, so the nodes after this one can be put there as well.
    obtain ⟨c', rest', hrest, hcopies, hm'⟩ := copyBefore_copies (c := ⟨g', c₂.subst⟩) hwf.after
      (fun v hv => Nat.lt_of_lt_of_le (hold v (Or.inr (Or.inr hv))) hnode.renews.values_le)
      (ha₂.placed hplaced hne fun l => NodeId.mem_insertBefore) (hm₂.insertBefore hinsert)
    refine ⟨c', Body.node (c₁.graph.newView (c₁.headSpec head (head.inputs.map c.subst.resolve)
      arms'.headIds)) arms' rest', ?_, hnode.trans hcopies hwf
        (fun v hv => hold v (Or.inr (Or.inr hv))) hb, hm'⟩
    have hcopy : c.copyNode head arms = (⟨c₁.graph.nodes.size⟩, c₂) := by
      rw [hc₂, ← hblocks]
      rfl
    rw [copyBefore, hcopy]
    change (c₂.graph.insertBefore anchor ⟨c₁.graph.nodes.size⟩ >>= _) = _
    rw [hinsert, ok_bind]
    exact hrest

end Graph

/-! ### The tree with nodes in front of another -/

section Front

variable {γ : Type} {head : NodeView} {arms more : BlockTrees} {new : NodeTrees}

theorem Arms.collect_replace_front (f : NodeView → List γ) (k : BlockView → List γ)
    (new : NodeTrees) (hnodup : more.ids.Nodup) (hmem : (head, arms) ∈ more.subtrees) :
    ((more.replace head.id (new ++ .node head arms .done)).collect f k).Perm
      (new.collect f k ++ more.collect f k) := by
  refine (Arms.collect_replace f k _ hnodup (Arms.mem_ids.2 ⟨_, hmem, rfl⟩)).trans ?_
  have hnode : (Body.node head arms .done).collect f k = f head ++ arms.collect f k := by
    simp [Body.collect]
  rw [Body.collect_append, List.append_assoc, hnode]
  exact (Arms.collect_perm f k hnodup hmem).symm.append_left _

variable {g g' : Graph} {t : BlockTree} {b : BlockId}

/-- The tree with the new nodes stands in the new graph: they are in the block of the anchor, right
before it. -/
theorem Graph.Represents.stand_front (h : g.Represents t)
    (hmem : (head, arms) ∈ t.toArms.subtrees)
    (hnode : g.node? head.id = some (head.entry arms.headIds (some b)))
    (hgrows : Grows b (insertAllBefore head.id new.headIds) new g g') :
    (t.toArms.replace head.id (new ++ .node head arms .done)).Stand g' none := by
  have hext := hgrows.extension
  have hlt := h.index_lt_of_mem_ids (Arms.mem_ids.2 ⟨_, hmem, rfl⟩)
  obtain ⟨b', block, hnode', hblock, hlisted, hout⟩ := h.parent hmem
  obtain rfl : b' = b := Option.some.inj
    (congrArg Node.parent (Option.some.inj (hnode'.symm.trans hnode)))
  refine h.stand.replace (fun m hm => ?_) (fun c hc => ?_) fun node hn => ?_
  · obtain hdone | hm := Arms.mem_ids_of_replace hm
    · cases hdone
    · exact hext.node? m (h.index_lt_of_mem_ids hm)
  · have hc : c ∈ t.toArms.blockIds :=
      (Arms.blockIds_perm h.nodup_ids hmem).symm.subset (List.mem_append_right _ hc)
    obtain ⟨view, hview, rfl⟩ := Arms.mem_blockIds.1 hc
    obtain ⟨nodes, place, hentry, -, hsub, -⟩ := h.stand.block hview
    rw [hext.block? _ (h.index_lt_of_mem_blockIds hc), hentry, Option.map_some, Option.map_some]
    refine congrArg (fun nodes => some (view.entry nodes place)) ?_
    -- Only the block with the anchor lists other nodes than before.
    by_cases hb : view.id = b'
    · rw [hb, hblock] at hentry
      obtain rfl := Option.some.inj hentry
      have hnew : head.id ∉ new.headIds := fun hin => by
        have hge := (hext.index_of_mem_ids (Body.headIds_sublist_ids.subset hin)).1
        exact absurd hlt (Nat.not_lt.2 hge)
      rw [if_pos hb, Body.headIds_append]
      exact insertAllBefore_eq_flatMap (hsub.nodup h.nodup_ids) hlisted hnew
    · rw [if_neg hb]
      exact (flatMap_of_not_mem (h.not_mem_nodes hnode rfl hview hb hentry)).symm
  · obtain rfl := Option.some.inj (hnode.symm.trans hn)
    refine Body.stand_append.2 ⟨hgrows.stand, (hext.node? _ hlt).trans hnode, ?_, trivial⟩
    refine hext.stand_arms (h.stand_inside hmem) fun c hc l => if_neg ?_
    rintro rfl
    exact hout hc

/-- A graph to which nodes have been added in front of another represents the tree with them there. -/
theorem Graph.Represents.grow (h : g.Represents t) (hmem : (head, arms) ∈ t.toArms.subtrees)
    (hnode : g.node? head.id = some (head.entry arms.headIds (some b)))
    (hgrows : Grows b (insertAllBefore head.id new.headIds) new g g') (hm : g'.Mirrored) :
    g'.Represents (t.replace head.id (new ++ .node head arms .done)) := by
  have hext := hgrows.extension
  have hids := Arms.collect_replace_front (fun v => [v.id]) (fun _ => []) new h.nodup_ids hmem
  have hbids := Arms.collect_replace_front (fun _ => []) (fun b => [b.id]) new h.nodup_ids hmem
  refine ⟨h.top, h.stand_front hmem hnode hgrows, hids.nodup_iff.2 ?_, hbids.nodup_iff.2 ?_,
    fun n node hn hlive => hids.symm.subset (List.mem_append.2 ?_), fun c block hc hout => ?_, hm,
    fun v hv => ?_⟩
  · -- New nodes have numbers beyond the old ones.
    refine List.nodup_append.2 ⟨hext.ids.nodup_iff.2 (nodup_newIds NodeId.mk_injective),
      h.nodup_ids, ?_⟩
    rintro m hm _ hm' rfl
    have hge := (hext.index_of_mem_ids hm).1
    have hlt := h.index_lt_of_mem_ids hm'
    omega
  · refine List.nodup_append.2 ⟨hext.blockIds.nodup_iff.2 (nodup_newIds BlockId.mk_injective),
      h.nodup_blockIds, ?_⟩
    rintro c hc _ hc' rfl
    have hge := (hext.index_of_mem_blockIds hc).1
    have hlt := h.index_lt_of_mem_blockIds hc'
    omega
  · -- a node of the graph is an old one or a new one, by its number
    by_cases hlt : n.index < g.nodes.size
    · exact Or.inr (h.mem_ids n node ((hext.node? n hlt).symm.trans hn) hlive)
    · exact Or.inl (hext.ids.symm.subset
        (mem_newIds.2 ⟨_, Nat.not_lt.1 hlt, g'.index_lt_of_node? hn, rfl⟩))
  · -- So it is with blocks; the new ones are all in the tree.
    by_cases hlt : c.index < g.blocks.size
    · rw [hext.block? c hlt] at hc
      obtain ⟨old, hold, rfl⟩ := Option.map_eq_some_iff.1 hc
      exact h.returns c old hold fun hin => hout (hbids.symm.subset (List.mem_append_right _ hin))
    · refine absurd (hbids.symm.subset (List.mem_append_left _ ?_)) hout
      exact hext.blockIds.symm.subset
        (mem_newIds.2 ⟨_, Nat.not_lt.1 hlt, g'.index_lt_of_block? hc, rfl⟩)
  · have hdefs := Arms.collect_replace_front NodeView.outputs BlockView.params new
      h.nodup_ids hmem
    rw [BlockTrees.definitions_eq_collect] at hv
    rcases List.mem_append.1 (hdefs.subset hv) with hv | hv
    · rw [← NodeTrees.definitions_eq_collect] at hv
      exact (hext.index_of_mem_definitions hv).2
    · rw [← BlockTrees.definitions_eq_collect] at hv
      exact Nat.lt_of_lt_of_le (h.defined v hv) hext.values_le

end Front

end Unguard
