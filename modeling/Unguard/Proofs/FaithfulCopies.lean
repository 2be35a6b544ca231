import Unguard.Proofs.Reachability

/-!
# Copies are faithful

A copy of a node is the tree of the node with other numbers, all of them new, and with the values
renamed by the renaming that copying answers (`Graph.copy_faithful`).  What was in the graph before
stays as it was.  Only the chains of values go on, by the slots of the copy: while nodes and blocks are
copied, slots enter chains at the end, and the one step by which slots leave chains, giving a block its
returns, is taken on blocks that are new and hold none (`Graph.Prolongs`).
-/

namespace Unguard

/-- A tree that is the same as another but for its numbers is the other one renamed. -/
theorem Body.exists_rename {body body' : NodeTrees} {ρ : ValueId → ValueId}
    (hsame : body'.unnumbered = body.rename (fun _ => ⟨0⟩) (fun _ => ⟨0⟩) ρ)
    (hids : (body.ids ++ body'.ids).Nodup) (hbids : (body.blockIds ++ body'.blockIds).Nodup) :
    ∃ nodes blocks, body.rename nodes blocks ρ = body' := by
  have hlen : body.ids.length = body'.ids.length := by
    rw [← body'.length_ids_unnumbered, hsame, Body.ids_rename, List.length_map]
  have hblen : body.blockIds.length = body'.blockIds.length := by
    rw [← body'.length_blockIds_unnumbered, hsame, Body.blockIds_rename, List.length_map]
  obtain ⟨nodes, hnodes, -⟩ := exists_perm_of_nodup_append hlen hids
  obtain ⟨blocks, hblocks, -⟩ := exists_perm_of_nodup_append hblen hbids
  refine ⟨nodes, blocks, Body.eq_of_unnumbered_eq ?_ ?_ ?_⟩
  · rw [hsame, Body.unnumbered, Body.rename, Body.rename, Body.map_map]
    refine Body.map_congr (fun x _ => ?_) fun b _ => ?_ <;>
      simp [NodeView.rename, BlockView.rename]
  · rw [Body.ids_rename, hnodes]
  · rw [Body.blockIds_rename, hblocks]

/-- A node of a well-formed tree, on its own. -/
theorem Arms.WellFormed.exists_single {head : NodeView} {arms more : BlockTrees}
    {visible : List ValueId} (h : more.WellFormed visible) (hmem : (head, arms) ∈ more.subtrees) :
    ∃ seen, (Body.node head arms .done).WellFormed seen := by
  obtain ⟨seen, hinputs, harms, hseen⟩ := h.subtree hmem
  have hids := (List.nodup_append.1 (h.nodup_collect hmem h.ids)).1
  have hdefs := h.definitions
  rw [BlockTrees.definitions_eq_collect] at hdefs
  have hdefs := (List.nodup_append.1 (h.nodup_collect hmem hdefs)).1
  rw [← BlockTrees.definitions_eq_collect] at hdefs
  refine ⟨seen, ⟨hinputs, harms.scope, trivial⟩, ?_, ?_, ?_, fun v hv => ?_⟩
  · rw [Body.ids_node, Body.ids_done, List.append_nil]
    exact hids
  · rw [Body.blockIds_node, Body.blockIds_done, List.append_nil]
    exact harms.blockIds
  · rw [NodeTrees.definitions_node, NodeTrees.definitions_done, List.append_nil]
    exact hdefs
  · rw [NodeTrees.definitions_node, NodeTrees.definitions_done, List.append_nil, List.mem_append, not_or]
    exact ⟨hseen v hv, harms.fresh v hv⟩

namespace Graph

variable {g g' : Graph}

/-! ### Chains that go on -/

/-- The chains of `g` are the beginnings of those of `g'`. -/
structure Prolongs (g g' : Graph) : Prop where
  blocks_le : g.blocks.size ≤ g'.blocks.size
  usesOf : ∀ v, g.usesOf v <+: g'.usesOf v

namespace Prolongs

theorem refl (g : Graph) : Prolongs g g :=
  ⟨Nat.le_refl _, fun _ => List.prefix_refl _⟩

theorem newBlock (h : Prolongs g g') : Prolongs g g'.newBlock.2 where
  blocks_le := by
    have hsize : g'.newBlock.2.blocks.size = g'.blocks.size + 1 := Array.size_push ..
    have hle := h.blocks_le
    omega
  usesOf v := g'.usesOf_newBlock v ▸ h.usesOf v

theorem allocParam (h : Prolongs g g') (b : BlockId) (label : Label) :
    Prolongs g (g'.allocParam b label).2 where
  blocks_le := by
    have hsize : (g'.allocParam b label).2.blocks.size = g'.blocks.size := Array.size_modify
    exact hsize ▸ h.blocks_le
  usesOf v := g'.usesOf_allocParam b label v ▸ h.usesOf v

theorem allocNode (h : Prolongs g g') (spec : NodeSpec) : Prolongs g (g'.allocNode spec).2 where
  blocks_le := g'.size_blocks_allocNode spec ▸ h.blocks_le
  usesOf v := by
    rw [usesOf_allocNode, UseTable.get_enter]
    exact (h.usesOf v).trans (List.prefix_append _ _)

theorem attachLast (h : Prolongs g g') (b : BlockId) (n : NodeId) : Prolongs g (g'.attachLast b n) where
  blocks_le := by
    have hsize : (g'.attachLast b n).blocks.size = g'.blocks.size := size_blocks_modifyBlock _ b _
    exact hsize ▸ h.blocks_le
  usesOf v := g'.usesOf_attachLast b n v ▸ h.usesOf v

/-- A block that was not there before has no slots in the old chains. -/
theorem assignReturns (h : Prolongs g g') (hm : g.Mirrored) {b : BlockId}
    (hb : g.blocks.size ≤ b.index) (values : List ValueId) : Prolongs g (g'.assignReturns b values) where
  blocks_le := by
    rw [size_blocks_assignReturns]
    exact h.blocks_le
  usesOf v := by
    cases hblock : g'.block? b with
    | none =>
      have hsame : g'.assignReturns b values = g' := by simp [Graph.assignReturns, hblock]
      rw [hsame]
      exact h.usesOf v
    | some block =>
      obtain ⟨new, hnew⟩ := h.usesOf v
      have hkept : (g.usesOf v).filter (· ∉ slotsFor v (Holder.slots (.block b) block.returns)) =
          g.usesOf v := by
        refine List.filter_eq_self.2 fun s hs => decide_eq_true fun hin => ?_
        have hholder := (Holder.mem_slots.1 (mem_slotsFor.1 hin)).1
        have hheld := (hm.mem_iff v s).1 hs
        rw [heldIn?, hholder] at hheld
        simp only [(g.block?_eq_none_iff).2 hb] at hheld
        cases hheld
      rw [usesOf_assignReturns hblock, ← hnew, List.filter_append, hkept, List.append_assoc]
      exact List.prefix_append _ _

/-- Copying makes new blocks before it fills them. -/
theorem keptByCopying (hm : g.Mirrored) :
    KeptByCopying fun bs g' => Prolongs g g' ∧ ∀ b ∈ bs, g.blocks.size ≤ b.index where
  perm hperm h := ⟨h.1, fun b hb => h.2 b (hperm.mem_iff.2 hb)⟩
  newBlock h := ⟨h.1.newBlock, List.forall_mem_cons.2 ⟨h.1.blocks_le, h.2⟩⟩
  allocParam label _ h := ⟨h.1.allocParam _ label, h.2⟩
  assignReturns values hb h := ⟨h.1.assignReturns hm (h.2 _ hb) values, h.2⟩
  allocNode spec h := ⟨h.1.allocNode spec, (List.forall_mem_append.1 h.2).2⟩
  attachNew spec _ h := ⟨(h.1.allocNode spec).attachLast _ _, (List.forall_mem_append.1 h.2).2⟩

end Prolongs

/-! ### What is old and what is new -/

section Extension

variable {edit : BlockId → List NodeId → List NodeId} {ns : List NodeId} {bs : List BlockId}
  {vs : List ValueId} {s : Slot} {v : ValueId} {body : NodeTrees} {parent : Option BlockId}

/-- New numbers of nodes differ from each other and from those of nodes that stood before. -/
theorem Extends.nodup_ids (h : Extends edit ns bs vs g g') (hstand : body.Stand g parent)
    (hnodup : body.ids.Nodup) : (body.ids ++ ns).Nodup := by
  have hnew := h.ids.nodup_iff.2 (nodup_newIds NodeId.mk_injective)
  refine List.nodup_append.2 ⟨hnodup, hnew, fun x hx y hy hxy => ?_⟩
  subst hxy
  obtain ⟨node, hentry, -⟩ := hstand.exists_node hx
  have hlt := g.index_lt_of_node? hentry
  have hge := (h.index_of_mem_ids hy).1
  omega

/-- New numbers of blocks differ from each other and from those of blocks that stood before. -/
theorem Extends.nodup_blockIds (h : Extends edit ns bs vs g g') (hstand : body.Stand g parent)
    (hnodup : body.blockIds.Nodup) : (body.blockIds ++ bs).Nodup := by
  have hnew := h.blockIds.nodup_iff.2 (nodup_newIds BlockId.mk_injective)
  refine List.nodup_append.2 ⟨hnodup, hnew, fun x hx y hy hxy => ?_⟩
  subst hxy
  obtain ⟨view, hview, rfl⟩ := Body.mem_blockIds.1 hx
  obtain ⟨members, owner, hentry, -⟩ := hstand.block hview
  have hlt := g.index_lt_of_block? hentry
  have hge := (h.index_of_mem_blockIds hy).1
  omega

/-- What is new held nothing before. -/
theorem Extends.heldIn?_of_within (h : Extends (fun _ l => l) ns bs vs g g')
    (hs : s.holder.Within ns bs) : g.heldIn? s = none := by
  obtain ⟨holder, i⟩ := s
  cases holder with
  | node n => rw [heldIn?_node, (g.node?_eq_none_iff).2 (h.index_of_mem_ids hs).1, Option.bind_none]
  | block b =>
    rw [heldIn?_block, (g.block?_eq_none_iff).2 (h.index_of_mem_blockIds hs).1, Option.bind_none]

/-- What is not new holds what it held. -/
theorem Extends.heldIn?_of_not_within (h : Extends (fun _ l => l) ns bs vs g g')
    (hs : ¬ s.holder.Within ns bs) : g'.heldIn? s = g.heldIn? s := by
  obtain ⟨holder, i⟩ := s
  cases holder with
  | node n =>
    rw [heldIn?_node, heldIn?_node]
    by_cases hn : n.index < g.nodes.size
    · rw [h.node? n hn]
    · have hlt : ¬ n.index < g'.nodes.size := fun hlt =>
        hs (h.ids.symm.subset (mem_newIds.2 ⟨_, Nat.not_lt.1 hn, hlt, rfl⟩))
      rw [(g.node?_eq_none_iff).2 (Nat.not_lt.1 hn), (g'.node?_eq_none_iff).2 (Nat.not_lt.1 hlt)]
  | block b =>
    rw [heldIn?_block, heldIn?_block]
    by_cases hb : b.index < g.blocks.size
    · rw [h.block? b hb]
      cases g.block? b <;> rfl
    · have hlt : ¬ b.index < g'.blocks.size := fun hlt =>
        hs (h.blockIds.symm.subset (mem_newIds.2 ⟨_, Nat.not_lt.1 hb, hlt, rfl⟩))
      rw [(g.block?_eq_none_iff).2 (Nat.not_lt.1 hb), (g'.block?_eq_none_iff).2 (Nat.not_lt.1 hlt)]

/-- Chains go on by the slots of what is new. -/
theorem Extends.usesOf (h : Extends (fun _ l => l) ns bs vs g g') (hm : g.Mirrored)
    (hm' : g'.Mirrored) (hchains : Prolongs g g') (v : ValueId) :
    ∃ new, g'.usesOf v = g.usesOf v ++ new ∧ new.Nodup ∧
      ∀ s, s ∈ new ↔ s.holder.Within ns bs ∧ g'.heldIn? s = some v := by
  obtain ⟨new, hnew⟩ := hchains.usesOf v
  have hnodup := hm'.nodup v
  rw [← hnew, List.nodup_append] at hnodup
  have hmem : ∀ s, g'.heldIn? s = some v ↔ g.heldIn? s = some v ∨ s ∈ new := fun s => by
    rw [← hm'.mem_iff, ← hm.mem_iff, ← hnew, List.mem_append]
  refine ⟨new, hnew.symm, hnodup.2.1, fun s => ⟨fun hs => ⟨?_, (hmem s).2 (Or.inr hs)⟩, ?_⟩⟩
  · -- a slot that was there before would be in the chain twice
    by_contra hout
    have hheld := (hmem s).2 (Or.inr hs)
    rw [h.heldIn?_of_not_within hout, ← hm.mem_iff] at hheld
    exact hnodup.2.2 s hheld s hs rfl
  · rintro ⟨hin, hheld⟩
    refine ((hmem s).1 hheld).resolve_left fun hold => ?_
    rw [h.heldIn?_of_within hin] at hold
    cases hold

end Extension

/-! ### Copying a node -/

/-- Unfolding a node that stands gives the node and what is in it. -/
theorem nodeTree_of_stand {body : NodeTrees} {parent : Option BlockId} (h : body.Stand g parent)
    (hnodup : body.blockIds.Nodup) : g.nodeTree body.headIds = .ok body := by
  refine unfoldNodes_of_stand g.blocks.size h ?_ nofun
  refine Nat.le_trans body.height_le_length_blockIds (length_le_of_nodup_blockIds hnodup ?_)
  intro b hb
  obtain ⟨view, hview, rfl⟩ := Body.mem_blockIds.1 hb
  obtain ⟨nodes, owner, hblock, -⟩ := h.block hview
  exact g.index_lt_of_block? hblock

/-- Values that exist have the same label if they are labelled the same. -/
theorem map_label_eq_of_labelOf {v w : ValueId} (hv : v.index < g.values.size)
    (hw : w.index < g'.values.size) (h : g'.labelOf w = g.labelOf v) :
    (g'.value? w).map Value.label = (g.value? v).map Value.label := by
  obtain ⟨value, hvalue⟩ := g.exists_value? hv
  obtain ⟨value', hvalue'⟩ := g'.exists_value? hw
  rw [labelOf, labelOf, hvalue, hvalue'] at h
  rw [hvalue, hvalue', Option.map_some, Option.map_some]
  exact congrArg some h

section Copy

variable {t : BlockTree} {head : NodeView} {arms : BlockTrees}

theorem Represents.index_lt_of_definition (h : g.Represents t)
    (hmem : (head, arms) ∈ t.toArms.subtrees) {v : ValueId}
    (hv : v ∈ NodeTrees.definitions (.node head arms .done)) : v.index < g.values.size := by
  refine h.defined v ?_
  rw [NodeTrees.definitions_node, NodeTrees.definitions_done, List.append_nil] at hv
  exact (Arms.definitions_perm h.nodup_ids hmem).symm.subset (List.mem_append_left _ hv)

/-- Every node of the tree can be copied, and the copy is like it. -/
theorem Represents.copy_copies {seen : List ValueId} (h : g.Represents t)
    (hmem : (head, arms) ∈ t.toArms.subtrees)
    (hwf : (Body.node head arms .done).WellFormed seen) (names : Renaming) :
    ∃ m c body', g.copy head.id names = .ok (m, c) ∧ body'.headIds = [m] ∧ Prolongs g c.graph ∧
      Copying.CopiesNode (.node head arms .done) body' ⟨g, names⟩ c := by
  obtain ⟨b, block, hnode, -⟩ := h.parent hmem
  have hdefined := fun v => h.index_lt_of_definition hmem (v := v)
  obtain ⟨arms', harms, hblocks⟩ := Copying.copyArms_copies (c := ⟨g, names⟩) hwf.inside fun v hv =>
    hdefined v (by simp [hv])
  have hcopies := harms.copyHead hwf fun v hv => hdefined v (by simp [hv])
  have hcopy : g.copy head.id names = .ok (Copying.copyNode ⟨g, names⟩ head arms) := by
    rw [Graph.copy, (g.node_eq_ok_iff).2 hnode, ok_bind]
    change (g.blockTrees arms.headIds >>= _) = _
    rw [(h.stand_inside hmem).blockTrees_eq hwf.inside.blockIds, ok_bind]
    rfl
  have hprolongs := (Prolongs.keptByCopying h.mirrored).copyNode head arms (c := ⟨g, names⟩) []
    ⟨Prolongs.refl g, List.forall_mem_nil _⟩
  refine ⟨⟨_⟩, _, _, hcopy.trans ?_, rfl, ?_, hcopies⟩
  · rw [← hblocks]
    rfl
  · rw [← hblocks]
    exact hprolongs.1

end Copy

/-- **A copy is faithful and disturbs nothing.**  In a graph that was read and then changed by any
sequence of runs of passes, take a node that is reached and any renaming `names` to begin with.  The copy
stands nowhere.  Its tree is the tree of the node, renamed: other numbers for nodes and blocks, and for
values, in all slots and definitions, what the renaming says that copying answers.  These numbers of
nodes, blocks and definitions are just those that were given out by the call, and values that take the
place of others have their labels, that is their types and names.  On values not defined by the node or
inside it, the renaming is `names`.  All older nodes, blocks and values are as they were, and each chain
goes on by the slots of the copy that hold the value. -/
theorem copy_faithful (source : String) (g₀ g : Graph) (runs : List PassRun) (n : NodeId)
    (names : Renaming) (hread : Graph.ofText source = .ok g₀) (hruns : g₀.applyRuns runs = .ok g)
    (hn : g.ReachesNode n) :
    ∃ m c body nodes blocks, g.copy n names = .ok (m, c) ∧ g.nodeTree [n] = .ok body ∧
      c.graph.nodeTree [m] = .ok (body.rename nodes blocks c.subst.resolve) ∧
      (body.rename nodes blocks c.subst.resolve).Stand c.graph none ∧
      (body.ids.map nodes).Perm (newIds NodeId.mk g.nodes.size c.graph.nodes.size) ∧
      (body.blockIds.map blocks).Perm (newIds BlockId.mk g.blocks.size c.graph.blocks.size) ∧
      ((NodeTrees.definitions body).map c.subst.resolve).Perm
        (newIds ValueId.mk g.values.size c.graph.values.size) ∧
      (∀ v ∈ NodeTrees.definitions body,
        (c.graph.value? (c.subst.resolve v)).map Value.label = (g.value? v).map Value.label) ∧
      (∀ v, v ∉ NodeTrees.definitions body → c.subst.resolve v = names.resolve v) ∧
      (∀ k, k.index < g.nodes.size → c.graph.node? k = g.node? k) ∧
      (∀ b, b.index < g.blocks.size → c.graph.block? b = g.block? b) ∧
      (∀ v, v.index < g.values.size → c.graph.value? v = g.value? v) ∧
      c.graph.types = g.types ∧
      ∀ v, ∃ new, c.graph.usesOf v = g.usesOf v ++ new ∧ new.Nodup ∧
        ∀ s, s ∈ new ↔ s.holder.Within (body.ids.map nodes) (body.blockIds.map blocks) ∧
          c.graph.heldIn? s = some v := by
  obtain ⟨t, hg, hwf, -⟩ := represents_of_runs hread hruns
  obtain ⟨⟨head, arms⟩, hmem, rfl⟩ := Arms.mem_ids.1 (hg.reachesNode_iff.1 hn)
  obtain ⟨seen, hsingle⟩ := hwf.exists_single hmem
  -- Copying succeeds because the node is part of a tree, and gives a body of the same shape.
  obtain ⟨m, c, body', hcopy, hhead, hchains, hgrows, hsame, hrenews⟩ := hg.copy_copies hmem hsingle names
  obtain ⟨b, block, hnode, -⟩ := hg.parent hmem
  have hstand : (Body.node head arms .done).Stand g (some b) := ⟨hnode, hg.stand_inside hmem, trivial⟩
  have hext : Extends (fun _ l => l) body'.ids body'.blockIds (NodeTrees.definitions body') g c.graph :=
    hgrows.extension
  have hbids := hext.nodup_blockIds hstand hsingle.blockIds
  -- No number occurs twice in it, so the shape can be read as a renaming.
  obtain ⟨nodes, blocks, rfl⟩ := Body.exists_rename hsame (hext.nodup_ids hstand hsingle.ids) hbids
  have hdefs := hext.definitions
  -- Chains are extended at the end by the slots of the copy.
  have huses := hext.usesOf hg.mirrored (hg.mirrored.copy hcopy) hchains
  rw [Body.ids_rename, Body.blockIds_rename] at huses
  rw [Body.definitions_rename] at hdefs
  refine ⟨m, c, _, nodes, blocks, hcopy, nodeTree_of_stand hstand hsingle.blockIds,
    hhead ▸ nodeTree_of_stand hgrows.stand (List.nodup_append.1 hbids).2.1, hgrows.stand, ?_, ?_, hdefs,
    ?_, hrenews.resolve, hext.node?, ?_, hext.value?, hrenews.types, huses⟩
  · exact Body.ids_rename nodes blocks c.subst.resolve _ ▸ hext.ids
  · exact Body.blockIds_rename nodes blocks c.subst.resolve _ ▸ hext.blockIds
  · intro v hv
    exact map_label_eq_of_labelOf (hg.index_lt_of_definition hmem hv) (hrenews.defined v hv)
      (hrenews.label v hv)
  · intro c hc
    rw [hext.block? c hc]
    cases g.block? c <;> rfl

/-- A computation in one arm of a conditional. -/
def chosenComputation : String :=
  "graph(%c: core.bool, %x: core.t) \x7b %y = if(%c) : core.t \x7b %z = aten.f(%x) : core.t " ++
    "return %z \x7d else \x7b return %x \x7d return %y \x7d"

/-- The conditional copied with `%c` in the place of `%x`, and with something in the place of `%z` that
copying replaces.  The chain of `%c` goes on by three slots of the copy. -/
theorem copy_faithful_chosenComputation : ∃ g₀ g c body nodes blocks,
    Graph.ofText chosenComputation = .ok g₀ ∧ g₀.applyRuns [.sweeping .empty 0] = .ok g ∧
    g.ReachesNode ⟨1⟩ ∧ g.copy ⟨1⟩ ⟨[(⟨1⟩, ⟨0⟩), (⟨2⟩, ⟨9⟩)]⟩ = .ok (⟨3⟩, c) ∧
    g.nodeTree [⟨1⟩] = .ok body ∧
    c.graph.nodeTree [⟨3⟩] = .ok (body.rename nodes blocks c.subst.resolve) ∧
    (body.ids.map nodes).Perm [⟨2⟩, ⟨3⟩] ∧ (body.blockIds.map blocks).Perm [⟨3⟩, ⟨4⟩] ∧
    c.subst.resolve ⟨2⟩ = ⟨4⟩ ∧ c.subst.resolve ⟨1⟩ = ⟨0⟩ ∧ g.usesOf ⟨0⟩ = [⟨.node ⟨1⟩, 0⟩] ∧
    c.graph.usesOf ⟨0⟩ =
      [⟨.node ⟨1⟩, 0⟩, ⟨.node ⟨2⟩, 0⟩, ⟨.block ⟨4⟩, 0⟩, ⟨.node ⟨3⟩, 0⟩] := by
  have hruns : (Graph.ofText chosenComputation).toOption.bind (fun g =>
      (g.applyRuns [.sweeping .empty 0]).toOption.bind fun g =>
        (g.copy ⟨1⟩ ⟨[(⟨1⟩, ⟨0⟩), (⟨2⟩, ⟨9⟩)]⟩).toOption.map fun p =>
          ((g.isLive ⟨1⟩, [g.nodes.size, p.2.graph.nodes.size, g.blocks.size, p.2.graph.blocks.size]),
            [p.1.index, (p.2.subst.resolve ⟨2⟩).index, (p.2.subst.resolve ⟨1⟩).index],
            [g.usesOf ⟨0⟩, p.2.graph.usesOf ⟨0⟩])) =
      some ((true, [2, 4, 3, 5]), [3, 4, 0], [[⟨.node ⟨1⟩, 0⟩],
        [⟨.node ⟨1⟩, 0⟩, ⟨.node ⟨2⟩, 0⟩, ⟨.block ⟨4⟩, 0⟩, ⟨.node ⟨3⟩, 0⟩]]) := by
    decide +kernel
  simp only [Option.bind_eq_some_iff, Option.map_eq_some_iff, toOption_eq_some_iff, Prod.mk.injEq,
    List.cons.injEq, Prod.exists] at hruns
  obtain ⟨g₀, hread, g, hruns, ⟨m⟩, c, hcopy, ⟨hlive, hsize, hsize', hblocks, hblocks', -⟩,
    ⟨rfl, hz, hx, -⟩, hbefore, hafter, -⟩ := hruns
  obtain ⟨t, hg, -⟩ := represents_of_runs hread hruns
  have hreach : g.ReachesNode ⟨1⟩ :=
    hg.reachesNode_iff.2 (hg.live_iff_mem_ids.1 ⟨by simp [hsize], hlive⟩)
  obtain ⟨m, c', body, nodes, blocks, hcopy', hbody, hcopied, -, hids, hbids, -⟩ :=
    copy_faithful chosenComputation g₀ g _ ⟨1⟩ ⟨[(⟨1⟩, ⟨0⟩), (⟨2⟩, ⟨9⟩)]⟩ hread hruns hreach
  obtain ⟨rfl, rfl⟩ := Prod.mk.inj (Except.ok.inj (hcopy.symm.trans hcopy'))
  rw [hsize, hsize'] at hids
  rw [hblocks, hblocks'] at hbids
  exact ⟨g₀, g, c, body, nodes, blocks, hread, hruns, hreach, hcopy, hbody, hcopied, hids, hbids,
    congrArg ValueId.mk hz, congrArg ValueId.mk hx, hbefore, hafter⟩

end Graph

end Unguard
