import Unguard.Graph.Copy
import Unguard.Proofs.Growing
import Unguard.Proofs.Relabeling

/-!
# What a copy is

A copy of well-formed nodes is the same tree but for its numbers: without these it is the original with
the values renamed, and every value that takes the place of another has its label
(`Copying.copyNodes_copies`, `Copying.copyArms_copies`).

The renaming grows while the copy is made.  A slot is filled by the renaming of its time; since a value
is defined before it is used, the final renaming says the same of it.
-/

namespace Unguard

/-! ### Renamings -/

namespace Renaming

theorem resolve_insertAll_of_not_mem {v : ValueId} : ∀ {r : Renaming} {sources : List ValueId}
    {targets : List ValueId}, v ∉ sources → (r.insertAll sources targets).resolve v = r.resolve v
  | _, [], _, _ => by simp [insertAll]
  | _, _ :: _, [], _ => by simp [insertAll]
  | r, source :: sources, target :: targets, h => by
    rw [List.mem_cons, not_or] at h
    rw [insertAll, resolve_insertAll_of_not_mem h.2, resolve_insert, if_neg h.1]

/-- A name is resolved to the target it was inserted with. -/
theorem map_resolve_insertAll : ∀ {r : Renaming} {sources targets : List ValueId}, sources.Nodup →
    sources.length = targets.length → sources.map (r.insertAll sources targets).resolve = targets
  | _, [], [], _, _ => rfl
  | r, source :: sources, target :: targets, hnodup, hlen => by
    rw [List.nodup_cons] at hnodup
    rw [insertAll, List.map_cons, resolve_insertAll_of_not_mem hnodup.1, resolve_insert, if_pos rfl,
      map_resolve_insertAll hnodup.2 (Nat.succ.inj hlen)]

end Renaming

namespace Copying

open Unguard.Graph

/-! ### Values that take the place of others -/

/-- Each of `vs` has got a value in its place, with the same label.  Nothing else is renamed, and no
value is changed. -/
structure Renews (vs : List ValueId) (c c' : Copying) : Prop where
  resolve : ∀ v, v ∉ vs → c'.subst.resolve v = c.subst.resolve v
  label : ∀ v ∈ vs, c'.graph.labelOf (c'.subst.resolve v) = c.graph.labelOf v
  defined : ∀ v ∈ vs, (c'.subst.resolve v).index < c'.graph.values.size
  values_le : c.graph.values.size ≤ c'.graph.values.size
  value? : ∀ v : ValueId, v.index < c.graph.values.size → c'.graph.value? v = c.graph.value? v
  types : c'.graph.types = c.graph.types

namespace Renews

variable {vs vs' : List ValueId} {c c' c₁ c₂ : Copying}

theorem refl (c : Copying) : Renews [] c c where
  resolve _ _ := rfl
  label _ hv := nomatch hv
  defined _ hv := nomatch hv
  values_le := Nat.le_refl _
  value? _ _ := rfl
  types := rfl

theorem congr (h : Renews vs c c') (hvs : ∀ v, v ∈ vs' ↔ v ∈ vs) : Renews vs' c c' where
  resolve v hv := h.resolve v fun hin => hv ((hvs v).2 hin)
  label v hv := h.label v ((hvs v).1 hv)
  defined v hv := h.defined v ((hvs v).1 hv)
  values_le := h.values_le
  value? := h.value?
  types := h.types

theorem labelOf (h : Renews vs c c') {v : ValueId} (hv : v.index < c.graph.values.size) :
    c'.graph.labelOf v = c.graph.labelOf v := by
  rw [Graph.labelOf, Graph.labelOf, h.value? v hv]

/-- Names that are new at first stay as they are while others get new ones. -/
theorem trans (h : Renews vs c c₁) (h' : Renews vs' c₁ c₂)
    (hold : ∀ v ∈ vs', v.index < c.graph.values.size) : Renews (vs ++ vs') c c₂ where
  resolve v hv := by
    rw [List.mem_append, not_or] at hv
    rw [h'.resolve v hv.2, h.resolve v hv.1]
  label v hv := by
    by_cases hvs' : v ∈ vs'
    · rw [h'.label v hvs', h.labelOf (hold v hvs')]
    · have hvs := (List.mem_append.1 hv).resolve_right hvs'
      rw [h'.resolve v hvs', h'.labelOf (h.defined v hvs), h.label v hvs]
  defined v hv := by
    by_cases hvs' : v ∈ vs'
    · exact h'.defined v hvs'
    · have hvs := (List.mem_append.1 hv).resolve_right hvs'
      rw [h'.resolve v hvs']
      exact Nat.lt_of_lt_of_le (h.defined v hvs) h'.values_le
  values_le := Nat.le_trans h.values_le h'.values_le
  value? v hv := (h'.value? v (Nat.lt_of_lt_of_le hv h.values_le)).trans (h.value? v hv)
  types := h'.types.trans h.types

/-- The graph may change in all but its values and types. -/
theorem withGraph (h : Renews vs c c') {g : Graph} (hvalues : g.values = c'.graph.values)
    (htypes : g.types = c'.graph.types) : Renews vs c { c' with graph := g } where
  resolve := h.resolve
  label v hv := by
    have hl := h.label v hv
    rw [Graph.labelOf, Graph.value?] at hl ⊢
    rwa [hvalues]
  defined v hv := hvalues ▸ h.defined v hv
  values_le := hvalues ▸ h.values_le
  value? v hv := by
    have hk := h.value? v hv
    rw [Graph.value?] at hk ⊢
    rwa [hvalues]
  types := htypes.trans h.types

end Renews

/-- What the copy of a node is made from. -/
def headSpec (c : Copying) (head : NodeView) (inputs : List ValueId) (blocks : List BlockId) :
    NodeSpec where
  kind := head.kind
  inputs := inputs
  outputs := head.outputs.map c.graph.labelOf
  attributes := head.attributes
  blocks := blocks

/-- What a copied node looks like: its outputs are new, and later mentions of the old ones are resolved
to them. -/
theorem copyHead_eq (c : Copying) (head : NodeView) (inputs : List ValueId) (blocks : List BlockId) :
    c.copyHead head inputs blocks = (⟨c.graph.nodes.size⟩,
      ⟨(c.graph.allocNode (c.headSpec head inputs blocks)).2,
        c.subst.insertAll head.outputs (c.graph.newOutputs (c.headSpec head inputs blocks))⟩) := by
  have hnew : (c.graph.allocNode (c.headSpec head inputs blocks)).2.outputsOf ⟨c.graph.nodes.size⟩ =
      c.graph.newOutputs (c.headSpec head inputs blocks) := by
    rw [Graph.outputsOf, node?_allocNode, if_pos rfl]
    rfl
  rw [← hnew]
  rfl

/-- The outputs of the copy of a node take the places of the outputs of the node. -/
theorem copyHead_renews (c : Copying) {head : NodeView} (hnodup : head.outputs.Nodup)
    (inputs : List ValueId) (blocks : List BlockId) :
    head.outputs.map (c.copyHead head inputs blocks).2.subst.resolve =
        c.graph.newOutputs (c.headSpec head inputs blocks) ∧
      Renews head.outputs c (c.copyHead head inputs blocks).2 := by
  rw [copyHead_eq]
  set spec := c.headSpec head inputs blocks
  have hlen : spec.outputs.length = head.outputs.length := List.length_map ..
  have hmap : head.outputs.map (c.subst.insertAll head.outputs (c.graph.newOutputs spec)).resolve =
      c.graph.newOutputs spec := by
    refine Renaming.map_resolve_insertAll hnodup ?_
    rw [Graph.newOutputs, List.length_map, List.length_range', hlen]
  -- The copies of the results are the values made last, in order.
  have hget : ∀ i (hi : i < head.outputs.length),
      (c.subst.insertAll head.outputs (c.graph.newOutputs spec)).resolve head.outputs[i] =
        ⟨c.graph.values.size + i⟩ := by
    intro i hi
    have h := congrArg (·[i]?) hmap
    simpa [Graph.newOutputs, hi, hlen] using h
  refine ⟨hmap, fun v hv => Renaming.resolve_insertAll_of_not_mem hv, fun v hv => ?_,
    fun v hv => ?_, ?_, fun v hv => value?_allocNode_of_lt c.graph spec hv, rfl⟩
  · obtain ⟨i, hi, rfl⟩ := List.mem_iff_getElem.1 hv
    rw [hget i hi]
    change (c.graph.allocNode spec).2.labelOf _ = _
    rw [Graph.labelOf, value?_allocNode_output _ _ (hlen ▸ hi)]
    exact List.getElem_map ..
  · obtain ⟨i, hi, rfl⟩ := List.mem_iff_getElem.1 hv
    rw [hget i hi]
    change c.graph.values.size + i < (c.graph.allocNode spec).2.values.size
    rw [size_values_allocNode]
    omega
  · rw [size_values_allocNode]
    exact Nat.le_add_right _ _

/-- Copies of parameters are parameters of the block that was opened for them. -/
theorem copyParams_opened {g₀ : Graph} : ∀ {params made : List ValueId} {c : Copying},
    Opened made g₀ c.graph → params.Nodup → (∀ v ∈ params, v.index < c.graph.values.size) →
    Opened (made ++ params.map (c.copyParams ⟨g₀.blocks.size⟩ params).subst.resolve) g₀
        (c.copyParams ⟨g₀.blocks.size⟩ params).graph ∧
      Renews params c (c.copyParams ⟨g₀.blocks.size⟩ params)
  | [], made, c, h, _, _ => ⟨by simpa [copyParams] using h, Renews.refl c⟩
  | v :: params, made, c, h, hnodup, hold => by
    rw [List.nodup_cons] at hnodup
    rw [List.forall_mem_cons] at hold
    let c₁ : Copying := ⟨(c.graph.allocParam ⟨g₀.blocks.size⟩ (c.graph.labelOf v)).2,
      c.subst.insert v ⟨c.graph.values.size⟩⟩
    have hsize : c₁.graph.values.size = c.graph.values.size + 1 := Array.size_push ..
    have hv : c₁.subst.resolve v = ⟨c.graph.values.size⟩ := by
      rw [Renaming.resolve_insert, if_pos rfl]
    have h₁ : Renews [v] c c₁ := by
      refine ⟨fun w hw => ?_, fun w hw => ?_, fun w hw => ?_, by omega, fun w hw => ?_, rfl⟩
      · rw [Renaming.resolve_insert, if_neg (by simpa using hw)]
      · rw [List.mem_singleton.1 hw, hv, Graph.labelOf, value?_allocParam, if_pos rfl]
      · rw [List.mem_singleton.1 hw, hv, hsize]
        exact Nat.lt_succ_self _
      · rw [value?_allocParam, if_neg fun he => by subst he; simp at hw]
    -- The other parameters are old, so the copy made of `v` is not taken for one of them.
    obtain ⟨hopened, hrenews⟩ := copyParams_opened (c := c₁) (h.allocParam (c.graph.labelOf v))
      hnodup.2 fun w hw => by have := hold.2 w hw; omega
    refine ⟨?_, h₁.trans hrenews hold.2⟩
    rw [List.append_assoc, ← hv, ← hrenews.resolve v hnodup.1] at hopened
    exact hopened

/-! ### Copies of nodes and blocks -/

/-- Nodes have been copied to block `b`. -/
structure CopiesNodes (b : BlockId) (put : List NodeId → List NodeId) (body body' : NodeTrees)
    (c c' : Copying) : Prop where
  grows : Grows b put body' c.graph c'.graph
  same : body'.unnumbered = body.rename (fun _ => ⟨0⟩) (fun _ => ⟨0⟩) c'.subst.resolve
  renews : Renews (NodeTrees.definitions body) c c'

/-- Blocks have been copied. -/
structure CopiesArms (arms arms' : BlockTrees) (c c' : Copying) : Prop where
  grows : GrowsArms arms' c.graph c'.graph
  same : arms'.unnumbered = arms.rename (fun _ => ⟨0⟩) (fun _ => ⟨0⟩) c'.subst.resolve
  renews : Renews (BlockTrees.definitions arms) c c'

section Steps

variable {head : NodeView} {block : BlockView} {body body' rest rest' : NodeTrees}
  {arms arms' more more' : BlockTrees} {c c₁ c₂ : Copying} {b : BlockId}
  {put put' : List NodeId → List NodeId} {visible : List ValueId}

/-- A node has been copied over copies of its blocks, and the copy stands nowhere. -/
structure CopiesNode (body body' : NodeTrees) (c c' : Copying) : Prop where
  grows : GrowsNode body' c.graph c'.graph
  same : body'.unnumbered = body.rename (fun _ => ⟨0⟩) (fun _ => ⟨0⟩) c'.subst.resolve
  renews : Renews (NodeTrees.definitions body) c c'

/-- When its blocks have been copied, the node can be. -/
theorem CopiesArms.copyHead (h : CopiesArms arms arms' c c₁)
    (hwf : (Body.node head arms .done).WellFormed visible)
    (hold : ∀ v ∈ head.outputs, v.index < c.graph.values.size) :
    CopiesNode (.node head arms .done)
      (.node (c₁.graph.newView (c₁.headSpec head (head.inputs.map c.subst.resolve) arms'.headIds))
        arms' .done) c
      (c₁.copyHead head (head.inputs.map c.subst.resolve) arms'.headIds).2 := by
  have hdefs := hwf.definitions
  have hfresh := hwf.fresh
  simp only [NodeTrees.definitions_node, NodeTrees.definitions_done, List.append_nil,
    List.mem_append, not_or, List.nodup_append] at hdefs hfresh
  obtain ⟨hmap, hrenews⟩ := c₁.copyHead_renews hdefs.1 (head.inputs.map c.subst.resolve) arms'.headIds
  have hspec : (c₁.headSpec head (head.inputs.map c.subst.resolve) arms'.headIds).blocks =
      arms'.headIds := rfl
  set c' := (c₁.copyHead head (head.inputs.map c.subst.resolve) arms'.headIds).2 with hc'
  have hgraph : c'.graph =
      (c₁.graph.allocNode (c₁.headSpec head (head.inputs.map c.subst.resolve) arms'.headIds)).2 := by
    rw [hc', copyHead_eq]
  -- The outputs are renewed after the blocks were copied, and the blocks do not mention them.
  refine ⟨hgraph ▸ h.grows.allocNode hspec, ?_, ?_⟩
  · have harms : arms'.unnumbered =
        arms.rename (fun _ => ⟨0⟩) (fun _ => ⟨0⟩) c'.subst.resolve := by
      rw [h.same]
      refine Arms.rename_congr (fun v hv => (hrenews.resolve v fun ho => ?_).symm) fun v hv =>
        (hrenews.resolve v fun ho => hdefs.2.2 v ho v hv rfl).symm
      rcases hwf.inside.scope.mem_of_mentions hv with hv | hv
      · exact (hfresh v hv).1 ho
      · exact hdefs.2.2 v ho v hv rfl
    have hinputs : head.inputs.map c.subst.resolve = head.inputs.map c'.subst.resolve := by
      refine List.map_congr_left fun v hv => ?_
      have hv := hfresh v (hwf.scope.1 hv)
      rw [hrenews.resolve v hv.1, h.renews.resolve v hv.2]
    have hview : (c₁.graph.newView (c₁.headSpec head (head.inputs.map c.subst.resolve)
        arms'.headIds)).rename (fun _ => ⟨0⟩) (fun v => v) =
        head.rename (fun _ => ⟨0⟩) c'.subst.resolve := by
      rw [NodeView.rename, NodeView.rename, newView, List.map_id', List.map_id', ← hmap, ← hinputs]
      rfl
    rw [Arms.unnumbered] at harms
    rw [Body.unnumbered, Body.rename_node, Body.rename_node, harms, hview]
    rfl
  · refine (h.renews.trans hrenews hold).congr fun v => ?_
    simp [or_comm]

theorem CopiesArms.node {g : Graph} (h : CopiesArms arms arms' c c₁)
    (hwf : (Body.node head arms .done).WellFormed visible)
    (hold : ∀ v ∈ head.outputs, v.index < c.graph.values.size) (hb : b.index < c.graph.blocks.size)
    (hplaced : Placed b ⟨c₁.graph.nodes.size⟩ put
      (c₁.copyHead head (head.inputs.map c.subst.resolve) arms'.headIds).2.graph g) :
    CopiesNodes b put (.node head arms .done)
      (.node (c₁.graph.newView (c₁.headSpec head (head.inputs.map c.subst.resolve) arms'.headIds))
        arms' .done) c
      ⟨g, (c₁.copyHead head (head.inputs.map c.subst.resolve) arms'.headIds).2.subst⟩ := by
  obtain ⟨hgrows, hsame, hrenews⟩ := h.copyHead hwf hold
  exact ⟨hgrows.place hb hplaced, hsame, hrenews.withGraph hplaced.values hplaced.types⟩

/-- A node and then the nodes after it. -/
theorem CopiesNodes.trans (h : CopiesNodes b put (.node head arms .done) body' c c₁)
    (h' : CopiesNodes b put' rest rest' c₁ c₂) (hwf : (Body.node head arms rest).WellFormed visible)
    (hold : ∀ v ∈ NodeTrees.definitions rest, v.index < c.graph.values.size)
    (hb : b.index < c.graph.blocks.size) :
    CopiesNodes b (fun l => put' (put l)) (.node head arms rest) (body' ++ rest') c c₂ where
  grows := h.grows.trans h'.grows hb
  same := by
    have hfirst : body'.unnumbered = (Body.node head arms .done).rename (fun _ => ⟨0⟩)
        (fun _ => ⟨0⟩) c₂.subst.resolve := by
      rw [h.same]
      exact Body.rename_congr (fun v hv => (h'.renews.resolve v (hwf.not_mem_after (Or.inl hv))).symm)
        fun v hv => (h'.renews.resolve v (hwf.not_mem_after (Or.inr hv))).symm
    have hsplit : Body.node head arms rest = .node head arms .done ++ rest := rfl
    have hrest := h'.same
    rw [Body.unnumbered] at hfirst hrest
    rw [Body.unnumbered, Body.rename_append, hfirst, hrest, hsplit, Body.rename_append]
  renews := by
    refine (h.renews.trans h'.renews hold).congr fun v => ?_
    simp

/-- A copied body with new parameters and resolved returns is a copied block. -/
theorem CopiesNodes.arm {params : List ValueId} (hopened : Opened params c.graph c₁.graph)
    (hparams : params = block.params.map c₁.subst.resolve) (hrenews : Renews block.params c c₁)
    (h : CopiesNodes ⟨c.graph.blocks.size⟩ put body body' c₁ c₂) (hput : put [] = body'.headIds)
    (hwf : (Arms.arm block body .done).WellFormed visible)
    (hold : ∀ v ∈ NodeTrees.definitions body, v.index < c.graph.values.size) :
    CopiesArms (.arm block body .done)
      (.arm ⟨⟨c.graph.blocks.size⟩, params, block.returns.map c₂.subst.resolve⟩ body' .done) c
      ⟨c₂.graph.assignReturns ⟨c.graph.blocks.size⟩ (block.returns.map c₂.subst.resolve),
        c₂.subst⟩ where
  grows := Grows.arm hopened h.grows hput _
  same := by
    have hdefs := hwf.definitions
    simp only [BlockTrees.definitions_arm, BlockTrees.definitions_done, List.append_nil,
      List.nodup_append] at hdefs
    -- Copying the nodes renames only what they define, so the parameters keep their copies.
    have hparams : params = block.params.map c₂.subst.resolve := by
      rw [hparams]
      exact List.map_congr_left fun v hv =>
        (h.renews.resolve v fun hd => hdefs.2.2 v hv v hd rfl).symm
    have hbody := h.same
    rw [Body.unnumbered] at hbody
    rw [Arms.unnumbered, Arms.rename_arm, Arms.rename_arm, hbody, hparams]
    simp [BlockView.rename]
  renews := by
    refine ((hrenews.trans h.renews hold).withGraph ?_ ?_).congr fun v => ?_
    · exact values_assignReturns ..
    · exact types_assignReturns ..
    · simp

/-- Copies of blocks come one after another, each with names of its own. -/
theorem CopiesArms.append {block' : BlockView} (h : CopiesArms (.arm block body .done)
      (.arm block' body' .done) c c₁) (h' : CopiesArms more more' c₁ c₂)
    (hwf : (Arms.arm block body more).WellFormed visible)
    (hold : ∀ v ∈ BlockTrees.definitions more, v.index < c.graph.values.size) :
    CopiesArms (.arm block body more) (.arm block' body' more') c c₂ where
  grows := h.grows.append h'.grows
  same := by
    have hfirst : (Arms.arm block' body' .done).unnumbered = (Arms.arm block body .done).rename
        (fun _ => ⟨0⟩) (fun _ => ⟨0⟩) c₂.subst.resolve := by
      rw [h.same]
      exact Arms.rename_congr (fun v hv => (h'.renews.resolve v (hwf.not_mem_after (Or.inl hv))).symm)
        fun v hv => (h'.renews.resolve v (hwf.not_mem_after (Or.inr hv))).symm
    have hmore := h'.same
    rw [Arms.unnumbered] at hfirst hmore ⊢
    simp only [Arms.rename_arm, Arms.arm.injEq] at hfirst ⊢
    exact ⟨hfirst.1, hfirst.2.1, hmore⟩
  renews := by
    refine (h.renews.trans h'.renews hold).congr fun v => ?_
    simp

end Steps

/-! ### Copying -/

mutual

/-- Copying nodes gives a tree like the one that is copied, over new numbers. By induction along the
tree. -/
theorem copyNodes_copies : ∀ {body : NodeTrees} {c : Copying} {b : BlockId}
    {visible : List ValueId}, body.WellFormed visible → b.index < c.graph.blocks.size →
    (∀ v ∈ NodeTrees.definitions body, v.index < c.graph.values.size) →
    ∃ body', CopiesNodes b (· ++ body'.headIds) body body' c (c.copyNodes b body)
  | .done, c, b, _, _, _, _ =>
    ⟨.done, ⟨by simpa [copyNodes] using Grows.done c.graph b, rfl, Renews.refl c⟩⟩
  | .node head arms rest, c, b, visible, hwf, hb, hold => by
    simp only [NodeTrees.definitions_node, List.mem_append] at hold
    obtain ⟨arms', harms, hblocks⟩ := copyArms_copies (c := c) hwf.inside fun v hv =>
      hold v (Or.inr (Or.inl hv))
    set c₁ := (c.copyArms arms).2
    set c₂ := (c₁.copyHead head (head.inputs.map c.subst.resolve) arms'.headIds).2 with hc₂
    have hnode := harms.node hwf.single (fun v hv => hold v (Or.inl hv)) hb
      (placed_attachLast c₂.graph b ⟨c₁.graph.nodes.size⟩)
    -- The rest is copied under the renaming that the first node has extended.
    obtain ⟨rest', hrest⟩ := copyNodes_copies
      (c := ⟨c₂.graph.attachLast b ⟨c₁.graph.nodes.size⟩, c₂.subst⟩) (b := b) hwf.after
      (Nat.lt_of_lt_of_le hb hnode.grows.extension.blocks_le) fun v hv =>
        Nat.lt_of_lt_of_le (hold v (Or.inr (Or.inr hv))) hnode.renews.values_le
    have hstep : c.copyNodes b (.node head arms rest) =
        copyNodes ⟨c₂.graph.attachLast b ⟨c₁.graph.nodes.size⟩, c₂.subst⟩ b rest := by
      rw [hc₂, ← hblocks]
      rfl
    have hall := hnode.trans hrest hwf (fun v hv => hold v (Or.inr (Or.inr hv))) hb
    simp only [List.append_assoc] at hall
    rw [hstep]
    exact ⟨Body.node (c₁.graph.newView (c₁.headSpec head (head.inputs.map c.subst.resolve)
      arms'.headIds)) arms' rest', hall⟩

/-- The same for blocks; the blocks of a node are copied before the node itself. -/
theorem copyArms_copies : ∀ {arms : BlockTrees} {c : Copying} {visible : List ValueId},
    arms.WellFormed visible →
    (∀ v ∈ BlockTrees.definitions arms, v.index < c.graph.values.size) →
    ∃ arms', CopiesArms arms arms' c (c.copyArms arms).2 ∧ (c.copyArms arms).1 = arms'.headIds
  | .done, c, _, _, _ => ⟨.done, ⟨GrowsArms.done c.graph, rfl, Renews.refl c⟩, rfl⟩
  | .arm block body more, c, visible, hwf, hold => by
    simp only [BlockTrees.definitions_arm, List.mem_append] at hold
    have hdefs := hwf.definitions
    rw [BlockTrees.definitions_arm, List.nodup_append] at hdefs
    -- The new block is open while its parameters and its nodes are copied into it.
    obtain ⟨hopened, hrenews⟩ := copyParams_opened (c := ⟨c.graph.newBlock.2, c.subst⟩)
      (opened_newBlock c.graph) hdefs.1 fun v hv => hold v (Or.inl hv)
    rw [List.nil_append] at hopened
    set c₁ := copyParams ⟨c.graph.newBlock.2, c.subst⟩ ⟨c.graph.blocks.size⟩ block.params
    obtain ⟨body', hbody⟩ := copyNodes_copies (c := c₁) (b := ⟨c.graph.blocks.size⟩) hwf.inside
      hopened.index_lt fun v hv =>
        Nat.lt_of_lt_of_le (hold v (Or.inr (Or.inl hv))) hrenews.values_le
    set c₂ := c₁.copyNodes ⟨c.graph.blocks.size⟩ body
    have hrenews : Renews block.params c c₁ := ⟨hrenews.resolve, hrenews.label, hrenews.defined,
      hrenews.values_le, hrenews.value?, hrenews.types⟩
    have harm := CopiesNodes.arm hopened rfl hrenews hbody (List.nil_append _) hwf.single
      fun v hv => hold v (Or.inr (Or.inl hv))
    -- What the block returns is resolved at its end, and only then come the other blocks.
    obtain ⟨more', hmore, hblocks⟩ := copyArms_copies
      (c := ⟨c₂.graph.assignReturns ⟨c.graph.blocks.size⟩ (block.returns.map c₂.subst.resolve),
        c₂.subst⟩) hwf.after fun v hv =>
        Nat.lt_of_lt_of_le (hold v (Or.inr (Or.inr hv))) harm.renews.values_le
    exact ⟨_, harm.append hmore hwf fun v hv => hold v (Or.inr (Or.inr hv)),
      congrArg (List.cons (BlockId.mk c.graph.blocks.size)) hblocks⟩

end

end Copying

end Unguard
