import Unguard.Proofs.Relabeling
import Unguard.Proofs.Conditionals
import Unguard.Proofs.Typing
import Unguard.Text.Outline

/-!
# The text of a tree

A graph is written by way of its tree.  `Graph.textOf g t` is the text of the tree `t`, where the types
of values are those they have in `g`.  The graph's own text is that of the tree it represents
(`Represents.text_eq`).  Values are written by their place, so other numbers do not change a text
(`textOf_relabel`).
-/

namespace Unguard

/-! ### Traversals -/

section Traverse

variable {ε α β γ : Type}

theorem traverse_map (f : β → Except ε γ) (e : α → β) : ∀ as : List α,
    traverse f (as.map e) = traverse (fun a => f (e a)) as
  | [] => rfl
  | a :: as => by
    rw [List.map_cons, traverse, traverse, traverse_map f e as]

theorem traverse_congr {f f' : α → Except ε β} : ∀ {as : List α}, (∀ a ∈ as, f a = f' a) →
    traverse f as = traverse f' as
  | [], _ => rfl
  | a :: as, h => by
    rw [List.forall_mem_cons] at h
    rw [traverse, traverse, h.1, traverse_congr h.2]

variable {ν β' ν' β'' : Type}

mutual

/-- Traversing trees whose data give the same results. -/
theorem Body.traverse_map_congr {f : ν → Except ε γ} {k : β → Except ε β''} {e : NodeView → ν}
    {l : BlockView → β} {f' : NodeView → Except ε γ} {k' : BlockView → Except ε β''} :
    ∀ {body : NodeTrees}, (∀ x ∈ body.nodes, f (e x) = f' x) →
    (∀ b ∈ body.blocks, k (l b) = k' b) → (body.map e l).traverse f k = body.traverse f' k'
  | .done, _, _ => rfl
  | .node head arms rest, hf, hk => by
    simp only [Body.nodes, Body.blocks, List.forall_mem_cons, List.forall_mem_append] at hf hk
    rw [Body.map, Body.traverse, Body.traverse, hf.1, Arms.traverse_map_congr hf.2.1 hk.1,
      Body.traverse_map_congr hf.2.2 hk.2]

@[inherit_doc Body.traverse_map_congr]
theorem Arms.traverse_map_congr {f : ν → Except ε γ} {k : β → Except ε β''} {e : NodeView → ν}
    {l : BlockView → β} {f' : NodeView → Except ε γ} {k' : BlockView → Except ε β''} :
    ∀ {arms : BlockTrees}, (∀ x ∈ arms.nodes, f (e x) = f' x) →
    (∀ b ∈ arms.blocks, k (l b) = k' b) → (arms.map e l).traverse f k = arms.traverse f' k'
  | .done, _, _ => rfl
  | .arm head body rest, hf, hk => by
    simp only [Arms.nodes, Arms.blocks, List.forall_mem_cons, List.forall_mem_append] at hf hk
    rw [Arms.map, Arms.traverse, Arms.traverse, hk.1, Body.traverse_map_congr hf.1 hk.2.1,
      Arms.traverse_map_congr hf.2 hk.2.2]

end

mutual

/-- A traversal that can fail only at a node or at a block goes through if it fails at none. -/
theorem Body.traverse_ok_of_forall {f : ν → Except ε ν'} {k : β → Except ε β'} :
    ∀ {body : Body ν β}, (∀ x ∈ body.nodes, ∃ y, f x = .ok y) →
    (∀ b ∈ body.blocks, ∃ c, k b = .ok c) → ∃ body', body.traverse f k = .ok body'
  | .done, _, _ => ⟨_, rfl⟩
  | .node head arms rest, hf, hk => by
    simp only [Body.nodes, Body.blocks, List.forall_mem_cons, List.forall_mem_append] at hf hk
    obtain ⟨y, hy⟩ := hf.1
    obtain ⟨arms', harms⟩ := Arms.traverse_ok_of_forall hf.2.1 hk.1
    obtain ⟨rest', hrest⟩ := Body.traverse_ok_of_forall hf.2.2 hk.2
    exact ⟨.node y arms' rest', by rw [Body.traverse, hy, ok_bind, harms, ok_bind, hrest]; rfl⟩

theorem Arms.traverse_ok_of_forall {f : ν → Except ε ν'} {k : β → Except ε β'} :
    ∀ {arms : Arms ν β}, (∀ x ∈ arms.nodes, ∃ y, f x = .ok y) →
    (∀ b ∈ arms.blocks, ∃ c, k b = .ok c) → ∃ arms', arms.traverse f k = .ok arms'
  | .done, _, _ => ⟨_, rfl⟩
  | .arm head body rest, hf, hk => by
    simp only [Arms.nodes, Arms.blocks, List.forall_mem_cons, List.forall_mem_append] at hf hk
    obtain ⟨c, hc⟩ := hk.1
    obtain ⟨body', hbody⟩ := Body.traverse_ok_of_forall hf.1 hk.2.1
    obtain ⟨rest', hrest⟩ := Arms.traverse_ok_of_forall hf.2 hk.2.2
    exact ⟨.arm c body' rest', by rw [Arms.traverse, hc, ok_bind, hbody, ok_bind, hrest]; rfl⟩

end

end Traverse

/-- In a tree of the right shape, what is written without its blocks has none. -/
theorem Arms.Shaped.eq_done_of_writesBlocks {arms : BlockTrees} (h : arms.Shaped)
    {p : NodeView × BlockTrees} (hp : p ∈ arms.subtrees) {place : Option BlockId}
    (hwrites : Graph.writesBlocks (p.1.entry p.2.headIds place) = false) : p.2 = .done := by
  have hkind : p.1.kind ≠ .conditional := of_decide_eq_false hwrites
  have hnone := h p hp
  simp only [if_neg hkind] at hnone
  cases harms : p.2 with
  | done => rfl
  | arm head body rest =>
    rw [harms] at hnone
    exact absurd hnone (List.cons_ne_nil _ _)

namespace Graph

open Text

/-- The text of a tree whose values have the types they have in the graph. -/
def textOf (g : Graph) (t : BlockTree) : Except Fault String := do
  let draft ← outlineGraph g t.definitions t
  return draft.text

/-- The draft of a graph is the outline of its tree. No block is left out, since only conditionals have
blocks. -/
theorem Represents.draft_eq {g : Graph} {t : BlockTree} (h : g.Represents t)
    (hshape : t.toArms.Shaped) : g.draft = outlineGraph g t.definitions t := by
  have hwritten : g.writtenBlock Graph.top = .ok t :=
    h.unfoldBlock_top fun p hp place => hshape.eq_done_of_writesBlocks hp
  rw [draft, numbering, h.tree_eq, ok_bind, pure_eq_ok, ok_bind, hwritten, ok_bind]

theorem Represents.text_eq {g : Graph} {t : BlockTree} (h : g.Represents t)
    (hshape : t.toArms.Shaped) : g.text = g.textOf t := by
  rw [text, h.draft_eq hshape, textOf]

/-! ### Other numbers -/

/-- The number of a value is its position in the order, which does not depend on what values there are. -/
theorem numbered_map {π : Equiv.Perm ValueId} (order : List ValueId) (v : ValueId) :
    numbered (order.map π) (π v) = numbered order v := by
  have hidx : (order.map π).idxOf? (π v) = order.idxOf? v := by
    rw [List.idxOf?, List.idxOf?, List.findIdx?_map]
    congr 1
    funext w
    simp [Function.comp]
  rw [numbered, numbered, hidx]

/-- The type of a value that exists is that of its label. -/
theorem typeOf_eq {g : Graph} {v : ValueId} (h : v.index < g.values.size) :
    g.typeOf v = g.types.expand (g.labelOf v).ty := by
  obtain ⟨value, hvalue⟩ := g.exists_value? h
  rw [typeOf, labelOf, hvalue, (g.value_eq_ok_iff).2 hvalue, ok_bind]

section Relabel

variable {g g' : Graph} {π : Relabeling} {order : List ValueId}

theorem outlineParams_relabel {params : List ValueId}
    (htype : ∀ v ∈ params, g'.typeOf (π.values v) = g.typeOf v) :
    outlineParams g' (order.map π.values) (params.map π.values) = outlineParams g order params := by
  rw [outlineParams, outlineParams, traverse_map]
  refine traverse_congr fun v hv => ?_
  rw [htype v hv, numbered_map]

theorem map_numbered_relabel (vs : List ValueId) :
    (vs.map π.values).map (numbered (order.map π.values)) = vs.map (numbered order) := by
  rw [List.map_map]
  exact List.map_congr_left fun v _ => numbered_map order v

/-- A node with other numbers has the same draft. -/
theorem outlineNode_relabel {x : NodeView} (htypes : g'.types = g.types)
    (htype : ∀ v ∈ x.outputs, g'.typeOf (π.values v) = g.typeOf v) :
    outlineNode g' (order.map π.values) (x.rename π.nodes π.values) = outlineNode g order x := by
  have houtputs : traverse g'.typeOf (x.outputs.map π.values) = traverse g.typeOf x.outputs := by
    rw [traverse_map]
    exact traverse_congr htype
  simp only [outlineNode, NodeView.rename, htypes, houtputs, map_numbered_relabel]

theorem outlineBlock_relabel {b : BlockView}
    (htype : ∀ v ∈ b.params, g'.typeOf (π.values v) = g.typeOf v) :
    outlineBlock g' (order.map π.values) (b.rename π.blocks π.values) = outlineBlock g order b := by
  simp only [outlineBlock, BlockView.rename, outlineParams_relabel htype, map_numbered_relabel]

/-- A tree under other numbers has the same text, where the types are the same. -/
theorem textOf_relabel {t : BlockTree} (htypes : g'.types = g.types)
    (htype : ∀ v ∈ BlockTrees.definitions t.toArms, g'.typeOf (π.values v) = g.typeOf v) :
    g'.textOf (t.relabel π) = g.textOf t := by
  -- The numbers go by the place in the definitions, so a renaming of these leaves every number.
  have hdefs : (t.relabel π).definitions = t.definitions.map π.values := by
    rw [BlockTree.definitions, BlockTree.definitions, List.map_append, BlockTree.relabel,
      Body.relabel, Body.definitions_rename]
    rfl
  have hmem : ∀ v, v ∈ t.head.params ∨ v ∈ NodeTrees.definitions t.body →
      g'.typeOf (π.values v) = g.typeOf v := fun v hv => htype v (by
    rw [BlockTree.toArms, BlockTrees.definitions_arm, BlockTrees.definitions_done, List.append_nil]
    exact List.mem_append.2 hv)
  have hparams : outlineParams g' (t.definitions.map π.values) (t.relabel π).head.params =
      outlineParams g t.definitions t.head.params :=
    outlineParams_relabel fun v hv => hmem v (Or.inl hv)
  have hbody : outlineNodes g' (t.definitions.map π.values) (t.relabel π).body =
      outlineNodes g t.definitions t.body := by
    refine Body.traverse_map_congr (fun x hx => ?_) fun b hb => ?_
    · refine outlineNode_relabel htypes fun v hv => hmem v (Or.inr ?_)
      rw [NodeTrees.definitions_eq_collect]
      exact Body.mem_collect.2 (Or.inl ⟨x, hx, hv⟩)
    · refine outlineBlock_relabel fun v hv => hmem v (Or.inr ?_)
      rw [NodeTrees.definitions_eq_collect]
      exact Body.mem_collect.2 (Or.inr ⟨b, hb, hv⟩)
  have hreturns : (t.relabel π).head.returns.map (numbered (t.definitions.map π.values)) =
      t.head.returns.map (numbered t.definitions) := map_numbered_relabel _
  rw [textOf, textOf, hdefs, outlineGraph, outlineGraph, hparams, hbody, hreturns]

end Relabel

/-! ### Trees that can be written -/

mutual

/-- An attribute whose types are in the table can be written. -/
theorem outlineAttribute_ok {t : TypeTable} (ht : t.Closed) : ∀ {a : Attribute}, a.Within t.size →
    ∃ l, outlineAttribute t a = .ok l
  | .unit, _ | .bool _, _ | .int _, _ | .float _, _ | .string _, _ => ⟨_, rfl⟩
  | .type ty, h => by
    obtain ⟨tree, htree⟩ := ht.expand_ok h
    exact ⟨.type tree, by rw [outlineAttribute, htree]; rfl⟩
  | .list items, h => by
    obtain ⟨ls, hls⟩ := outlineAttributes_ok ht h
    exact ⟨.list ls, by rw [outlineAttribute, hls]; rfl⟩

theorem outlineAttributes_ok {t : TypeTable} (ht : t.Closed) : ∀ {as : List Attribute},
    Attribute.AllWithin t.size as → ∃ ls, outlineAttributes t as = .ok ls
  | [], _ => ⟨[], rfl⟩
  | a :: as, ⟨h, hs⟩ => by
    obtain ⟨l, hl⟩ := outlineAttribute_ok ht h
    obtain ⟨ls, hls⟩ := outlineAttributes_ok ht hs
    exact ⟨l :: ls, by rw [outlineAttributes, hl, ok_bind, hls]; rfl⟩

end

namespace Typed

variable {g : Graph} {order : List ValueId}

/-- Every value of a typed graph has a type. -/
theorem typeOf_ok (h : g.Typed) {v : ValueId} (hv : v.index < g.values.size) :
    ∃ tree, g.typeOf v = .ok tree := by
  obtain ⟨value, hvalue⟩ := g.exists_value? hv
  rw [typeOf, (g.value_eq_ok_iff).2 hvalue, ok_bind]
  exact h.closed.expand_ok (h.label v value hvalue)

theorem outlineParams_ok (h : g.Typed) (order params : List ValueId)
    (hparams : ∀ v ∈ params, v.index < g.values.size) :
    ∃ drafts, outlineParams g order params = .ok drafts := by
  refine traverse_ok_of_forall fun v hv => ?_
  obtain ⟨tree, htree⟩ := h.typeOf_ok (hparams v hv)
  exact ⟨(numbered order v, tree), by rw [htree]; rfl⟩

/-- So every node of it can be written. -/
theorem outlineNode_ok (h : g.Typed) {x : NodeView}
    (houtputs : ∀ v ∈ x.outputs, v.index < g.values.size)
    (hattributes : x.attributes.Within g.types.size) :
    ∃ draft, outlineNode g order x = .ok draft := by
  obtain ⟨attributes, hattrs⟩ : ∃ entries, traverse (fun e => do
      let value ← outlineAttribute g.types e.2
      return (e.1, value)) x.attributes.toList = .ok entries := by
    refine traverse_ok_of_forall fun e he => ?_
    obtain ⟨l, hl⟩ := outlineAttribute_ok h.closed (hattributes e he)
    exact ⟨(e.1, l), by rw [hl]; rfl⟩
  obtain ⟨types, htypes⟩ := traverse_ok_of_forall fun v hv => h.typeOf_ok (houtputs v hv)
  rw [outlineNode, hattrs, ok_bind, htypes]
  exact ⟨_, rfl⟩

/-- A tree of which the values exist and the attributes name existing types can be written. -/
theorem textOf_ok (h : g.Typed) {t : BlockTree}
    (hdefined : ∀ v ∈ BlockTrees.definitions t.toArms, v.index < g.values.size)
    (hattributes : ∀ x ∈ t.toArms.nodes, x.attributes.Within g.types.size) :
    ∃ s, g.textOf t = .ok s := by
  rw [BlockTrees.definitions_eq_collect] at hdefined
  obtain ⟨params, hparams⟩ := h.outlineParams_ok t.definitions t.head.params
    fun v hv => hdefined v (Arms.mem_collect.2 (Or.inr ⟨t.head, List.mem_cons_self, hv⟩))
  obtain ⟨body, hbody⟩ : ∃ body, outlineNodes g t.definitions t.body = .ok body := by
    refine Body.traverse_ok_of_forall (fun x hx => ?_) fun b hb => ?_
    · have hx : x ∈ t.toArms.nodes := List.mem_append_left _ hx
      exact h.outlineNode_ok (fun v hv => hdefined v (Arms.mem_collect.2 (Or.inl ⟨x, hx, hv⟩)))
        (hattributes x hx)
    · have hb : b ∈ t.toArms.blocks := List.mem_cons_of_mem _ (List.mem_append_left _ hb)
      obtain ⟨drafts, hdrafts⟩ := h.outlineParams_ok t.definitions b.params
        fun v hv => hdefined v (Arms.mem_collect.2 (Or.inr ⟨b, hb, hv⟩))
      rw [outlineBlock, hdrafts]
      exact ⟨_, rfl⟩
  rw [textOf, outlineGraph, hparams, ok_bind, hbody]
  exact ⟨_, rfl⟩

/-- The attributes of the nodes of a graph name types of its table only. -/
theorem within_of_represents (h : g.Typed) {t : BlockTree} (hg : g.Represents t) {x : NodeView}
    (hx : x ∈ t.toArms.nodes) : x.attributes.Within g.types.size := by
  obtain ⟨arms, hmem⟩ := Arms.mem_nodes.1 hx
  obtain ⟨b, block, hnode, -⟩ := hg.parent hmem
  exact h.attributes _ _ hnode

end Typed

end Graph

end Unguard
