import Unguard.Proofs.Trees

/-!
# Scopes of trees

A slot may hold the parameters of the blocks around it and the outputs of the nodes that stand before
it in these blocks.  `Body.Scoped visible` says so of all slots of some nodes, where `visible` is what
the first of them sees.

Slots may be renamed by any substitution that stays within what is visible (`Body.Scoped.subst`).  A
tree is well formed (`Arms.WellFormed`) if besides everything in it has a number of its own, and then
so is each of its parts.
-/

namespace Unguard

mutual

/-- Every slot of the nodes holds a value that is seen there, where `visible` is what the first node
sees. -/
def Body.Scoped (visible : List ValueId) : NodeTrees → Prop
  | .done => True
  | .node head arms rest =>
    head.inputs ⊆ visible ∧ arms.Scoped visible ∧ rest.Scoped (head.outputs ++ visible)

/-- The same for blocks: a block sees its parameters besides `visible`. -/
def Arms.Scoped (visible : List ValueId) : BlockTrees → Prop
  | .done => True
  | .arm head body rest =>
    body.Scoped (head.params ++ visible) ∧
      head.returns ⊆ body.outputs ++ (head.params ++ visible) ∧ rest.Scoped visible

end

/-- What nodes define at the outermost level is part of what they define. -/
theorem Body.outputs_subset_definitions {body : NodeTrees} :
    body.outputs ⊆ NodeTrees.definitions body := by
  cases body with
  | done => exact List.Subset.refl _
  | node head arms rest =>
    rw [Body.outputs_node, NodeTrees.definitions_node]
    refine List.append_subset.2 ⟨List.subset_append_left _ _, ?_⟩
    refine List.Subset.trans Body.outputs_subset_definitions ?_
    exact List.Subset.trans (List.subset_append_right _ _) (List.subset_append_right _ _)

/-- What is seen after a node and those that follow it is seen after those that follow it. -/
theorem Body.mem_outputs_node {head : NodeView} {arms : BlockTrees} {rest : NodeTrees}
    {visible : List ValueId} {v : ValueId} : v ∈ (Body.node head arms rest).outputs ++ visible ↔
      v ∈ rest.outputs ++ (head.outputs ++ visible) := by
  simp only [Body.outputs_node, List.mem_append]
  tauto

theorem Body.outputs_append (a b : NodeTrees) : (a ++ b).outputs = a.outputs ++ b.outputs := by
  rw [outputs, Body.heads_append, List.flatMap_append]
  rfl

theorem Body.outputs_subst (σ : ValueId → ValueId) (body : NodeTrees) :
    (body.subst σ).outputs = body.outputs := by
  rw [outputs, subst, Body.heads_map, List.flatMap_map]
  rfl

/-! ### Slots see what is visible or defined inside -/

mutual

/-- What is mentioned was visible before or is defined inside. -/
theorem Body.Scoped.mem_of_mentions : ∀ {body : NodeTrees} {visible : List ValueId} {v : ValueId},
    body.Scoped visible → v ∈ body.mentions → v ∈ visible ∨ v ∈ NodeTrees.definitions body
  | .node head arms rest, visible, v, ⟨hinputs, harms, hrest⟩, h => by
    rw [Body.mentions_node, List.mem_append, List.mem_append] at h
    rw [NodeTrees.definitions_node, List.mem_append, List.mem_append]
    rcases h with h | h | h
    · exact Or.inl (hinputs h)
    · exact (harms.mem_of_mentions h).imp_right fun h => Or.inr (Or.inl h)
    · rcases hrest.mem_of_mentions h with h | h
      · exact (List.mem_append.1 h).elim (fun h => Or.inr (Or.inl h)) Or.inl
      · exact Or.inr (Or.inr (Or.inr h))

theorem Arms.Scoped.mem_of_mentions : ∀ {arms : BlockTrees} {visible : List ValueId} {v : ValueId},
    arms.Scoped visible → v ∈ arms.mentions → v ∈ visible ∨ v ∈ BlockTrees.definitions arms
  | .arm head body rest, visible, v, ⟨hbody, hreturns, hrest⟩, h => by
    rw [Arms.mentions_arm, List.mem_append, List.mem_append] at h
    rw [BlockTrees.definitions_arm, List.mem_append, List.mem_append]
    have hparams : v ∈ head.params ++ visible → v ∈ visible ∨ v ∈ head.params ∨
        v ∈ NodeTrees.definitions body ∨ v ∈ BlockTrees.definitions rest := fun h =>
      (List.mem_append.1 h).elim (fun h => Or.inr (Or.inl h)) Or.inl
    rcases h with h | h | h
    · rcases List.mem_append.1 (hreturns h) with h | h
      · exact Or.inr (Or.inr (Or.inl (Body.outputs_subset_definitions h)))
      · exact hparams h
    · rcases hbody.mem_of_mentions h with h | h
      · exact hparams h
      · exact Or.inr (Or.inr (Or.inl h))
    · exact (hrest.mem_of_mentions h).imp_right fun h => Or.inr (Or.inr h)

end

/-- A substitution that leaves all names alone that occur changes nothing. -/
theorem Body.Scoped.subst_eq_self {body : NodeTrees} {visible : List ValueId} {σ : ValueId → ValueId}
    (h : body.Scoped visible) (hvis : ∀ v ∈ visible, σ v = v)
    (hdef : ∀ v ∈ NodeTrees.definitions body, σ v = v) : body.subst σ = body :=
  Body.subst_eq_self fun v hv => (h.mem_of_mentions hv).elim (hvis v) (hdef v)

theorem Arms.Scoped.subst_eq_self {arms : BlockTrees} {visible : List ValueId} {σ : ValueId → ValueId}
    (h : arms.Scoped visible) (hvis : ∀ v ∈ visible, σ v = v)
    (hdef : ∀ v ∈ BlockTrees.definitions arms, σ v = v) : arms.subst σ = arms :=
  Arms.subst_eq_self fun v hv => (h.mem_of_mentions hv).elim (hvis v) (hdef v)

/-! ### Substitution within what is visible -/

mutual

/-- A substitution may change what is visible from outside, as long as the new names are visible. -/
theorem Body.Scoped.subst {σ : ValueId → ValueId} : ∀ {body : NodeTrees}
    {visible visible' : List ValueId}, body.Scoped visible →
    (∀ v ∈ visible, v ∈ body.mentions → σ v ∈ visible') →
    (∀ v ∈ NodeTrees.definitions body, σ v = v) → (body.subst σ).Scoped visible'
  | .done, _, _, _, _, _ => trivial
  | .node head arms rest, visible, visible', ⟨hinputs, harms, hrest⟩, hvis, hdef => by
    simp only [Body.mentions_node, NodeTrees.definitions_node, List.mem_append] at hvis hdef
    refine ⟨?_, ?_, ?_⟩
    · intro w hw
      obtain ⟨v, hv, rfl⟩ := List.mem_map.1 hw
      exact hvis v (hinputs hv) (Or.inl hv)
    · exact harms.subst (fun v hv hm => hvis v hv (Or.inr (Or.inl hm)))
        fun v hv => hdef v (Or.inr (Or.inl hv))
    · refine hrest.subst (fun v hv hm => ?_) fun v hv => hdef v (Or.inr (Or.inr hv))
      rcases List.mem_append.1 hv with hv | hv
      · rw [hdef v (Or.inl hv)]
        exact List.mem_append_left _ hv
      · exact List.mem_append_right _ (hvis v hv (Or.inr (Or.inr hm)))

theorem Arms.Scoped.subst {σ : ValueId → ValueId} : ∀ {arms : BlockTrees}
    {visible visible' : List ValueId}, arms.Scoped visible →
    (∀ v ∈ visible, v ∈ arms.mentions → σ v ∈ visible') →
    (∀ v ∈ BlockTrees.definitions arms, σ v = v) → (arms.subst σ).Scoped visible'
  | .done, _, _, _, _, _ => trivial
  | .arm head body rest, visible, visible', ⟨hbody, hreturns, hrest⟩, hvis, hdef => by
    simp only [Arms.mentions_arm, BlockTrees.definitions_arm, List.mem_append] at hvis hdef
    -- The parameters are definitions, which the substitution leaves alone.
    have hparams : ∀ v ∈ head.params ++ visible,
        v ∈ head.returns ∨ v ∈ body.mentions → σ v ∈ head.params ++ visible' := by
      intro v hv hm
      rcases List.mem_append.1 hv with hv | hv
      · rw [hdef v (Or.inl hv)]
        exact List.mem_append_left _ hv
      · exact List.mem_append_right _ (hvis v hv (hm.imp_right Or.inl))
    refine ⟨?_, ?_, ?_⟩
    · exact hbody.subst (fun v hv hm => hparams v hv (Or.inr hm))
        fun v hv => hdef v (Or.inr (Or.inl hv))
    · intro w hw
      obtain ⟨v, hv, rfl⟩ := List.mem_map.1 hw
      change σ v ∈ (body.subst σ).outputs ++ (head.params ++ visible')
      rw [Body.outputs_subst]
      rcases List.mem_append.1 (hreturns hv) with h | h
      · rw [hdef v (Or.inr (Or.inl (Body.outputs_subset_definitions h)))]
        exact List.mem_append_left _ h
      · exact List.mem_append_right _ (hparams v h (Or.inl hv))
    · exact hrest.subst (fun v hv hm => hvis v hv (Or.inr (Or.inr hm)))
        fun v hv => hdef v (Or.inr (Or.inr hv))

end

/-- What is not mentioned need not be visible. -/
theorem Body.Scoped.of_mentions {body : NodeTrees} {visible visible' : List ValueId}
    (h : body.Scoped visible) (hvis : ∀ v ∈ visible, v ∈ body.mentions → v ∈ visible') :
    body.Scoped visible' := by
  rw [← body.subst_id]
  exact h.subst hvis fun _ _ => rfl

theorem Body.Scoped.mono {body : NodeTrees} {visible visible' : List ValueId}
    (h : body.Scoped visible) (hsub : visible ⊆ visible') : body.Scoped visible' :=
  h.of_mentions fun _ hv _ => hsub hv

/-- Nodes see what the nodes before them define. -/
theorem Body.scoped_append : ∀ {a b : NodeTrees} {visible : List ValueId},
    (a ++ b).Scoped visible ↔ a.Scoped visible ∧ b.Scoped (a.outputs ++ visible)
  | .done, b, visible => by simp [Body.Scoped]
  | .node head arms rest, b, visible => by
    have hperm : b.Scoped (rest.outputs ++ (head.outputs ++ visible)) ↔
        b.Scoped (head.outputs ++ rest.outputs ++ visible) := by
      constructor <;> intro h <;> refine h.mono fun v hv => ?_ <;>
        simp only [List.mem_append] at hv ⊢ <;> tauto
    rw [Body.node_append, Body.Scoped, Body.Scoped, Body.scoped_append, Body.outputs_node, hperm]
    tauto

/-! ### A node in its scope -/

theorem Body.outputs_subset {x : NodeView} {body : NodeTrees} (hx : x ∈ body.nodes) :
    x.outputs ⊆ NodeTrees.definitions body := by
  intro v hv
  rw [NodeTrees.definitions_eq_collect, Body.mem_collect]
  exact Or.inl ⟨x, hx, hv⟩

theorem Arms.outputs_subset {x : NodeView} {arms : BlockTrees} (hx : x ∈ arms.nodes) :
    x.outputs ⊆ BlockTrees.definitions arms := by
  intro v hv
  rw [BlockTrees.definitions_eq_collect, Arms.mem_collect]
  exact Or.inl ⟨x, hx, hv⟩

theorem Body.inputs_subset {x : NodeView} {body : NodeTrees} (hx : x ∈ body.nodes) :
    x.inputs ⊆ body.mentions :=
  fun _ hv => Body.mem_collect.2 (Or.inl ⟨x, hx, hv⟩)

theorem Arms.inputs_subset {x : NodeView} {arms : BlockTrees} (hx : x ∈ arms.nodes) :
    x.inputs ⊆ arms.mentions :=
  fun _ hv => Arms.mem_collect.2 (Or.inl ⟨x, hx, hv⟩)

theorem Body.outputs_subset_of_subtree {head : NodeView} {arms : BlockTrees} {body : NodeTrees}
    (h : (head, arms) ∈ body.subtrees) : head.outputs ⊆ NodeTrees.definitions body :=
  Body.outputs_subset (Body.mem_nodes.2 ⟨arms, h⟩)

theorem Arms.outputs_subset_of_subtree {head : NodeView} {arms more : BlockTrees}
    (h : (head, arms) ∈ more.subtrees) : head.outputs ⊆ BlockTrees.definitions more :=
  Arms.outputs_subset (Arms.mem_nodes.2 ⟨arms, h⟩)

mutual

/-- What a node and its blocks see, apart from what they define themselves. -/
theorem Body.Scoped.subtree {head : NodeView} {arms : BlockTrees} : ∀ {body : NodeTrees}
    {visible : List ValueId}, body.Scoped visible → (NodeTrees.definitions body).Nodup →
    (∀ v ∈ visible, v ∉ NodeTrees.definitions body) → (head, arms) ∈ body.subtrees →
    ∃ seen, head.inputs ⊆ seen ∧ arms.Scoped seen ∧
      ∀ v ∈ seen, v ∉ head.outputs ∧ v ∉ BlockTrees.definitions arms
  | .node first inside rest, visible, ⟨hinputs, hinside, hrest⟩, hnodup, hvis, h => by
    simp only [NodeTrees.definitions_node, List.nodup_append, List.mem_append, not_or] at hnodup hvis
    obtain ⟨-, ⟨hnodup₁, hnodup₂, hdisj⟩, hfirst⟩ := hnodup
    simp only [Body.subtrees, List.mem_cons, List.mem_append, Prod.mk.injEq] at h
    rcases h with ⟨rfl, rfl⟩ | h | h
    · exact ⟨visible, hinputs, hinside, fun v hv => ⟨(hvis v hv).1, (hvis v hv).2.1⟩⟩
    · exact hinside.subtree hnodup₁ (fun v hv => (hvis v hv).2.1) h
    · refine hrest.subtree hnodup₂ (fun v hv => ?_) h
      rcases List.mem_append.1 hv with hv | hv
      · exact fun hr => hfirst v hv v (Or.inr hr) rfl
      · exact (hvis v hv).2.2

@[inherit_doc Body.Scoped.subtree]
theorem Arms.Scoped.subtree {head : NodeView} {arms : BlockTrees} : ∀ {more : BlockTrees}
    {visible : List ValueId}, more.Scoped visible → (BlockTrees.definitions more).Nodup →
    (∀ v ∈ visible, v ∉ BlockTrees.definitions more) → (head, arms) ∈ more.subtrees →
    ∃ seen, head.inputs ⊆ seen ∧ arms.Scoped seen ∧
      ∀ v ∈ seen, v ∉ head.outputs ∧ v ∉ BlockTrees.definitions arms
  | .arm block body rest, visible, ⟨hbody, _, hrest⟩, hnodup, hvis, h => by
    simp only [BlockTrees.definitions_arm, List.nodup_append, List.mem_append, not_or] at hnodup hvis
    obtain ⟨-, ⟨hnodup₁, hnodup₂, hdisj⟩, hparams⟩ := hnodup
    simp only [Arms.subtrees, List.mem_append] at h
    rcases h with h | h
    · refine hbody.subtree hnodup₁ (fun v hv => ?_) h
      rcases List.mem_append.1 hv with hv | hv
      · exact fun hb => hparams v hv v (Or.inl hb) rfl
      · exact (hvis v hv).2.1
    · exact hrest.subtree hnodup₂ (fun v hv => (hvis v hv).2.2) h

end

/-! ### Well-formed trees -/

/-- Everything in nodes has a number of its own, and every slot sees the value it holds, where
`visible` is what is seen before the first node. -/
structure Body.WellFormed (visible : List ValueId) (body : NodeTrees) : Prop where
  scope : body.Scoped visible
  ids : body.ids.Nodup
  blockIds : body.blockIds.Nodup
  definitions : (NodeTrees.definitions body).Nodup
  fresh : ∀ v ∈ visible, v ∉ NodeTrees.definitions body

@[inherit_doc Body.WellFormed]
structure Arms.WellFormed (visible : List ValueId) (arms : BlockTrees) : Prop where
  scope : arms.Scoped visible
  ids : arms.ids.Nodup
  blockIds : arms.blockIds.Nodup
  definitions : (BlockTrees.definitions arms).Nodup
  fresh : ∀ v ∈ visible, v ∉ BlockTrees.definitions arms

section WellFormed

variable {head : NodeView} {arms more : BlockTrees} {body rest : NodeTrees} {block : BlockView}
  {visible : List ValueId}

/-- What is inside a node sees what the node sees. -/
theorem Body.WellFormed.inside (h : (Body.node head arms rest).WellFormed visible) :
    arms.WellFormed visible where
  scope := h.scope.2.1
  ids := by
    have hi := h.ids
    rw [Body.ids_node, List.nodup_cons, List.nodup_append] at hi
    exact hi.2.1
  blockIds := by
    have hb := h.blockIds
    rw [Body.blockIds_node, List.nodup_append] at hb
    exact hb.1
  definitions := by
    have hd := h.definitions
    rw [NodeTrees.definitions_node, List.nodup_append, List.nodup_append] at hd
    exact hd.2.1.1
  fresh v hv := by
    have hf := h.fresh v hv
    rw [NodeTrees.definitions_node, List.mem_append, List.mem_append, not_or, not_or] at hf
    exact hf.2.1

/-- The nodes that follow see what the node defines as well. -/
theorem Body.WellFormed.after (h : (Body.node head arms rest).WellFormed visible) :
    rest.WellFormed (head.outputs ++ visible) where
  scope := h.scope.2.2
  ids := by
    have hi := h.ids
    rw [Body.ids_node, List.nodup_cons, List.nodup_append] at hi
    exact hi.2.2.1
  blockIds := by
    have hb := h.blockIds
    rw [Body.blockIds_node, List.nodup_append] at hb
    exact hb.2.1
  definitions := by
    have hd := h.definitions
    rw [NodeTrees.definitions_node, List.nodup_append, List.nodup_append] at hd
    exact hd.2.1.2.1
  fresh v hv := by
    have hd := h.definitions
    rw [NodeTrees.definitions_node, List.nodup_append] at hd
    rcases List.mem_append.1 hv with hv | hv
    · exact fun hr => hd.2.2 v hv v (List.mem_append_right _ hr) rfl
    · have hf := h.fresh v hv
      rw [NodeTrees.definitions_node, List.mem_append, List.mem_append, not_or, not_or] at hf
      exact hf.2.2

/-- What is inside a block sees its parameters as well. -/
theorem Arms.WellFormed.inside (h : (Arms.arm block body more).WellFormed visible) :
    body.WellFormed (block.params ++ visible) where
  scope := h.scope.1
  ids := by
    have hi := h.ids
    rw [Arms.ids_arm, List.nodup_append] at hi
    exact hi.1
  blockIds := by
    have hb := h.blockIds
    rw [Arms.blockIds_arm, List.nodup_cons, List.nodup_append] at hb
    exact hb.2.1
  definitions := by
    have hd := h.definitions
    rw [BlockTrees.definitions_arm, List.nodup_append, List.nodup_append] at hd
    exact hd.2.1.1
  fresh v hv := by
    have hd := h.definitions
    rw [BlockTrees.definitions_arm, List.nodup_append] at hd
    rcases List.mem_append.1 hv with hv | hv
    · exact fun hb => hd.2.2 v hv v (List.mem_append_left _ hb) rfl
    · have hf := h.fresh v hv
      rw [BlockTrees.definitions_arm, List.mem_append, List.mem_append, not_or, not_or] at hf
      exact hf.2.1

/-- The blocks that follow see nothing of what is defined in this one. -/
theorem Arms.WellFormed.after (h : (Arms.arm block body more).WellFormed visible) :
    more.WellFormed visible where
  scope := h.scope.2.2
  ids := by
    have hi := h.ids
    rw [Arms.ids_arm, List.nodup_append] at hi
    exact hi.2.1
  blockIds := by
    have hb := h.blockIds
    rw [Arms.blockIds_arm, List.nodup_cons, List.nodup_append] at hb
    exact hb.2.2.1
  definitions := by
    have hd := h.definitions
    rw [BlockTrees.definitions_arm, List.nodup_append, List.nodup_append] at hd
    exact hd.2.1.2.1
  fresh v hv := by
    have hf := h.fresh v hv
    rw [BlockTrees.definitions_arm, List.mem_append, List.mem_append, not_or, not_or] at hf
    exact hf.2.2

theorem Body.WellFormed.single (h : (Body.node head arms rest).WellFormed visible) :
    (Body.node head arms .done).WellFormed visible where
  scope := ⟨h.scope.1, h.scope.2.1, trivial⟩
  ids := by
    have hi := h.ids
    rw [Body.ids_node, ← List.cons_append] at hi
    simpa using (List.nodup_append.1 hi).1
  blockIds := by
    have hb := h.blockIds
    rw [Body.blockIds_node] at hb
    simpa using (List.nodup_append.1 hb).1
  definitions := by
    have hd := h.definitions
    rw [NodeTrees.definitions_node, ← List.append_assoc] at hd
    simpa using (List.nodup_append.1 hd).1
  fresh v hv := by
    have hf := h.fresh v hv
    simp only [NodeTrees.definitions_node, List.mem_append, not_or] at hf
    simp [hf]

theorem Arms.WellFormed.single (h : (Arms.arm block body more).WellFormed visible) :
    (Arms.arm block body .done).WellFormed visible where
  scope := ⟨h.scope.1, h.scope.2.1, trivial⟩
  ids := by
    have hi := h.ids
    rw [Arms.ids_arm] at hi
    simpa using (List.nodup_append.1 hi).1
  blockIds := by
    have hb := h.blockIds
    rw [Arms.blockIds_arm, ← List.cons_append] at hb
    simpa using (List.nodup_append.1 hb).1
  definitions := by
    have hd := h.definitions
    rw [BlockTrees.definitions_arm, ← List.append_assoc] at hd
    simpa using (List.nodup_append.1 hd).1
  fresh v hv := by
    have hf := h.fresh v hv
    simp only [BlockTrees.definitions_arm, List.mem_append, not_or] at hf
    simp [hf]

/-- Neither a node nor its blocks have to do with what is defined after it. -/
theorem Body.WellFormed.not_mem_after (h : (Body.node head arms rest).WellFormed visible)
    {v : ValueId} (hv : v ∈ (Body.node head arms .done).mentions ∨
      v ∈ NodeTrees.definitions (.node head arms .done)) : v ∉ NodeTrees.definitions rest := by
  have hd := h.definitions
  have hf := h.after.fresh
  simp only [Body.mentions_node, Body.mentions_done, NodeTrees.definitions_node,
    NodeTrees.definitions_done, List.append_nil, List.mem_append] at hv hf
  rw [NodeTrees.definitions_node, ← List.append_assoc, List.nodup_append] at hd
  have hdefs : v ∈ head.outputs ∨ v ∈ BlockTrees.definitions arms →
      v ∉ NodeTrees.definitions rest := fun hv hr => hd.2.2 v (List.mem_append.2 hv) v hr rfl
  rcases hv with (hv | hv) | hv
  · exact hf v (Or.inr (h.scope.1 hv))
  · rcases h.inside.scope.mem_of_mentions hv with hv | hv
    · exact hf v (Or.inr hv)
    · exact hdefs (Or.inr hv)
  · exact hdefs hv

/-- Neither a block nor what it holds has to do with what is defined in the blocks after it. -/
theorem Arms.WellFormed.not_mem_after (h : (Arms.arm block body more).WellFormed visible)
    {v : ValueId} (hv : v ∈ (Arms.arm block body .done).mentions ∨
      v ∈ BlockTrees.definitions (.arm block body .done)) : v ∉ BlockTrees.definitions more := by
  have hd := h.definitions
  have hf := h.after.fresh
  have hscope : (Arms.arm block body .done).Scoped visible := ⟨h.scope.1, h.scope.2.1, trivial⟩
  rw [BlockTrees.definitions_arm, ← List.append_assoc, List.nodup_append] at hd
  have hdefs : v ∈ BlockTrees.definitions (.arm block body .done) →
      v ∉ BlockTrees.definitions more := fun hv hr => by
    rw [BlockTrees.definitions_arm, BlockTrees.definitions_done, List.append_nil] at hv
    exact hd.2.2 v hv v hr rfl
  rcases hv with hv | hv
  · exact (hscope.mem_of_mentions hv).elim (hf v) hdefs
  · exact hdefs hv

/-! ### A node in a well-formed tree -/

/-- What is gathered from a node and what it holds is apart from what the rest of the tree gives. -/
theorem Arms.WellFormed.nodup_collect {γ : Type} {f : NodeView → List γ} {k : BlockView → List γ}
    (h : more.WellFormed visible) (hmem : (head, arms) ∈ more.subtrees)
    (hnodup : (more.collect f k).Nodup) :
    ((f head ++ arms.collect f k) ++ (more.replace head.id .done).collect f k).Nodup :=
  (Arms.collect_perm f k h.ids hmem).nodup_iff.1 hnodup

/-- A node deep in the tree sees something, its arms are well-formed there, and it does not define any of
it anew. -/
theorem Arms.WellFormed.subtree (h : more.WellFormed visible)
    (hmem : (head, arms) ∈ more.subtrees) :
    ∃ seen, head.inputs ⊆ seen ∧ arms.WellFormed seen ∧ ∀ v ∈ seen, v ∉ head.outputs := by
  obtain ⟨seen, hinputs, hscope, hseen⟩ := h.scope.subtree h.definitions h.fresh hmem
  refine ⟨seen, hinputs, ⟨hscope, ?_, ?_, ?_, fun v hv => (hseen v hv).2⟩, fun v hv => (hseen v hv).1⟩
  · have hids := h.nodup_collect hmem h.ids
    rw [List.nodup_append, List.nodup_append] at hids
    exact hids.1.2.1
  · have hids := h.nodup_collect hmem h.blockIds
    rw [List.nodup_append, List.nodup_append] at hids
    exact hids.1.2.1
  · have hdefs := h.definitions
    rw [BlockTrees.definitions_eq_collect] at hdefs ⊢
    have hdefs := h.nodup_collect hmem hdefs
    rw [List.nodup_append, List.nodup_append] at hdefs
    exact hdefs.1.2.1

end WellFormed

end Unguard
