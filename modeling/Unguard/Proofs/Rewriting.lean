import Unguard.Proofs.Scopes

/-!
# Rewriting at one place

`Body.Rewrites K R θ visible` relates nodes that differ at one place, at any depth.  There a sequence
of nodes was rewritten as `R` says, whatever sees its outputs has them renamed by `θ`, and only values
in `K` are seen.  What a rewriting keeps is then shown for `R`, and for the ways in which a body or a
block holds another.

Replacing a node of a well-formed tree and renaming its outputs is such a rewriting
(`Arms.rewrites_replace`).  It leaves every slot in scope if the new nodes provide what is still asked
of the outputs (`Arms.WellFormed.scoped_replace`), so a node whose outputs are not mentioned can go
(`Arms.WellFormed.replace_done`).
-/

namespace Unguard

mutual

/-- Nodes that see `visible`, before and after a rewriting. -/
inductive Body.Rewrites (K : ValueId → Prop) (R : List ValueId → NodeTrees → NodeTrees → Prop)
    (θ : ValueId → ValueId) : List ValueId → NodeTrees → NodeTrees → Prop
  | here {visible : List ValueId} {body body' : NodeTrees} :
    R visible body body' → Body.Rewrites K R θ visible body body'
  | inside {visible : List ValueId} {head : NodeView} {arms arms' : BlockTrees} {rest : NodeTrees} :
    (∀ v ∈ (Body.node head arms rest).outputs ++ visible, θ v = v) →
    Arms.Rewrites K R θ visible arms arms' →
    Body.Rewrites K R θ visible (.node head arms rest) (.node head arms' rest)
  | after {visible : List ValueId} {head : NodeView} {arms : BlockTrees} {rest rest' : NodeTrees} :
    Body.Rewrites K R θ (head.outputs ++ visible) rest rest' →
    Body.Rewrites K R θ visible (.node head arms rest) (.node head arms rest')

/-- Blocks that see `visible`, before and after a rewriting. -/
inductive Arms.Rewrites (K : ValueId → Prop) (R : List ValueId → NodeTrees → NodeTrees → Prop)
    (θ : ValueId → ValueId) : List ValueId → BlockTrees → BlockTrees → Prop
  | inside {visible : List ValueId} {head : BlockView} {body body' : NodeTrees} {rest : BlockTrees} :
    (∀ v ∈ head.returns, v ∈ body.outputs ++ (head.params ++ visible) ∧ K v) →
    Body.Rewrites K R θ (head.params ++ visible) body body' →
    Arms.Rewrites K R θ visible (.arm head body rest) (.arm (head.subst θ) body' rest)
  | after {visible : List ValueId} {head : BlockView} {body : NodeTrees} {rest rest' : BlockTrees} :
    Arms.Rewrites K R θ visible rest rest' →
    Arms.Rewrites K R θ visible (.arm head body rest) (.arm head body rest')

end

section Replace

variable {K : ValueId → Prop} {R : List ValueId → NodeTrees → NodeTrees → Prop}
  {θ : ValueId → ValueId} {head : NodeView} {arms : BlockTrees} {new : NodeTrees}

mutual

theorem Body.rewrites_replace (hθ : ∀ v, v ∉ head.outputs → θ v = v)
    (hR : ∀ {visible rest}, (Body.node head arms rest).WellFormed visible →
      (∀ v ∈ rest.mentions, K v) → R visible (.node head arms rest) ((new ++ rest).subst θ)) :
    ∀ {body : NodeTrees} {visible : List ValueId}, body.WellFormed visible →
    (head, arms) ∈ body.subtrees → (∀ v ∈ (body.replace head.id .done).mentions, K v) →
    body.Rewrites K R θ visible ((body.replace head.id new).subst θ)
  | .node first inside rest, visible, hwf, hmem, hK => by
    have hids := hwf.ids
    have hdefs := hwf.definitions
    have hfresh := hwf.fresh
    simp only [Body.ids_node, List.nodup_cons, List.nodup_append, List.mem_append, not_or] at hids
    simp only [NodeTrees.definitions_node, List.nodup_append, List.mem_append, not_or] at hdefs hfresh
    obtain ⟨⟨hf₁, hf₂⟩, -, -, hdisj⟩ := hids
    obtain ⟨-, ⟨-, -, hsplit⟩, hfirst⟩ := hdefs
    have hinputs := hwf.scope.1
    simp only [Body.subtrees, List.mem_cons, List.mem_append, Prod.mk.injEq] at hmem
    rw [Body.replace] at hK ⊢
    -- Where the node is not, nothing mentions its outputs, and the renaming changes nothing.
    rcases hmem with ⟨rfl, rfl⟩ | hmem | hmem
    · rw [if_pos rfl, Body.replace_of_not_mem hf₂] at hK ⊢
      exact .here (hR hwf hK)
    · have hid : head.id ∈ inside.ids := Arms.mem_ids.2 ⟨_, hmem, rfl⟩
      have hne : first.id ≠ head.id := fun heq => hf₁ (heq ▸ hid)
      have hsub := Arms.outputs_subset_of_subtree hmem
      have hvis : ∀ v ∈ visible, θ v = v := fun v hv => hθ v fun ho => (hfresh v hv).2.1 (hsub ho)
      have hout : ∀ v ∈ first.outputs, θ v = v := fun v hv =>
        hθ v fun ho => hfirst v hv v (Or.inl (hsub ho)) rfl
      have hdef : ∀ v ∈ NodeTrees.definitions rest, θ v = v := fun v hv =>
        hθ v fun ho => hsplit v (hsub ho) v hv rfl
      have hrest : rest.subst θ = rest := hwf.scope.2.2.subst_eq_self
        (List.forall_mem_append.2 ⟨hout, hvis⟩) hdef
      have hself : first.subst θ = first := NodeView.subst_eq_self fun v hv => hvis v (hinputs hv)
      rw [if_neg hne, Body.replace_of_not_mem fun hr => hdisj _ hid _ hr rfl] at hK ⊢
      simp only [Body.mentions_node, List.forall_mem_append] at hK
      change Body.Rewrites K R θ visible _ (.node (first.subst θ) _ (rest.subst θ))
      rw [hself, hrest]
      refine .inside ?_ (Arms.rewrites_replace hθ hR hwf.inside hmem hK.2.1)
      rw [Body.outputs_node, List.append_assoc, List.forall_mem_append, List.forall_mem_append]
      exact ⟨hout, fun v hv => hdef v (Body.outputs_subset_definitions hv), hvis⟩
    · have hid : head.id ∈ rest.ids := Body.mem_ids.2 ⟨_, hmem, rfl⟩
      have hne : first.id ≠ head.id := fun heq => hf₂ (heq ▸ hid)
      have hsub := Body.outputs_subset_of_subtree hmem
      have hvis : ∀ v ∈ visible, θ v = v := fun v hv => hθ v fun ho => (hfresh v hv).2.2 (hsub ho)
      have hinside : inside.subst θ = inside := hwf.scope.2.1.subst_eq_self hvis fun v hv =>
        hθ v fun ho => hsplit v hv v (hsub ho) rfl
      have hself : first.subst θ = first := NodeView.subst_eq_self fun v hv => hvis v (hinputs hv)
      rw [if_neg hne, Arms.replace_of_not_mem fun hi => hdisj _ hi _ hid rfl] at hK ⊢
      simp only [Body.mentions_node, List.forall_mem_append] at hK
      change Body.Rewrites K R θ visible _ (.node (first.subst θ) (inside.subst θ) _)
      rw [hself, hinside]
      exact .after (Body.rewrites_replace hθ hR hwf.after hmem hK.2.2)

/-- Replacing a node and renaming its outputs is a rewriting at one place. -/
theorem Arms.rewrites_replace (hθ : ∀ v, v ∉ head.outputs → θ v = v)
    (hR : ∀ {visible rest}, (Body.node head arms rest).WellFormed visible →
      (∀ v ∈ rest.mentions, K v) → R visible (.node head arms rest) ((new ++ rest).subst θ)) :
    ∀ {more : BlockTrees} {visible : List ValueId}, more.WellFormed visible →
    (head, arms) ∈ more.subtrees → (∀ v ∈ (more.replace head.id .done).mentions, K v) →
    more.Rewrites K R θ visible ((more.replace head.id new).subst θ)
  | .arm block body rest, visible, hwf, hmem, hK => by
    have hids := hwf.ids
    have hdefs := hwf.definitions
    have hfresh := hwf.fresh
    simp only [Arms.ids_arm, List.nodup_append] at hids
    simp only [BlockTrees.definitions_arm, List.nodup_append, List.mem_append, not_or] at hdefs hfresh
    obtain ⟨-, ⟨-, -, hsplit⟩, hparams⟩ := hdefs
    obtain ⟨hbody, hreturns, hrest⟩ := hwf.scope
    rw [Arms.subtrees, List.mem_append] at hmem
    rw [Arms.replace, Arms.mentions_arm, List.forall_mem_append, List.forall_mem_append] at hK
    rw [Arms.replace]
    rcases hmem with hmem | hmem
    · have hid : head.id ∈ body.ids := Body.mem_ids.2 ⟨_, hmem, rfl⟩
      have hsub := Body.outputs_subset_of_subtree hmem
      -- The other blocks do not see what the node defines.
      have hself : rest.subst θ = rest := hrest.subst_eq_self
        (fun v hv => hθ v fun ho => (hfresh v hv).2.1 (hsub ho))
        fun v hv => hθ v fun ho => hsplit v (hsub ho) v hv rfl
      rw [Arms.replace_of_not_mem fun hr => hids.2.2 _ hid _ hr rfl]
      change Arms.Rewrites K R θ visible _ (.arm (block.subst θ) _ (rest.subst θ))
      rw [hself]
      exact .inside (fun v hv => ⟨hreturns hv, hK.1 v hv⟩)
        (Body.rewrites_replace hθ hR hwf.inside hmem hK.2.1)
    · have hid : head.id ∈ rest.ids := Arms.mem_ids.2 ⟨_, hmem, rfl⟩
      have hsub := Arms.outputs_subset_of_subtree hmem
      -- Nor does this block, if the node is in one of the others.
      have hvis : ∀ v ∈ block.params ++ visible, θ v = v := by
        intro v hv
        rcases List.mem_append.1 hv with hv | hv
        · exact hθ v fun ho => hparams v hv v (Or.inr (hsub ho)) rfl
        · exact hθ v fun ho => (hfresh v hv).2.2 (hsub ho)
      have hdef : ∀ v ∈ NodeTrees.definitions body, θ v = v := fun v hv =>
        hθ v fun ho => hsplit v hv v (hsub ho) rfl
      have hself : body.subst θ = body := hbody.subst_eq_self hvis hdef
      have hblock : block.subst θ = block := BlockView.subst_eq_self fun v hv =>
        (List.mem_append.1 (hreturns hv)).elim
          (fun ho => hdef v (Body.outputs_subset_definitions ho)) (hvis v)
      rw [Body.replace_of_not_mem fun hb => hids.2.2 _ hb _ hid rfl]
      change Arms.Rewrites K R θ visible _ (.arm (block.subst θ) (body.subst θ) _)
      rw [hself, hblock]
      exact .after (Arms.rewrites_replace hθ hR hwf.after hmem hK.2.2)

end

end Replace

/-! ### What stays in scope -/

section Scoped

variable {K : ValueId → Prop} {θ : ValueId → ValueId}

/-- Nodes that see `visible` may be exchanged for others where `θ` renames the outputs and only values
in `K` are seen. -/
structure Body.KeepsScope (K : ValueId → Prop) (θ : ValueId → ValueId) (visible : List ValueId)
    (body body' : NodeTrees) : Prop where
  scope : body'.Scoped visible
  outputs : ∀ v ∈ body.outputs ++ visible, K v → θ v ∈ body'.outputs ++ visible

mutual

theorem Body.Rewrites.keepsScope : ∀ {visible : List ValueId} {body body' : NodeTrees},
    body.Rewrites K (Body.KeepsScope K θ) θ visible body' → body.Scoped visible →
    body.KeepsScope K θ visible body'
  | _, _, _, .here h, _ => h
  | visible, .node head arms rest, .node _ arms' _, .inside hfix h, ⟨hinputs, harms, hrest⟩ => by
    refine ⟨⟨hinputs, Arms.Rewrites.scoped h harms, hrest⟩, fun v hv _ => ?_⟩
    rw [hfix v hv]
    exact hv
  | visible, .node head arms rest, .node _ _ rest', .after h, ⟨hinputs, harms, hrest⟩ => by
    obtain ⟨hscope, hout⟩ := Body.Rewrites.keepsScope h hrest
    exact ⟨⟨hinputs, harms, hscope⟩, fun v hv hK =>
      Body.mem_outputs_node.2 (hout v (Body.mem_outputs_node.1 hv) hK)⟩

/-- A rewriting leaves every slot in scope if it does so where the nodes were exchanged. -/
theorem Arms.Rewrites.scoped : ∀ {visible : List ValueId} {arms arms' : BlockTrees},
    arms.Rewrites K (Body.KeepsScope K θ) θ visible arms' → arms.Scoped visible →
    arms'.Scoped visible
  | visible, .arm head body rest, .arm _ body' _, .inside hreturns h, ⟨hbody, _, hrest⟩ => by
    obtain ⟨hscope, hout⟩ := Body.Rewrites.keepsScope h hbody
    refine ⟨hscope, ?_, hrest⟩
    intro w hw
    obtain ⟨v, hv, rfl⟩ := List.mem_map.1 hw
    exact hout v (hreturns v hv).1 (hreturns v hv).2
  | visible, .arm head body rest, .arm _ _ rest', .after h, ⟨hbody, hreturns, hrest⟩ =>
    ⟨hbody, hreturns, Arms.Rewrites.scoped h hrest⟩

end

end Scoped

section WellFormed

variable {σ : ValueId → ValueId} {head : NodeView} {arms more : BlockTrees} {new : NodeTrees}
  {visible : List ValueId}

/-- A node can be replaced by nodes that are well scoped in its place and provide, under `σ`, what the
nodes after it still take from its outputs. -/
theorem Arms.WellFormed.scoped_replace (h : more.WellFormed visible)
    (hmem : (head, arms) ∈ more.subtrees) (hσ : ∀ v, v ∉ head.outputs → σ v = v)
    (hnew : ∀ seen, arms.Scoped seen → (new.subst σ).Scoped seen)
    (hout : ∀ seen, arms.Scoped seen → ∀ v ∈ head.outputs,
      v ∈ (more.replace head.id .done).mentions → σ v ∈ new.outputs ++ seen) :
    ((more.replace head.id new).subst σ).Scoped visible := by
  refine Arms.Rewrites.scoped (K := (· ∈ (more.replace head.id .done).mentions))
    (Arms.rewrites_replace hσ (fun {seen rest} hwf hK => ?_) h hmem fun _ hv => hv) h.scope
  obtain ⟨-, harms, hrest⟩ := hwf.scope
  -- Only what the node itself defines is substituted.
  have hfirst : ∀ v ∈ NodeTrees.definitions rest, σ v = v := fun v hv =>
    hσ v fun ho => hwf.after.fresh v (List.mem_append_left _ ho) hv
  have hseen : ∀ v ∈ seen, σ v = v := fun v hv => hσ v fun ho =>
    hwf.fresh v hv (Body.outputs_subset_of_subtree (List.mem_cons_self ..) ho)
  rw [Body.subst_append]
  constructor
  · -- The rest sees in place of those values what the new nodes define or what was visible.
    rw [Body.scoped_append, Body.outputs_subst]
    refine ⟨hnew seen harms, hrest.subst (fun v hv hm => ?_) hfirst⟩
    rcases List.mem_append.1 hv with hv | hv
    · exact hout seen harms v hv (hK v hm)
    · rw [hseen v hv]
      exact List.mem_append_right _ hv
  · intro v hv hm
    rw [Body.outputs_append, Body.outputs_subst, Body.outputs_subst]
    simp only [Body.outputs_node, List.mem_append] at hv hout ⊢
    rcases hv with (hv | hv) | hv
    · exact (hout seen harms v hv hm).imp_left Or.inl
    · rw [hfirst v (Body.outputs_subset_definitions hv)]
      exact Or.inl (Or.inr hv)
    · rw [hseen v hv]
      exact Or.inr hv

/-- What is defined inside a node is not mentioned outside of it. -/
theorem Arms.WellFormed.not_mem_mentions (h : more.WellFormed visible)
    (hmem : (head, arms) ∈ more.subtrees) {v : ValueId} (hv : v ∈ BlockTrees.definitions arms) :
    v ∉ (more.replace head.id .done).mentions := by
  intro hm
  -- The node without its blocks: what follows it still sees its outputs.
  let bare : NodeTrees := .node { head with inputs := [] } .done .done
  have hscope : (more.replace head.id bare).Scoped visible := by
    rw [← Arms.subst_id (more.replace _ _)]
    refine h.scoped_replace hmem (fun _ _ => rfl) (fun seen _ => ?_) (fun seen _ w hw _ => ?_)
    · exact ⟨List.nil_subset _, trivial, trivial⟩
    · exact List.mem_append_left _ (by simpa [bare] using hw)
  have hperm := Arms.collect_replace NodeView.inputs BlockView.returns bare h.ids
    (Arms.mem_ids.2 ⟨_, hmem, rfl⟩)
  have hdperm := Arms.collect_replace NodeView.outputs BlockView.params bare h.ids
    (Arms.mem_ids.2 ⟨_, hmem, rfl⟩)
  rcases hscope.mem_of_mentions (hperm.symm.subset (List.mem_append_right _ hm)) with hvis | hdef
  · exact h.fresh v hvis ((Arms.definitions_perm h.ids hmem).symm.subset
      (List.mem_append_left _ (List.mem_append_right _ hv)))
  · have hdefs := h.definitions
    rw [BlockTrees.definitions_eq_collect] at hv hdef hdefs
    have hnodup := h.nodup_collect hmem hdefs
    rw [List.nodup_append, List.nodup_append] at hnodup
    rcases List.mem_append.1 (hdperm.subset hdef) with hout | hrest
    · have hout : v ∈ head.outputs := by simpa [bare, Body.collect, Arms.collect] using hout
      exact hnodup.1.2.2 v hout v hv rfl
    · exact hnodup.2.2 v (List.mem_append_right _ hv) v hrest rfl

/-- A node whose outputs are not mentioned can go. -/
theorem Arms.WellFormed.replace_done (h : more.WellFormed visible)
    (hmem : (head, arms) ∈ more.subtrees)
    (hunused : ∀ v ∈ head.outputs, v ∉ (more.replace head.id .done).mentions) :
    (more.replace head.id .done).WellFormed visible := by
  have hsub : ∀ {γ : Type} (f : NodeView → List γ) (k : BlockView → List γ),
      ∀ x ∈ (more.replace head.id .done).collect f k, x ∈ more.collect f k := fun f k x hx =>
    (Arms.collect_perm f k h.ids hmem).symm.subset (List.mem_append_right _ hx)
  refine ⟨?_, ?_, ?_, ?_, fun v hv => ?_⟩
  · rw [← Arms.subst_id (more.replace _ _)]
    refine h.scoped_replace hmem (fun _ _ => rfl) (fun _ _ => ?_)
      (fun _ _ v hv hm => absurd hm (hunused v hv))
    exact trivial
  · exact (List.nodup_append.1 (h.nodup_collect hmem h.ids)).2.1
  · exact (List.nodup_append.1 (h.nodup_collect hmem h.blockIds)).2.1
  · have hdefs := h.definitions
    rw [BlockTrees.definitions_eq_collect] at hdefs ⊢
    exact (List.nodup_append.1 (h.nodup_collect hmem hdefs)).2.1
  · have hfresh := h.fresh v hv
    rw [BlockTrees.definitions_eq_collect] at hfresh ⊢
    exact fun hin => hfresh (hsub _ _ v hin)

end WellFormed

end Unguard
