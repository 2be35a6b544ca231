import Unguard.Proofs.Assignments
import Unguard.Proofs.Conditionals
import Unguard.Proofs.Erasing
import Unguard.Proofs.Inserting
import Unguard.Proofs.Rounds

/-!
# Hoisting an arm

Hoisting an arm of a conditional never faults in a well-formed graph.  It leaves a graph that
represents the tree with the contents of the arm in the place of the conditional, and what the arm
returns in the place of its outputs (`BlockTree.hoisted`), up to the numbers of what was copied
(`Hoistable.hoist_ok`).

The copies get new numbers and the originals are erased.  Since the copies stand where the originals
would, exchanging the numbers of the two is a relabeling of the whole tree.
-/

namespace Unguard

/-! ### The tree afterwards -/

/-- The tree with the contents of the block `m` in the place of the node `head`. -/
def BlockTree.hoisted (t : BlockTree) (head : NodeView) (m : BlockTree) : BlockTree :=
  (t.replace head.id m.body).subst (substitution head.outputs m.head.returns)

/-- The block `m` of the node `head` can take its place. -/
structure Hoistable (t : BlockTree) (head : NodeView) (arms : BlockTrees) (m : BlockTree) : Prop where
  mem : (head, arms) ∈ t.toArms.subtrees
  arm : m ∈ arms.members
  params : m.head.params = []
  balanced : m.head.returns.length = head.outputs.length

theorem nodup_of_subperm {γ : Type} {xs ys : List γ} (h : xs.Subperm ys) (hys : ys.Nodup) :
    xs.Nodup := by
  obtain ⟨l, hperm, hsub⟩ := h
  exact hperm.nodup_iff.1 (hsub.nodup hys)

namespace Hoistable

variable {t : BlockTree} {head : NodeView} {arms : BlockTrees} {m : BlockTree}
  {visible : List ValueId}

/-- What is collected after the arm has taken the place of the conditional was there before, and no more
often. -/
theorem collect_subperm (h : Hoistable t head arms m) {γ : Type} (f : NodeView → List γ)
    (k : BlockView → List γ) (hids : t.toArms.ids.Nodup) :
    ((t.toArms.replace head.id m.body).collect f k).Subperm (t.toArms.collect f k) := by
  have hnew := Arms.collect_replace f k m.body hids (Arms.mem_ids.2 ⟨_, h.mem, rfl⟩)
  have hold := Arms.collect_perm f k hids h.mem
  have hsub : (m.body.collect f k).Sublist (f head ++ arms.collect f k) :=
    ((List.sublist_append_right _ _).trans (Arms.collect_sublist f k h.arm)).trans
      (List.sublist_append_right _ _)
  exact hnew.subperm.trans ((hsub.append_right _).subperm.trans hold.symm.subperm)

/-- What the block holds and returns is defined in it or seen from outside the node. -/
theorem mem_of_mentions (h : Hoistable t head arms m) (hwf : t.toArms.WellFormed visible)
    {v : ValueId} (hv : v ∈ m.body.mentions ∨ v ∈ m.head.returns) :
    v ∈ NodeTrees.definitions m.body ∨ v ∉ head.outputs ∧ v ∉ BlockTrees.definitions arms := by
  obtain ⟨seen, -, harms, hseen⟩ := hwf.subtree h.mem
  obtain ⟨hbody, hreturns⟩ := harms.scope.member h.arm
  rw [h.params, List.nil_append] at hbody hreturns
  have hout : v ∈ seen → v ∉ head.outputs ∧ v ∉ BlockTrees.definitions arms := fun hv =>
    ⟨hseen v hv, harms.fresh v hv⟩
  rcases hv with hv | hv
  · exact (hbody.mem_of_mentions hv).symm.imp_right hout
  · exact (List.mem_append.1 (hreturns hv)).imp
      (fun hv => Body.outputs_subset_definitions hv) hout

/-- What is defined inside the conditional is not defined by it. -/
theorem not_mem_outputs_of_mem_arms (h : Hoistable t head arms m)
    (hwf : t.toArms.WellFormed visible) {v : ValueId} (hv : v ∈ BlockTrees.definitions arms) :
    v ∉ head.outputs := by
  have hdefs := hwf.definitions
  rw [BlockTrees.definitions_eq_collect] at hv hdefs
  have hnodup := hwf.nodup_collect h.mem hdefs
  rw [List.nodup_append, List.nodup_append] at hnodup
  exact fun ho => hnodup.1.2.2 v ho v hv rfl

/-- The block neither holds nor returns an output of its own node. -/
theorem not_mem_outputs (h : Hoistable t head arms m) (hwf : t.toArms.WellFormed visible)
    {v : ValueId} (hv : v ∈ m.body.mentions ∨ v ∈ m.head.returns) : v ∉ head.outputs := by
  rcases h.mem_of_mentions hwf hv with hv | hv
  · exact h.not_mem_outputs_of_mem_arms hwf (Arms.definitions_subset h.arm hv)
  · exact hv.1

/-- The arm does not mention what the conditional defines, so the substitution leaves it alone. -/
theorem subst_body (h : Hoistable t head arms m) (hwf : t.toArms.WellFormed visible)
    (new : List ValueId) : m.body.subst (substitution head.outputs new) = m.body :=
  Body.subst_eq_self fun _ hv => substitution_of_not_mem (h.not_mem_outputs hwf (Or.inl hv))

/-- The arm sees in its new place what it saw in its old one, and what follows sees what the arm returns. -/
theorem wellFormed (h : Hoistable t head arms m) (hwf : t.toArms.WellFormed visible) :
    (t.hoisted head m).toArms.WellFormed visible := by
  have hnodup : ∀ {γ : Type} (f : NodeView → List γ) (k : BlockView → List γ),
      (t.toArms.collect f k).Nodup → ((t.toArms.replace head.id m.body).collect f k).Nodup :=
    fun f k => nodup_of_subperm (h.collect_subperm f k hwf.ids)
  -- Numbers and definitions are part of what they were; only the scopes need an argument.
  rw [BlockTree.hoisted, BlockTree.toArms_subst, BlockTree.toArms_replace]
  refine ⟨?_, ?_, ?_, ?_, fun v hv => ?_⟩
  · refine hwf.scoped_replace h.mem (fun v hv => substitution_of_not_mem hv)
      (fun seen hseen => ?_) (fun seen hseen v hv _ => ?_)
    · obtain ⟨hbody, -⟩ := hseen.member h.arm
      rw [h.subst_body hwf]
      rwa [h.params, List.nil_append] at hbody
    · obtain ⟨-, hreturns⟩ := hseen.member h.arm
      rw [h.params, List.nil_append] at hreturns
      exact hreturns (substitution_mem h.balanced.symm hv)
  · rw [Arms.ids_subst]
    exact hnodup _ _ hwf.ids
  · rw [Arms.blockIds_subst]
    exact hnodup _ _ hwf.blockIds
  · have hdefs := hwf.definitions
    rw [Arms.definitions_subst]
    rw [BlockTrees.definitions_eq_collect] at hdefs ⊢
    exact hnodup _ _ hdefs
  · have hfresh := hwf.fresh v hv
    rw [Arms.definitions_subst]
    rw [BlockTrees.definitions_eq_collect] at hfresh ⊢
    exact fun hin => hfresh ((h.collect_subperm _ _ hwf.ids).subset hin)

theorem allNodes {Q : NodeView → List BlockView → Prop} (h : Hoistable t head arms m)
    (hQ : t.toArms.AllNodes Q) : (t.toArms.replace head.id m.body).AllNodes Q :=
  hQ.replace (fun p hp => hQ p
    (Arms.subtrees_trans h.mem (Arms.subtrees_subset h.arm hp))) head.id

theorem shaped (h : Hoistable t head arms m) (hshape : t.toArms.Shaped) :
    (t.hoisted head m).toArms.Shaped :=
  Arms.Shaped.map (h.allNodes hshape) (faithful_subst _)

theorem isBalanced (h : Hoistable t head arms m) (hbal : t.toArms.Balanced) :
    (t.hoisted head m).toArms.Balanced :=
  Arms.Balanced.map (h.allNodes hbal) (faithful_subst _)

/-- What takes the place of a conditional is part of what it holds. -/
theorem conditionals_lt (h : Hoistable t head arms m) (hids : t.toArms.ids.Nodup)
    (hkind : head.kind = .conditional) (π : Relabeling) :
    ((t.hoisted head m).relabel π).toArms.conditionals < t.toArms.conditionals := by
  rw [BlockTree.toArms_relabel, Arms.relabel, Arms.rename, Arms.conditionals_map (faithful_rename ..),
    BlockTree.hoisted, BlockTree.toArms_subst, Arms.subst, Arms.conditionals_map (faithful_subst _),
    BlockTree.toArms_replace]
  exact Arms.conditionals_replace_lt hids h.mem hkind (Arms.conditionals_member h.arm)

end Hoistable

/-! ### A copy in the place of the conditional -/

/-- `copy` is what the block `m` holds, with numbers that the tree does not have. -/
structure Copied (t m : BlockTree) (copy : NodeTrees) (ρ : ValueId → ValueId) : Prop where
  same : copy.unnumbered = m.body.rename (fun _ => ⟨0⟩) (fun _ => ⟨0⟩) ρ
  fixed : ∀ v, v ∉ NodeTrees.definitions m.body → ρ v = v
  ids : (t.toArms.ids ++ copy.ids).Nodup
  blockIds : (t.toArms.blockIds ++ copy.blockIds).Nodup
  definitions : (BlockTrees.definitions t.toArms ++ NodeTrees.definitions copy).Nodup

/-- `π` exchanges the numbers of the copy for those of the original, and no others. -/
structure Renumbers (t m : BlockTree) (copy : NodeTrees) (ρ : ValueId → ValueId) (π : Relabeling) :
    Prop where
  body : m.body.relabel π = copy
  nodes : ∀ n ∈ t.toArms.ids, n ∉ m.body.ids → π.nodes n = n
  blocks : ∀ b ∈ t.toArms.blockIds, b ∉ m.body.blockIds → π.blocks b = b
  values : ∀ v, v ∉ NodeTrees.definitions m.body → v ∉ NodeTrees.definitions copy → π.values v = v
  renewed : ∀ v ∈ NodeTrees.definitions m.body, π.values v = ρ v

namespace Copied

variable {t m : BlockTree} {head : NodeView} {arms : BlockTrees} {copy : NodeTrees}
  {ρ : ValueId → ValueId}

/-- A copy defines the new names of what the arm defines. -/
theorem definitions_eq (hc : Copied t m copy ρ) :
    NodeTrees.definitions copy = (NodeTrees.definitions m.body).map ρ := by
  rw [← Body.definitions_rename (fun _ => ⟨0⟩) (fun _ => ⟨0⟩), ← hc.same, Body.unnumbered,
    Body.definitions_rename, List.map_id']

theorem mentions_eq (hc : Copied t m copy ρ) : copy.mentions = m.body.mentions.map ρ := by
  have h : copy.unnumbered.mentions = copy.mentions := by
    rw [Body.unnumbered, Body.mentions_rename, List.map_id']
  rw [← h, hc.same, Body.mentions_rename]

/-- A copy defines nothing that was there before. -/
theorem not_mem_copy (hc : Copied t m copy ρ) {v : ValueId}
    (hv : v ∈ BlockTrees.definitions t.toArms) : v ∉ NodeTrees.definitions copy := by
  have hdefs := hc.definitions
  rw [List.nodup_append] at hdefs
  exact fun hin => hdefs.2.2 v hv v hin rfl

/-- The copy neither holds nor returns what the conditional defines, outside or inside. -/
theorem not_mem_node (hc : Copied t m copy ρ) (h : Hoistable t head arms m)
    (hwf : t.toArms.WellFormed []) {v : ValueId}
    (hv : v ∈ copy.mentions ∨ v ∈ m.head.returns.map ρ) :
    v ∉ head.outputs ∧ v ∉ BlockTrees.definitions arms := by
  have hnew : v ∈ NodeTrees.definitions copy → v ∉ head.outputs ∧ v ∉ BlockTrees.definitions arms := by
    intro hcopy
    have hout : ∀ w, w ∈ head.outputs ∨ w ∈ BlockTrees.definitions arms →
        w ∈ BlockTrees.definitions t.toArms := by
      intro w hw
      exact (Arms.definitions_perm hwf.ids h.mem).symm.subset
        (List.mem_append_left _ (List.mem_append.2 hw))
    exact ⟨fun ho => hc.not_mem_copy (hout v (Or.inl ho)) hcopy,
      fun ha => hc.not_mem_copy (hout v (Or.inr ha)) hcopy⟩
  -- What the copy mentions is what the arm mentions, under other names.
  have hold : ∃ w, (w ∈ m.body.mentions ∨ w ∈ m.head.returns) ∧ ρ w = v := by
    rw [hc.mentions_eq] at hv
    rcases hv with hv | hv
    · obtain ⟨w, hw, rfl⟩ := List.mem_map.1 hv
      exact ⟨w, Or.inl hw, rfl⟩
    · obtain ⟨w, hw, rfl⟩ := List.mem_map.1 hv
      exact ⟨w, Or.inr hw, rfl⟩
  obtain ⟨w, hw, rfl⟩ := hold
  -- Either it is new, or it has kept its name and comes from outside the conditional.
  by_cases hd : w ∈ NodeTrees.definitions m.body
  · exact hnew (hc.definitions_eq ▸ List.mem_map_of_mem hd)
  · rw [hc.fixed w hd]
    exact (h.mem_of_mentions hwf hw).resolve_left hd

/-- With the copy in its place and what the copy returns for its outputs, nothing holds what the
conditional defines. -/
theorem not_mem_mentions (hc : Copied t m copy ρ) (h : Hoistable t head arms m)
    (hwf : t.toArms.WellFormed []) {v : ValueId}
    (hv : v ∈ head.outputs ++ BlockTrees.definitions arms) :
    v ∉ ((t.toArms.replace head.id copy).subst
      (substitution head.outputs (m.head.returns.map ρ))).mentions := by
  have hlen : head.outputs.length = (m.head.returns.map ρ).length := by
    rw [List.length_map, h.balanced]
  rw [List.mem_append] at hv
  rw [Arms.mentions_subst]
  intro hin
  obtain ⟨w, hw, rfl⟩ := List.mem_map.1 hin
  by_cases hout : w ∈ head.outputs
  · -- What is put in the place of the outputs is returned by the copy, which is outside.
    have hnot := hc.not_mem_node h hwf (Or.inr (substitution_mem hlen hout))
    exact hv.elim hnot.1 hnot.2
  · rw [substitution_of_not_mem hout] at hv
    have hv := hv.resolve_left hout
    -- What is left is mentioned by the copy or outside the conditional.
    have hperm := Arms.collect_replace NodeView.inputs BlockView.returns copy hwf.ids
      (Arms.mem_ids.2 ⟨_, h.mem, rfl⟩)
    rcases List.mem_append.1 (hperm.subset hw) with hw | hw
    · exact (hc.not_mem_node h hwf (Or.inl hw)).2 hv
    · exact hwf.not_mem_mentions h.mem hv hw

/-- Numbers of the copy can be exchanged for those of the arm, which is gone afterwards. -/
theorem exists_relabeling (hc : Copied t m copy ρ) (h : Hoistable t head arms m)
    (hwf : t.toArms.WellFormed []) : ∃ π, Renumbers t m copy ρ π := by
  -- What is in the arm is in the tree, no more often.
  have hsub : ∀ {γ : Type} (f : NodeView → List γ) (k : BlockView → List γ),
      (m.body.collect f k).Subperm (t.toArms.collect f k) := fun f k =>
    ((List.sublist_append_right _ _).trans (Arms.collect_sublist f k h.arm)).subperm.trans
      (((List.sublist_append_right _ _).trans (List.sublist_append_left _ _)).subperm.trans
        (Arms.collect_perm f k hwf.ids h.mem).symm.subperm)
  have hids := hc.ids
  have hbids := hc.blockIds
  have hdefs := hc.definitions
  rw [BlockTrees.definitions_eq_collect] at hdefs
  obtain ⟨π, hπ, hnodes, hblocks, hvalues, hρ⟩ := Body.exists_relabel hc.same
    (nodup_of_subperm ((List.subperm_append_right _).2 (hsub _ _)) hids)
    (nodup_of_subperm ((List.subperm_append_right _).2 (hsub _ _)) hbids)
    (nodup_of_subperm ((List.subperm_append_right _).2
      (NodeTrees.definitions_eq_collect m.body ▸ hsub _ _)) hdefs)
    fun v hv hd => ⟨hc.fixed v hd, hc.not_mem_copy
      ((hwf.scope.mem_of_mentions ((hsub _ _).subset hv)).resolve_left List.not_mem_nil)⟩
  rw [List.nodup_append] at hids hbids
  exact ⟨π, hπ, fun n hn hout => hnodes n hout fun hin => hids.2.2 n hn n hin rfl,
    fun b hb hout => hblocks b hout fun hin => hbids.2.2 b hb b hin rfl, hvalues, hρ⟩

/-- What is left of a tree without the conditional has no part in what the block holds. -/
theorem not_mem_of_left (h : Hoistable t head arms m) (hids : t.toArms.ids.Nodup) {γ : Type}
    (f : NodeView → List γ) (k : BlockView → List γ) (hnodup : (t.toArms.collect f k).Nodup) {x : γ}
    (hx : x ∈ (t.toArms.replace head.id .done).collect f k) :
    x ∈ t.toArms.collect f k ∧ x ∉ m.body.collect f k := by
  have hperm := Arms.collect_perm f k hids h.mem
  refine ⟨hperm.symm.subset (List.mem_append_right _ hx), fun hin => ?_⟩
  have hnodup := hperm.nodup_iff.1 hnodup
  rw [List.nodup_append] at hnodup
  have hin := (Arms.collect_sublist f k h.arm).subset (List.mem_append_right _ hin)
  exact hnodup.2.2 x (List.mem_append_right _ hin) x hx rfl

/-- On what the tree defines, the permutation does what the copy did. -/
theorem values_eq (hc : Copied t m copy ρ) {π : Relabeling} (hπ : Renumbers t m copy ρ π)
    {v : ValueId} (hv : v ∈ BlockTrees.definitions t.toArms) : π.values v = ρ v := by
  by_cases hd : v ∈ NodeTrees.definitions m.body
  · exact hπ.renewed v hd
  · rw [hπ.values v hd (hc.not_mem_copy hv), hc.fixed v hd]

/-- The slots outside the conditional. -/
theorem values_substitution (hc : Copied t m copy ρ) (h : Hoistable t head arms m)
    (hwf : t.toArms.WellFormed []) {π : Relabeling} (hπ : Renumbers t m copy ρ π) {v : ValueId}
    (hv : v ∈ (t.toArms.replace head.id .done).mentions) :
    π.values (substitution head.outputs m.head.returns v) =
      substitution head.outputs (m.head.returns.map ρ) v := by
  have hmentioned : ∀ w ∈ t.toArms.mentions, w ∈ BlockTrees.definitions t.toArms := fun w hw =>
    (hwf.scope.mem_of_mentions hw).resolve_left List.not_mem_nil
  have hperm := Arms.mentions_perm hwf.ids h.mem
  by_cases hout : v ∈ head.outputs
  · rw [substitution_map ρ h.balanced.symm hout]
    refine hc.values_eq hπ (hmentioned _ (hperm.symm.subset ?_))
    refine List.mem_append_left _ (List.mem_append_right _ ?_)
    exact (Arms.collect_sublist _ _ h.arm).subset
      (List.mem_append_left _ (substitution_mem h.balanced.symm hout))
  · rw [substitution_of_not_mem hout, substitution_of_not_mem hout,
      hc.values_eq hπ (hmentioned v (hperm.symm.subset (List.mem_append_right _ hv))),
      hc.fixed v fun hd => hwf.not_mem_mentions h.mem (Arms.definitions_subset h.arm hd) hv]

/-- What is outside the conditional keeps its names. -/
theorem values_of_left (hc : Copied t m copy ρ) (h : Hoistable t head arms m)
    (hwf : t.toArms.WellFormed []) {π : Relabeling} (hπ : Renumbers t m copy ρ π) {v : ValueId}
    (hv : v ∈ BlockTrees.definitions (t.toArms.replace head.id .done)) : π.values v = v := by
  have hdefs := hwf.definitions
  rw [BlockTrees.definitions_eq_collect] at hv hdefs
  obtain ⟨hin, hout⟩ := not_mem_of_left h hwf.ids _ _ hdefs hv
  rw [← BlockTrees.definitions_eq_collect] at hin
  rw [← NodeTrees.definitions_eq_collect] at hout
  exact hπ.values v hout (hc.not_mem_copy hin)

/-- Exchanging the numbers of the copy for those of the original gives the hoisted tree. -/
theorem replace_eq_relabel (hc : Copied t m copy ρ) (h : Hoistable t head arms m)
    (hwf : t.toArms.WellFormed []) {π : Relabeling} (hπ : Renumbers t m copy ρ π) :
    (t.replace head.id copy).subst (substitution head.outputs (m.head.returns.map ρ)) =
      (t.hoisted head m).relabel π := by
  refine BlockTree.toArms_injective ?_
  simp only [BlockTree.hoisted, BlockTree.toArms_subst, BlockTree.toArms_relabel,
    BlockTree.toArms_replace, Arms.relabel, Arms.rename, Arms.subst, Arms.map_map]
  -- The relabeling moves the numbers of the copy and of the original, and nothing else.
  refine (Arms.map_replace_congr ?_ (fun x hx => ?_) fun b hb => ?_).symm
  · rw [← Body.map_map]
    change (m.body.subst (substitution head.outputs m.head.returns)).relabel π = copy.subst _
    rw [h.subst_body hwf, hπ.body]
    exact (Body.subst_eq_self fun v hv =>
      substitution_of_not_mem (hc.not_mem_node h hwf (Or.inl hv)).1).symm
  · have hid : π.nodes x.id = x.id := by
      have hx : x.id ∈ (t.toArms.replace head.id .done).ids :=
        Arms.mem_collect.2 (Or.inl ⟨x, hx, List.mem_singleton_self _⟩)
      obtain ⟨hin, hout⟩ := not_mem_of_left h hwf.ids _ _ hwf.ids hx
      exact hπ.nodes _ hin hout
    have hinputs : (x.inputs.map (substitution head.outputs m.head.returns)).map π.values =
        x.inputs.map (substitution head.outputs (m.head.returns.map ρ)) := by
      rw [List.map_map]
      exact List.map_congr_left fun v hv => hc.values_substitution h hwf hπ
        (Arms.mem_collect.2 (Or.inl ⟨x, hx, hv⟩))
    have houtputs : x.outputs.map π.values = x.outputs := map_eq_self_of_forall fun v hv => by
      refine hc.values_of_left h hwf hπ ?_
      rw [BlockTrees.definitions_eq_collect]
      exact Arms.mem_collect.2 (Or.inl ⟨x, hx, hv⟩)
    simp only [Function.comp, NodeView.rename, NodeView.subst, hid, hinputs, houtputs]
  · have hid : π.blocks b.id = b.id := by
      have hb : b.id ∈ (t.toArms.replace head.id .done).blockIds :=
        Arms.mem_collect.2 (Or.inr ⟨b, hb, List.mem_singleton_self _⟩)
      obtain ⟨hin, hout⟩ := not_mem_of_left h hwf.ids _ _ hwf.blockIds hb
      exact hπ.blocks _ hin hout
    have hreturns : (b.returns.map (substitution head.outputs m.head.returns)).map π.values =
        b.returns.map (substitution head.outputs (m.head.returns.map ρ)) := by
      rw [List.map_map]
      exact List.map_congr_left fun v hv => hc.values_substitution h hwf hπ
        (Arms.mem_collect.2 (Or.inr ⟨b, hb, hv⟩))
    have hparams : b.params.map π.values = b.params := map_eq_self_of_forall fun v hv => by
      refine hc.values_of_left h hwf hπ ?_
      rw [BlockTrees.definitions_eq_collect]
      exact Arms.mem_collect.2 (Or.inr ⟨b, hb, hv⟩)
    simp only [Function.comp, BlockView.rename, BlockView.subst, hid, hreturns, hparams]

end Copied

/-! ### Outputs replaced in a graph -/

theorem BlockTree.subst_subst (σ τ : ValueId → ValueId) (t : BlockTree) :
    (t.subst σ).subst τ = t.subst (τ ∘ σ) :=
  BlockTree.toArms_injective (Arms.subst_subst σ τ t.toArms)

theorem BlockTree.subst_eq_self {σ : ValueId → ValueId} {t : BlockTree}
    (h : ∀ v ∈ t.toArms.mentions, σ v = v) : t.subst σ = t :=
  BlockTree.toArms_injective (Arms.subst_eq_self h)

namespace Graph

variable {g g' : Graph} {t : BlockTree}

/-- One value in the place of another in all slots of the graph is one value in the place of another in
the tree. -/
theorem Represents.substituted (h : g.Represents t) {old new : ValueId}
    (hs : Substituted old new g g') (hm : g'.Mirrored) :
    g'.Represents (t.subst (Function.update id old new)) where
  top := h.top
  -- Only what nodes and blocks hold has changed.
  stand := by
    refine h.stand.subst (fun n hn => ?_) fun b _ => hs.block? b
    obtain ⟨node, hnode, hlive⟩ := h.stand.exists_node hn
    rw [hs.node?, hnode, Option.map_some, Option.map_some, hlive]
    rfl
  nodup_ids := by
    rw [BlockTree.toArms_subst, Arms.ids_subst]
    exact h.nodup_ids
  nodup_blockIds := by
    rw [BlockTree.toArms_subst, Arms.blockIds_subst]
    exact h.nodup_blockIds
  mem_ids n node hn hlive := by
    rw [BlockTree.toArms_subst, Arms.ids_subst]
    rw [hs.node?] at hn
    obtain ⟨before, hbefore, rfl⟩ := Option.map_eq_some_iff.1 hn
    refine h.mem_ids n before hbefore ?_
    split at hlive
    · exact hlive
    · exact hlive
  -- A block outside the tree returns nothing, and nothing is substituted in it.
  returns b block hb hout := by
    rw [BlockTree.toArms_subst, Arms.blockIds_subst] at hout
    rw [hs.block?] at hb
    obtain ⟨before, hbefore, rfl⟩ := Option.map_eq_some_iff.1 hb
    change before.returns.map _ = []
    rw [h.returns b before hbefore hout]
    rfl
  mirrored := hm
  defined v hv := by
    rw [BlockTree.toArms_subst, Arms.definitions_subst] at hv
    rw [hs.values]
    exact h.defined v hv

/-- Output by output, the values that the arm returns take the place of those that the conditional
defines. -/
theorem Represents.replaceOutputs_ok {n : NodeId} : ∀ {new old : List ValueId} {position : Nat}
    {g : Graph} {t : BlockTree}, g.Represents t → (g.outputsOf n).drop position = old →
    old.length = new.length → (∀ r ∈ new, r ∉ old) →
    ∃ g', g.replaceOutputs n position new = .ok g' ∧
      g'.Represents (t.subst (substitution old new)) ∧ g'.values = g.values ∧ g'.types = g.types
  | [], old, position, g, t, h, _, hlen, _ => by
    obtain rfl := List.length_eq_zero_iff.1 hlen
    refine ⟨g, rfl, ?_, rfl, rfl⟩
    rwa [BlockTree.subst_eq_self fun _ _ => substitution_of_not_mem List.not_mem_nil]
  | r :: new, [], position, g, t, _, _, hlen, _ => nomatch hlen
  | r :: new, o :: old, position, g, t, h, hdrop, hlen, hdisj => by
    have houtput : g.output n position = .ok o := by
      have ho : (g.outputsOf n)[position]? = some o := by
        rw [← List.head?_drop, hdrop]
        rfl
      rw [outputsOf] at ho
      cases hn : g.node? n with
      | none => simp [hn] at ho
      | some node =>
        rw [hn] at ho
        rw [output, (g.node_eq_ok_iff).2 hn, ok_bind, ho]
    -- Replacing the first output does not touch the outputs that are still to come.
    obtain ⟨g₁, hreplace, hsub, hm⟩ := h.mirrored.replaceUses_ok o r
    have houtputs : g₁.outputsOf n = g.outputsOf n := by
      rw [outputsOf, outputsOf, hsub.node?]
      cases g.node? n with
      | none => rfl
      | some node => rw [Option.map_some]; dsimp only; split <;> rfl
    have hdrop₁ : (g₁.outputsOf n).drop (position + 1) = old := by
      rw [houtputs, ← List.drop_drop, hdrop]
      rfl
    have hr : r ∉ old := fun hin => hdisj r List.mem_cons_self (List.mem_cons_of_mem _ hin)
    obtain ⟨g', hg', hrep, hvalues, htypes⟩ := (h.substituted hsub hm).replaceOutputs_ok hdrop₁
      (Nat.succ.inj hlen) fun s hs hin =>
        hdisj s (List.mem_cons_of_mem _ hs) (List.mem_cons_of_mem _ hin)
    -- No new value is an old one, so the replacements add up to one substitution.
    rw [BlockTree.subst_subst, substitution_comp_update hr] at hrep
    refine ⟨g', ?_, hrep, hvalues.trans hsub.values, htypes.trans hsub.types⟩
    rw [replaceOutputs, houtput, ok_bind, hreplace, ok_bind, hg']

theorem unfoldArms_member {unfold : BlockId → Except Fault BlockTree} {m : BlockTree} :
    ∀ {arms : BlockTrees}, unfoldArms unfold arms.headIds = .ok arms → m ∈ arms.members →
    unfold m.head.id = .ok m
  | .arm head body rest, h, hm => by
    rw [Arms.headIds_arm, unfoldArms] at h
    obtain ⟨tree, htree, h⟩ := bind_eq_ok_iff.1 h
    obtain ⟨after, hafter, h⟩ := bind_eq_ok_iff.1 h
    obtain ⟨hhead, hbody, rfl⟩ := Arms.arm.inj (Except.ok.inj h)
    rcases List.mem_cons.1 hm with rfl | hm
    · rw [htree, ← hhead, ← hbody]
    · exact unfoldArms_member hafter hm

end Graph

/-! ### The graph afterwards -/

/-- What hoisting the block `m` makes of a graph. -/
structure Hoisted (g : Graph) (t : BlockTree) (head : NodeView) (m : BlockTree) (π : Relabeling)
    (g' : Graph) : Prop where
  represents : g'.Represents ((t.hoisted head m).relabel π)
  types : g'.types = g.types
  label : ∀ v : ValueId, v.index < g.values.size → g'.labelOf (π.values v) = g.labelOf v
  nodes : ∀ n ∈ t.toArms.ids, n ∉ m.body.ids → π.nodes n = n
  blocks : ∀ b ∈ t.toArms.blockIds, b ∉ m.body.blockIds → π.blocks b = b
  values : ∀ v : ValueId, v.index < g.values.size → v ∉ NodeTrees.definitions m.body →
    π.values v = v

theorem Arms.WellFormed.member {m : BlockTree} {visible : List ValueId} : ∀ {arms : BlockTrees},
    arms.WellFormed visible → m ∈ arms.members → m.body.WellFormed (m.head.params ++ visible)
  | .arm head body rest, h, hm => by
    rcases List.mem_cons.1 hm with rfl | hm
    · exact h.inside
    · exact h.after.member hm

namespace Hoistable

variable {g : Graph} {t : BlockTree} {head : NodeView} {arms : BlockTrees} {m : BlockTree}

open Unguard.Graph

/-- The first step copies the contents of the block. -/
theorem copyBefore_ok (h : Hoistable t head arms m) (hg : g.Represents t)
    (hwf : t.toArms.WellFormed []) :
    ∃ c copy, copyBefore head.id ⟨g, .empty⟩ m.body = .ok c ∧
      c.graph.Represents (t.replace head.id (copy ++ .node head arms .done)) ∧
      Copied t m copy c.subst.resolve ∧
      Copying.Renews (NodeTrees.definitions m.body) ⟨g, .empty⟩ c ∧
      ∀ v ∈ NodeTrees.definitions copy, g.values.size ≤ v.index := by
  obtain ⟨b, block, hnode, hblock, hlisted, -⟩ := hg.parent h.mem
  obtain ⟨seen, -, harms, -⟩ := hwf.subtree h.mem
  have hold : ∀ v ∈ NodeTrees.definitions m.body, v.index < g.values.size := by
    intro v hv
    refine hg.defined v ?_
    exact (Arms.definitions_perm hwf.ids h.mem).symm.subset
      (List.mem_append_left _ (List.mem_append_right _ (Arms.definitions_subset h.arm hv)))
  have hanchored : Anchored head.id b g := ⟨⟨_, hnode, rfl⟩, ⟨_, hblock, hlisted⟩⟩
  -- The copy is made of new numbers throughout, which the last three parts come down to.
  obtain ⟨c, copy, hok, hcopies, hm⟩ := copyBefore_copies (c := ⟨g, .empty⟩) (harms.member h.arm) hold
    hanchored hg.mirrored
  have hext := hcopies.grows.extension
  refine ⟨c, copy, hok, hg.grow h.mem hnode hcopies.grows hm, ⟨hcopies.same, fun v hv =>
    (hcopies.renews.resolve v hv).trans (Renaming.resolve_empty v), ?_, ?_, ?_⟩, hcopies.renews,
    fun v hv => (hext.index_of_mem_definitions hv).1⟩
  · refine List.nodup_append.2 ⟨hg.nodup_ids, hext.ids.nodup_iff.2
      (nodup_newIds NodeId.mk_injective), ?_⟩
    rintro n hn _ hn' rfl
    exact absurd (hg.index_lt_of_mem_ids hn) (Nat.not_lt.2 (hext.index_of_mem_ids hn').1)
  · refine List.nodup_append.2 ⟨hg.nodup_blockIds, hext.blockIds.nodup_iff.2
      (nodup_newIds BlockId.mk_injective), ?_⟩
    rintro c hc _ hc' rfl
    exact absurd (hg.index_lt_of_mem_blockIds hc) (Nat.not_lt.2 (hext.index_of_mem_blockIds hc').1)
  · refine List.nodup_append.2 ⟨hwf.definitions, hext.definitions.nodup_iff.2
      (nodup_newIds ValueId.mk_injective), ?_⟩
    rintro v hv _ hv' rfl
    exact absurd (hg.defined v hv) (Nat.not_lt.2 (hext.index_of_mem_definitions hv').1)

/-- With the copy in front of it, the conditional itself is as it was. -/
theorem subst_front (h : Hoistable t head arms m) (hwf : t.toArms.WellFormed []) {copy : NodeTrees}
    {ρ : ValueId → ValueId} (hc : Copied t m copy ρ) :
    (copy ++ .node head arms .done).subst (substitution head.outputs (m.head.returns.map ρ)) =
      copy ++ .node head arms .done := by
  obtain ⟨seen, hinputs, harms, hseen⟩ := hwf.subtree h.mem
  refine Body.subst_eq_self fun v hv => substitution_of_not_mem ?_
  rw [Body.mentions, Body.collect_append, List.mem_append] at hv
  rcases hv with hv | hv
  · exact (hc.not_mem_node h hwf (Or.inl hv)).1
  · change v ∈ (Body.node head arms .done).mentions at hv
    rw [Body.mentions_node, Body.mentions_done, List.append_nil, List.mem_append] at hv
    rcases hv with hv | hv
    · exact hseen v (hinputs hv)
    · rcases harms.scope.mem_of_mentions hv with hv | hv
      · exact hseen v hv
      · exact h.not_mem_outputs_of_mem_arms hwf hv

/-- Putting the copy before the conditional, substituting and taking the conditional out is the same as
putting the copy in its place and substituting. -/
theorem replace_front (h : Hoistable t head arms m) (hwf : t.toArms.WellFormed []) {copy : NodeTrees}
    {ρ : ValueId → ValueId} (hc : Copied t m copy ρ) :
    (((t.replace head.id (copy ++ .node head arms .done)).subst
        (substitution head.outputs (m.head.returns.map ρ))).replace head.id .done) =
      (t.replace head.id copy).subst (substitution head.outputs (m.head.returns.map ρ)) := by
  refine BlockTree.toArms_injective ?_
  have hnot : head.id ∉ copy.ids := by
    have hids := hc.ids
    rw [List.nodup_append] at hids
    exact fun hin => hids.2.2 _ (Arms.mem_ids.2 ⟨_, h.mem, rfl⟩) _ hin rfl
  -- The copy does not mention the outputs, so the substitution passes over it.
  have hcopy : copy.subst (substitution head.outputs (m.head.returns.map ρ)) = copy :=
    Body.subst_eq_self fun v hv => substitution_of_not_mem (hc.not_mem_node h hwf (Or.inl hv)).1
  have hfront : (copy ++ .node head arms .done).replace head.id .done = copy := by
    rw [Body.replace_append, Body.replace_of_not_mem hnot, Body.replace, if_pos rfl]
    exact Body.append_done copy
  simp only [BlockTree.toArms_replace, BlockTree.toArms_subst]
  rw [Arms.subst_replace, Arms.subst_replace, Arms.replace_replace, h.subst_front hwf hc, hcopy,
    hfront]

/-- Hoisting a block of a conditional gives the hoisted tree, up to the numbers of the copies. -/
theorem hoist_ok (h : Hoistable t head arms m) (hg : g.Represents t) (hwf : t.toArms.WellFormed []) :
    ∃ g' π, g.hoist head.id m.head.id = .ok g' ∧ Hoisted g t head m π g' := by
  have htree : g.blockTree m.head.id = .ok m :=
    unfoldArms_member ((hg.stand_inside h.mem).blockTrees_eq
      (hwf.subtree h.mem).choose_spec.2.1.blockIds) h.arm
  -- The three steps: copy the contents, replace the outputs, erase the conditional.
  obtain ⟨c, copy, hcopy, hg₁, hc, hrenews, hnew⟩ := h.copyBefore_ok hg hwf
  have hlen : head.outputs.length = (m.head.returns.map c.subst.resolve).length := by
    rw [List.length_map, h.balanced]
  have hfront : (head, arms) ∈ (copy ++ .node head arms .done).subtrees := by
    rw [Body.subtrees_append]
    exact List.mem_append_right _ List.mem_cons_self
  have hid : head.id ∈ t.toArms.ids := Arms.mem_ids.2 ⟨_, h.mem, rfl⟩
  have houtputs : (c.graph.outputsOf head.id).drop 0 = head.outputs :=
    hg₁.outputsOf_eq (Arms.mem_subtrees_replace_of_mem hfront hid)
  obtain ⟨g₂, hreplace, hg₂, hvalues₂, htypes₂⟩ := hg₁.replaceOutputs_ok houtputs hlen
    fun r hr => (hc.not_mem_node h hwf (Or.inr hr)).1
  obtain ⟨seen, hinputs, harms, hseen⟩ := hwf.subtree h.mem
  have hmem₂ : (head, arms) ∈ ((t.replace head.id (copy ++ .node head arms .done)).subst
      (substitution head.outputs (m.head.returns.map c.subst.resolve))).toArms.subtrees := by
    rw [BlockTree.toArms_subst, BlockTree.toArms_replace, Arms.subst_replace, h.subst_front hwf hc]
    exact Arms.mem_subtrees_replace_of_mem hfront (Arms.ids_subst _ t.toArms ▸ hid)
  obtain ⟨g₃, herase, hg₃, hvalues₃, htypes₃⟩ := hg₂.erase_ok hmem₂ hinputs harms hseen
    fun v hv => by
      rw [← BlockTree.toArms_replace, h.replace_front hwf hc]
      exact hc.not_mem_mentions h hwf hv
  -- The copy has other numbers than the arm, and they are exchanged at the end.
  obtain ⟨π, hπ⟩ := hc.exists_relabeling h hwf
  rw [h.replace_front hwf hc, hc.replace_eq_relabel h hwf hπ] at hg₃
  have hfixed : ∀ v : ValueId, v.index < g.values.size → v ∉ NodeTrees.definitions m.body →
      π.values v = v := fun v hv hd => hπ.values v hd fun hin => absurd hv (Nat.not_lt.2 (hnew v hin))
  refine ⟨g₃, π, ?_, hg₃, ?_, fun v hv => ?_, hπ.nodes, hπ.blocks, hfixed⟩
  · rw [hoist, htree, ok_bind, hcopy, ok_bind, hreplace, ok_bind, herase]
  · rw [htypes₃, htypes₂]
    exact hrenews.types
  · have hlabel : ∀ w, g₃.labelOf w = c.graph.labelOf w := fun w => by
      rw [labelOf, labelOf, value?, value?, hvalues₃, hvalues₂]
    rw [hlabel]
    by_cases hd : v ∈ NodeTrees.definitions m.body
    · rw [hπ.renewed v hd]
      exact hrenews.label v hd
    · rw [hfixed v hv hd]
      exact hrenews.labelOf hv

end Hoistable

/-! ### An arm in the place of its node -/

section Place

variable {head : NodeView} {arms : BlockTrees} {rest : NodeTrees} {m : BlockTree}
  {visible : List ValueId}

/-- What an arm holds is not renamed, since the outputs of its node are not seen in it. -/
theorem Body.WellFormed.subst_arm (hwf : (Body.node head arms rest).WellFormed visible)
    (hm : m ∈ arms.members) (hparams : m.head.params = []) (new : List ValueId) :
    m.body.subst (substitution head.outputs new) = m.body := by
  have hdefs := hwf.definitions
  have hfresh := hwf.fresh
  simp only [NodeTrees.definitions_node, List.nodup_append, List.mem_append, not_or] at hdefs hfresh
  obtain ⟨-, -, hhead⟩ := hdefs
  have hbody := (hwf.scope.2.1.member hm).1
  rw [hparams, List.nil_append] at hbody
  exact hbody.subst_eq_self (fun v hv => substitution_of_not_mem fun ho => (hfresh v hv).1 ho)
    fun v hv => substitution_of_not_mem fun ho =>
      hhead v ho v (Or.inl (Arms.definitions_subset hm hv)) rfl

/-- What takes the place of the outputs of a node is not defined after it. -/
theorem Body.WellFormed.substitution_eq_self (hwf : (Body.node head arms rest).WellFormed visible)
    (hm : m ∈ arms.members) (hparams : m.head.params = [])
    (hlen : m.head.returns.length = head.outputs.length) (v : ValueId)
    (hv : v ∈ NodeTrees.definitions rest ∨
      substitution head.outputs m.head.returns v ∈ NodeTrees.definitions rest) :
    substitution head.outputs m.head.returns v = v := by
  have hdefs := hwf.definitions
  have hfresh := hwf.fresh
  simp only [NodeTrees.definitions_node, List.nodup_append, List.mem_append, not_or] at hdefs hfresh
  obtain ⟨-, ⟨-, -, hsplit⟩, hhead⟩ := hdefs
  have hreturns := (hwf.scope.2.1.member hm).2
  rw [hparams, List.nil_append] at hreturns
  refine substitution_of_not_mem fun ho => ?_
  rcases hv with hv | hv
  · -- Neither the outputs nor what the arm returns are defined by the rest.
    exact hhead v ho v (Or.inr hv) rfl
  · rcases List.mem_append.1 (hreturns (substitution_mem hlen.symm ho)) with hr | hr
    · exact hsplit _ (Arms.definitions_subset hm (Body.outputs_subset_definitions hr)) _ hv rfl
    · exact (hfresh _ hr).2.2 hv

/-- What is seen after a node is not defined in its arms. -/
theorem Body.WellFormed.not_mem_arm (hwf : (Body.node head arms rest).WellFormed visible)
    (hm : m ∈ arms.members) {v : ValueId}
    (hv : v ∈ NodeTrees.definitions rest ∨ v ∈ head.outputs ++ visible) :
    v ∉ NodeTrees.definitions m.body := by
  have hdefs := hwf.definitions
  have hfresh := hwf.fresh
  simp only [NodeTrees.definitions_node, List.nodup_append, List.mem_append, not_or] at hdefs hfresh
  obtain ⟨-, ⟨-, -, hsplit⟩, hhead⟩ := hdefs
  intro hin
  have hin := Arms.definitions_subset hm hin
  rcases hv with hv | hv
  · exact hsplit v hin v hv rfl
  · rcases List.mem_append.1 hv with hv | hv
    · exact hhead v hv v (Or.inl hin) rfl
    · exact (hfresh v hv).2.1 hin

/-- What is seen at the end of a sequence of nodes is not defined in the arms of its first. -/
theorem Body.WellFormed.not_mem_arm_of_outputs
    (hwf : (Body.node head arms rest).WellFormed visible) (hm : m ∈ arms.members) {v : ValueId}
    (hv : v ∈ (Body.node head arms rest).outputs ++ visible) :
    v ∉ NodeTrees.definitions m.body := by
  rw [Body.outputs_node, List.append_assoc, List.mem_append, List.mem_append] at hv
  rcases hv with hv | hv | hv
  · exact hwf.not_mem_arm hm (Or.inr (List.mem_append_left _ hv))
  · exact hwf.not_mem_arm hm (Or.inl (Body.outputs_subset_definitions hv))
  · exact hwf.not_mem_arm hm (Or.inr (List.mem_append_right _ hv))

end Place

/-! ### Runs -/

/-- The sites of hoisting: guarded computations, with their computing arms. -/
def hoistSite (ops : OpSet) (head : NodeView) (arms : BlockTrees) : Option BlockId :=
  (head.computingArm? ops arms).map fun m => m.head.id

theorem Arms.head_id_mem_blockIds {m : BlockTree} {arms : BlockTrees} (h : m ∈ arms.members) :
    m.head.id ∈ arms.blockIds :=
  Arms.headIds_subset_blockIds (arms.map_id_members ▸ List.mem_map_of_mem h)

/-- A guarded computation apart from a hoisted one is left where it is. -/
theorem Hoisted.site_in {g g' : Graph} {t : BlockTree} {head : NodeView} {arms : BlockTrees}
    {m : BlockTree} {π : Relabeling} {ops : OpSet} (h : Hoisted g t head m π g')
    (hh : Hoistable t head arms m) (hwf : t.toArms.WellFormed []) {s : Site BlockId}
    (hs : s.In (hoistSite ops) t.toArms) (hapart : ((head.id :: arms.ids) ++ s.ids).Nodup) :
    s.In (hoistSite ops) ((t.hoisted head m).relabel π).toArms := by
  obtain ⟨⟨first, inside⟩, hq, hid, hids, hsite⟩ := hs
  rw [Site.ids, ← hid, ← hids] at hapart
  -- The site is left of the tree without the hoisted node, so that its numbers stay.
  have hleft := Arms.mem_subtrees_of_apart hwf.ids hh.mem hq hapart .done
  have hnode : ∀ n ∈ first.id :: inside.ids, π.nodes n = n := by
    intro n hn
    have hn : n ∈ (t.toArms.replace head.id .done).ids := by
      rcases List.mem_cons.1 hn with rfl | hn
      · exact Arms.mem_ids.2 ⟨_, hleft, rfl⟩
      · obtain ⟨p, hp, rfl⟩ := Arms.mem_ids.1 hn
        exact Arms.mem_ids.2 ⟨p, Arms.subtrees_trans hleft hp, rfl⟩
    obtain ⟨hin, hout⟩ := Copied.not_mem_of_left hh hwf.ids _ _ hwf.ids hn
    exact h.nodes n hin hout
  have hblock : ∀ b ∈ inside.blockIds, π.blocks b = b := by
    intro b hb
    have hb : b ∈ (t.toArms.replace head.id .done).blockIds :=
      (Arms.blockIds_perm (hwf.nodup_collect hh.mem hwf.ids).of_append_right hleft).symm.subset
        (List.mem_append_left _ hb)
    obtain ⟨hin, hout⟩ := Copied.not_mem_of_left hh hwf.ids _ _ hwf.blockIds hb
    exact h.blocks b hin hout
  refine ⟨((first.subst (substitution head.outputs m.head.returns)).rename π.nodes π.values,
    (inside.subst (substitution head.outputs m.head.returns)).relabel π), ?_, ?_, ?_, ?_⟩
  · have hmem := Arms.mem_subtrees_of_apart hwf.ids hh.mem hq hapart m.body
    simp only [BlockTree.hoisted, BlockTree.toArms_subst, BlockTree.toArms_relabel,
      BlockTree.toArms_replace, Arms.relabel, Arms.rename, Arms.subst, Arms.subtrees_map,
      List.map_map]
    exact List.mem_map.2 ⟨_, hmem, rfl⟩
  · exact (hnode _ List.mem_cons_self).trans hid
  · rw [Arms.relabel, Arms.ids_rename, Arms.ids_subst, ← hids]
    exact (List.map_congr_left fun n hn => hnode n (List.mem_cons_of_mem _ hn)).trans (List.map_id _)
  · rw [hoistSite, Option.map_eq_some_iff] at hsite
    obtain ⟨m', hm', hid'⟩ := hsite
    rw [hoistSite, Arms.relabel, Arms.rename, NodeView.computingArm?_map (faithful_rename ..),
      Arms.subst, NodeView.computingArm?_map (faithful_subst _), hm', ← hid']
    have hb := hblock _ (Arms.head_id_mem_blockIds (NodeView.mem_of_computingArm? hm').1)
    exact congrArg some hb

/-- Hoisting keeps every property of graphs and trees that one hoist keeps. -/
theorem hoisting_sound (ops : OpSet) {X : Graph → BlockTree → Prop}
    (hX : ∀ {g t head arms m g' π}, g.Represents t → t.toArms.WellFormed [] →
      Hoistable t head arms m → head.computingArm? ops arms = some m → Hoisted g t head m π g' →
      X g t → X g' ((t.hoisted head m).relabel π)) :
    (hoisting ops).Sound (hoistSite ops) fun g t => g.Represents t ∧ t.toArms.WellFormed [] ∧
      t.toArms.Shaped ∧ t.toArms.Balanced ∧ X g t where
  represents h := h.1
  site?_eq h p hp := h.1.computingArm?_eq hp ops
  apply_ok := by
    rintro g t ⟨hg, hwf, hshape, hbal, hx⟩ ⟨head, arms⟩ hp a hsite
    rw [hoistSite, Option.map_eq_some_iff] at hsite
    obtain ⟨m, hm, rfl⟩ := hsite
    obtain ⟨hmem, hparams⟩ := NodeView.mem_of_computingArm? hm
    -- The arities match, so the arm returns as many values as the conditional defines.
    have hh : Hoistable t head arms m := ⟨hp, hmem, hparams, hbal _ hp _
      (arms.map_head_members ▸ List.mem_map_of_mem hmem)⟩
    obtain ⟨g', π, hok, hdone⟩ := hh.hoist_ok hg hwf
    refine ⟨g', _, hok, ⟨hdone.represents, ?_, ?_, ?_, hX hg hwf hh hm hdone hx⟩, ?_,
      fun s hs hapart => hdone.site_in hh hwf hs hapart⟩
    · exact (hh.wellFormed hwf).relabel π
    · exact (hh.shaped hshape).map (faithful_rename ..)
    · exact (hh.isBalanced hbal).map (faithful_rename ..)
    · exact hh.conditionals_lt hwf.ids (NodeView.kind_of_computingArm? hm) π

end Unguard
