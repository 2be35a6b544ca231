import Unguard.Proofs.Hoisting
import Unguard.Proofs.Printing
import Unguard.Proofs.Reading
import Unguard.Proofs.Rewriting

/-!
# What hoisting leaves

`Body.splice` goes through nodes once, from the inside out, and puts the contents of the computing arm
in the place of every guarded computation, also of those that only become one because of what was
done to their arms.  The values that take the place of others are carried along in an assignment.

Hoisting one arm of a tree does not change what is left in the end (`Hoistable.splice_hoisted`), a tree
without guarded computations is left as it is (`Arms.splice_eq_self`), and the numbers of nodes, blocks
and values do not matter (`Arms.splice_relabel`).  So a settled run of rounds leaves the spliced tree,
up to numbers, whatever the order in which it found the guarded computations.
-/

namespace Unguard

variable {ops : OpSet}

mutual

/-- Puts the contents of computing arms in the place of guarded computations, once this is done
inside them.  A value `v` is called `σ v` from now on; the result has the names after the last
node. -/
def Body.splice (ops : OpSet) (σ : ValueId → ValueId) :
    NodeTrees → NodeTrees × (ValueId → ValueId)
  | .done => (.done, σ)
  | .node head arms rest =>
    match head.computingArm? ops (arms.splice ops σ) with
    | some arm =>
      let next := rest.splice ops (assign σ head.outputs arm.head.returns)
      (arm.body ++ next.1, next.2)
    | none =>
      let next := rest.splice ops σ
      (.node (head.subst σ) (arms.splice ops σ) next.1, next.2)

/-- Splices what each block holds, and gives what it returns the names after its last node. -/
def Arms.splice (ops : OpSet) (σ : ValueId → ValueId) : BlockTrees → BlockTrees
  | .done => .done
  | .arm head body rest =>
    let inside := body.splice ops σ
    .arm (head.subst inside.2) inside.1 (rest.splice ops σ)

end

/-- Splices what a block holds. -/
def BlockTree.splice (ops : OpSet) (σ : ValueId → ValueId) (t : BlockTree) : BlockTree :=
  let inside := t.body.splice ops σ
  ⟨t.head.subst inside.2, inside.1⟩

theorem BlockTree.toArms_splice (σ : ValueId → ValueId) (t : BlockTree) :
    (t.splice ops σ).toArms = t.toArms.splice ops σ := rfl

theorem Arms.members_splice (σ : ValueId → ValueId) (arms : BlockTrees) :
    (arms.splice ops σ).members = arms.members.map (BlockTree.splice ops σ) := by
  cases arms with
  | done => rfl
  | arm _ _ rest => exact congrArg (List.cons _) (rest.members_splice σ)

section Node

variable {σ : ValueId → ValueId} {head : NodeView} {arms : BlockTrees} {rest : NodeTrees}

theorem Body.splice_node_some {arm : BlockTree}
    (h : head.computingArm? ops (arms.splice ops σ) = some arm) :
    (Body.node head arms rest).splice ops σ =
      (arm.body ++ (rest.splice ops (assign σ head.outputs arm.head.returns)).1,
        (rest.splice ops (assign σ head.outputs arm.head.returns)).2) := by
  rw [Body.splice, h]

theorem Body.splice_node_none (h : head.computingArm? ops (arms.splice ops σ) = none) :
    (Body.node head arms rest).splice ops σ =
      (.node (head.subst σ) (arms.splice ops σ) (rest.splice ops σ).1, (rest.splice ops σ).2) := by
  rw [Body.splice, h]

end Node

/-- What follows is spliced under the substitution that comes out of what is before it. -/
theorem Body.splice_append : ∀ (a b : NodeTrees) (σ : ValueId → ValueId),
    (a ++ b).splice ops σ =
      ((a.splice ops σ).1 ++ (b.splice ops (a.splice ops σ).2).1,
        (b.splice ops (a.splice ops σ).2).2)
  | .done, _, _ => rfl
  | .node head arms rest, b, σ => by
    rw [Body.node_append]
    cases h : head.computingArm? ops (arms.splice ops σ) with
    | some arm =>
      rw [Body.splice_node_some h, Body.splice_node_some h, Body.splice_append rest b,
        Body.append_assoc]
    | none =>
      rw [Body.splice_node_none h, Body.splice_node_none h, Body.splice_append rest b]
      rfl

/-! ### Names -/

/-- Only outputs get new names. -/
theorem Body.splice_snd_of_not_mem {v : ValueId} : ∀ {body : NodeTrees} {σ : ValueId → ValueId},
    v ∉ body.outputs → (body.splice ops σ).2 v = σ v
  | .done, _, _ => rfl
  | .node head arms rest, σ, h => by
    rw [Body.outputs_node, List.mem_append, not_or] at h
    cases harm : head.computingArm? ops (arms.splice ops σ) with
    | some arm =>
      rw [Body.splice_node_some harm]
      exact (Body.splice_snd_of_not_mem h.2).trans (assign_of_not_mem h.1)
    | none =>
      rw [Body.splice_node_none harm]
      exact Body.splice_snd_of_not_mem h.2

section Congr

variable {K : ValueId → Prop}

mutual

/-- Only the names of the values in slots matter. -/
theorem Body.splice_congr (ops : OpSet) : ∀ {body : NodeTrees} {σ σ' : ValueId → ValueId},
    (∀ v, K v → σ v = σ' v) → (∀ v ∈ body.mentions, K v) →
    (body.splice ops σ).1 = (body.splice ops σ').1 ∧
      ∀ v, K v → (body.splice ops σ).2 v = (body.splice ops σ').2 v
  | .done, _, _, hσ, _ => ⟨rfl, hσ⟩
  | .node head arms rest, σ, σ', hσ, hK => by
    simp only [Body.mentions_node, List.forall_mem_append] at hK
    obtain ⟨hinputs, harms, hrest⟩ := hK
    have heq : arms.splice ops σ = arms.splice ops σ' := Arms.splice_congr ops hσ harms
    cases harm : head.computingArm? ops (arms.splice ops σ) with
    | some arm =>
      have hassign : ∀ v, K v → assign σ head.outputs arm.head.returns v =
          assign σ' head.outputs arm.head.returns v := fun v hv => assign_congr (hσ v hv)
      obtain ⟨hnodes, hnames⟩ := Body.splice_congr ops hassign hrest
      rw [Body.splice_node_some harm, Body.splice_node_some (heq ▸ harm), hnodes]
      exact ⟨rfl, hnames⟩
    | none =>
      obtain ⟨hnodes, hnames⟩ := Body.splice_congr ops hσ hrest
      have hhead : head.subst σ = head.subst σ' := by
        rw [NodeView.subst, NodeView.subst, List.map_congr_left fun v hv => hσ v (hinputs v hv)]
      rw [Body.splice_node_none harm, Body.splice_node_none (heq ▸ harm), hnodes, heq, hhead]
      exact ⟨rfl, hnames⟩

/-- The returns of the blocks are among the mentions as well. -/
theorem Arms.splice_congr (ops : OpSet) : ∀ {arms : BlockTrees} {σ σ' : ValueId → ValueId},
    (∀ v, K v → σ v = σ' v) → (∀ v ∈ arms.mentions, K v) → arms.splice ops σ = arms.splice ops σ'
  | .done, _, _, _, _ => rfl
  | .arm head body rest, σ, σ', hσ, hK => by
    simp only [Arms.mentions_arm, List.forall_mem_append] at hK
    obtain ⟨hreturns, hbody, hrest⟩ := hK
    obtain ⟨hnodes, hnames⟩ := Body.splice_congr ops hσ hbody
    have hhead : head.subst (body.splice ops σ).2 = head.subst (body.splice ops σ').2 := by
      rw [BlockView.subst, BlockView.subst,
        List.map_congr_left fun v hv => hnames v (hreturns v hv)]
    rw [Arms.splice, Arms.splice, hnodes, hhead, Arms.splice_congr ops hσ hrest]

end

end Congr

section Subst

variable {θ : ValueId → ValueId}

mutual

/-- Renaming the values in slots first, where the renaming leaves what the nodes define alone. -/
theorem Body.splice_subst (ops : OpSet) : ∀ (body : NodeTrees) (σ : ValueId → ValueId),
    (∀ v, v ∈ NodeTrees.definitions body ∨ θ v ∈ NodeTrees.definitions body → θ v = v) →
    ((body.subst θ).splice ops σ).1 = (body.splice ops (σ ∘ θ)).1 ∧
      ((body.subst θ).splice ops σ).2 ∘ θ = (body.splice ops (σ ∘ θ)).2
  | .done, _, _ => ⟨rfl, rfl⟩
  | .node head arms rest, σ, hθ => by
    simp only [NodeTrees.definitions_node, List.mem_append] at hθ
    have harms : (arms.subst θ).splice ops σ = arms.splice ops (σ ∘ θ) :=
      Arms.splice_subst ops arms σ fun v hv => hθ v (hv.imp (fun h => Or.inr (Or.inl h))
        fun h => Or.inr (Or.inl h))
    have hrest : ∀ v, v ∈ NodeTrees.definitions rest ∨ θ v ∈ NodeTrees.definitions rest → θ v = v :=
      fun v hv => hθ v (hv.imp (fun h => Or.inr (Or.inr h)) fun h => Or.inr (Or.inr h))
    have hnode : (Body.node head arms rest).subst θ =
      .node (head.subst θ) (arms.subst θ) (rest.subst θ) := rfl
    rw [hnode]
    -- Whether there is a computing arm depends on the blocks as they are left, not on the names.
    cases harm : head.computingArm? ops (arms.splice ops (σ ∘ θ)) with
    | some arm =>
      have hassign : assign σ head.outputs arm.head.returns ∘ θ =
          assign (σ ∘ θ) head.outputs arm.head.returns :=
        assign_comp (fun v hv => hθ v (hv.imp Or.inl Or.inl)) _
      obtain ⟨hnodes, hnames⟩ := Body.splice_subst ops rest
        (assign σ head.outputs arm.head.returns) hrest
      rw [hassign] at hnodes hnames
      have harm' : (head.subst θ).computingArm? ops ((arms.subst θ).splice ops σ) = some arm :=
        harms ▸ harm
      rw [Body.splice_node_some harm', Body.splice_node_some harm]
      exact ⟨congrArg (arm.body ++ ·) hnodes, hnames⟩
    | none =>
      obtain ⟨hnodes, hnames⟩ := Body.splice_subst ops rest σ hrest
      have hhead : (head.subst θ).subst σ = head.subst (σ ∘ θ) := by
        rw [NodeView.subst, NodeView.subst, NodeView.subst, List.map_map]
      have harm' : (head.subst θ).computingArm? ops ((arms.subst θ).splice ops σ) = none :=
        harms ▸ harm
      rw [Body.splice_node_none harm', Body.splice_node_none harm, hnodes, harms, hhead]
      exact ⟨rfl, hnames⟩

/-- No block defines anything for another, so all of them are under the same substitution. -/
theorem Arms.splice_subst (ops : OpSet) : ∀ (arms : BlockTrees) (σ : ValueId → ValueId),
    (∀ v, v ∈ BlockTrees.definitions arms ∨ θ v ∈ BlockTrees.definitions arms → θ v = v) →
    (arms.subst θ).splice ops σ = arms.splice ops (σ ∘ θ)
  | .done, _, _ => rfl
  | .arm head body rest, σ, hθ => by
    simp only [BlockTrees.definitions_arm, List.mem_append] at hθ
    obtain ⟨hnodes, hnames⟩ := Body.splice_subst ops body σ fun v hv =>
      hθ v (hv.imp (fun h => Or.inr (Or.inl h)) fun h => Or.inr (Or.inl h))
    have hrest := Arms.splice_subst ops rest σ fun v hv =>
      hθ v (hv.imp (fun h => Or.inr (Or.inr h)) fun h => Or.inr (Or.inr h))
    have harm : (Arms.arm head body rest).subst θ =
      .arm (head.subst θ) (body.subst θ) (rest.subst θ) := rfl
    have hhead : (head.subst θ).subst ((body.subst θ).splice ops σ).2 =
        head.subst (body.splice ops (σ ∘ θ)).2 := by
      rw [← hnames, BlockView.subst, BlockView.subst, BlockView.subst, List.map_map]
    rw [harm, Arms.splice, Arms.splice, hnodes, hrest, hhead]

end

end Subst

/-! ### Computing arms stay computing arms -/

/-- A last node that is not a conditional stays last. -/
theorem Body.getLast?_heads_splice (ops : OpSet) {x : NodeView} (hx : x.kind ≠ .conditional) :
    ∀ (body : NodeTrees) (σ : ValueId → ValueId), body.heads.getLast? = some x →
    ∃ τ, (body.splice ops σ).1.heads.getLast? = some (x.subst τ)
  | .node head arms .done, σ, h => by
    obtain rfl : head = x := Option.some.inj h
    -- Only conditionals are spliced.
    have hnone : head.computingArm? ops (arms.splice ops σ) = none := by
      refine Option.eq_none_iff_forall_ne_some.2 fun arm harm => ?_
      obtain ⟨_, _, _, hbare, -⟩ := NodeView.computingArm?_eq_some_iff.1 harm
      exact hx (NodeView.members_of_bareArms? hbare).1
    rw [Body.splice_node_none hnone]
    exact ⟨σ, rfl⟩
  | .node head arms (.node next inside rest), σ, h => by
    rw [Body.heads, Body.heads, List.getLast?_cons_cons] at h
    cases harm : head.computingArm? ops (arms.splice ops σ) with
    | some arm =>
      obtain ⟨τ, hτ⟩ := Body.getLast?_heads_splice ops hx (.node next inside rest)
        (assign σ head.outputs arm.head.returns) h
      refine ⟨τ, ?_⟩
      rw [Body.splice_node_some harm, Body.heads_append, List.getLast?_append, hτ]
      rfl
    | none =>
      obtain ⟨τ, hτ⟩ := Body.getLast?_heads_splice ops hx (.node next inside rest) σ h
      refine ⟨τ, ?_⟩
      rw [Body.splice_node_none harm, Body.heads, List.getLast?_cons, hτ]
      rfl

/-- Splicing leaves the last node where it is, unless that is a conditional. -/
theorem Body.ending_splice {body : NodeTrees} (hne : body.ending ≠ .empty)
    (hkind : body.ending ≠ .inOther .conditional) (σ : ValueId → ValueId) :
    (body.splice ops σ).1.ending = body.ending := by
  rw [Body.ending] at hne hkind ⊢
  rw [Body.ending]
  cases hlast : body.heads.getLast? with
  | none =>
    rw [hlast] at hne
    exact absurd rfl hne
  | some x =>
    rw [hlast] at hkind
    have hx : x.kind ≠ .conditional := by
      intro hc
      simp only [hc, reduceCtorEq, if_false, ne_eq, not_true_eq_false] at hkind
    obtain ⟨τ, hτ⟩ := Body.getLast?_heads_splice ops hx body σ hlast
    rw [hτ]
    rfl

/-- A guarded computation is still one after splicing its arms, with the same computing arm. -/
theorem NodeView.computingArm?_splice {head : NodeView} {arms : BlockTrees} {m : BlockTree}
    (h : head.computingArm? ops arms = some m) (σ : ValueId → ValueId) :
    head.computingArm? ops (arms.splice ops σ) = some (m.splice ops σ) := by
  obtain ⟨first, second, kind, hbare, hkind, hends⟩ := NodeView.computingArm?_eq_some_iff.1 h
  have hbare' : head.bareArms? (arms.splice ops σ) =
      some (first.splice ops σ, second.splice ops σ) := by
    rw [NodeView.bareArms?_of_members rfl (arms.members_splice σ) fun _ => Iff.rfl, hbare]
    rfl
  have hraise : ∀ {body : NodeTrees}, body.ending = .inRaise →
      (body.splice ops σ).1.ending = .inRaise := fun hend =>
    (Body.ending_splice (hend ▸ nofun) (hend ▸ nofun) σ).trans hend
  have hop : ∀ {body : NodeTrees}, body.ending = .inOther kind →
      (body.splice ops σ).1.ending = .inOther kind := fun hend =>
    (Body.ending_splice (hend ▸ nofun)
      (hend ▸ fun heq => by rw [ArmEnding.inOther.inj heq] at hkind; exact nomatch hkind) σ).trans hend
  refine NodeView.computingArm?_eq_some_iff.2 ⟨_, _, kind, hbare', hkind, ?_⟩
  rcases hends with ⟨h₁, h₂, rfl⟩ | ⟨h₁, h₂, rfl⟩
  · exact Or.inl ⟨hop h₁, hraise h₂, rfl⟩
  · exact Or.inr ⟨hraise h₁, hop h₂, rfl⟩

/-! ### The order of hoists -/

/-- Nodes that see `visible` leave the same as others, and the same names but for a renaming. -/
def Body.SplicesAlike (ops : OpSet) (θ : ValueId → ValueId) (visible : List ValueId)
    (body body' : NodeTrees) : Prop :=
  ∀ σ : ValueId → ValueId, (body'.splice ops σ).1 = (body.splice ops σ).1 ∧
    ∀ v ∈ body.outputs ++ visible, (body'.splice ops σ).2 (θ v) = (body.splice ops σ).2 v

/-- A guarded computation leaves the same as its computing arm in its place. -/
theorem Body.splicesAlike_hoisted {head : NodeView} {arms : BlockTrees} {m : BlockTree}
    (harm : head.computingArm? ops arms = some m)
    (hlen : m.head.returns.length = head.outputs.length) {rest : NodeTrees} {visible : List ValueId}
    (hwf : (Body.node head arms rest).WellFormed visible) :
    Body.SplicesAlike ops (substitution head.outputs m.head.returns) visible
      (.node head arms rest) ((m.body ++ rest).subst (substitution head.outputs m.head.returns)) := by
  intro σ
  obtain ⟨hm, hparams⟩ := NodeView.mem_of_computingArm? harm
  obtain ⟨hnodes, hnames⟩ := Body.splice_subst ops rest (m.body.splice ops σ).2
    (hwf.substitution_eq_self hm hparams hlen)
  -- Outside the arm, the names after it are those given to the outputs of the node.
  have hagree : ∀ v, v ∉ NodeTrees.definitions m.body →
      ((m.body.splice ops σ).2 ∘ substitution head.outputs m.head.returns) v =
        assign σ head.outputs (m.splice ops σ).head.returns v := by
    intro v hv
    rw [Function.comp]
    by_cases ho : v ∈ head.outputs
    · rw [substitution, comp_assign (m.body.splice ops σ).2 id]
      exact assign_of_mem _ _ (by rw [List.length_map, hlen]) ho
    · rw [substitution_of_not_mem ho, assign_of_not_mem ho]
      exact Body.splice_snd_of_not_mem fun hout => hv (Body.outputs_subset_definitions hout)
  obtain ⟨hnodes', hnames'⟩ := Body.splice_congr ops hagree fun v hv =>
    hwf.not_mem_arm hm (hwf.scope.2.2.mem_of_mentions hv).symm
  rw [Body.subst_append, hwf.subst_arm hm hparams, Body.splice_append,
    Body.splice_node_some (NodeView.computingArm?_splice harm σ)]
  exact ⟨congrArg ((m.splice ops σ).body ++ ·) (hnodes.trans hnodes'), fun v hv =>
    (congrFun hnames v).trans (hnames' v (hwf.not_mem_arm_of_outputs hm hv))⟩

section Rewrites

variable {θ : ValueId → ValueId}

mutual

/-- Where a hoist is made at any depth, both bodies splice alike. -/
theorem Body.Rewrites.splicesAlike : ∀ {visible : List ValueId} {body body' : NodeTrees},
    body.Rewrites (fun _ => True) (Body.SplicesAlike ops θ) θ visible body' →
    Body.SplicesAlike ops θ visible body body'
  | _, _, _, .here h => h
  | visible, .node head arms rest, .node _ arms' _, .inside hθ h => by
    intro σ
    -- The arms splice to the same, so it is the same arm that computes.
    have harms : arms'.splice ops σ = arms.splice ops σ := Arms.Rewrites.splice_eq h σ
    have hsame : (Body.node head arms' rest).splice ops σ =
        (Body.node head arms rest).splice ops σ := by
      rw [Body.splice, Body.splice, harms]
    rw [hsame]
    exact ⟨rfl, fun v hv => by rw [hθ v hv]⟩
  | visible, .node head arms rest, .node _ _ rest', .after h => by
    intro σ
    -- The node is the same on both sides; only the substitution for the rest depends on it.
    cases harm : head.computingArm? ops (arms.splice ops σ) with
    | some arm =>
      obtain ⟨hnodes, hnames⟩ := Body.Rewrites.splicesAlike h
        (assign σ head.outputs arm.head.returns)
      rw [Body.splice_node_some harm, Body.splice_node_some harm, hnodes]
      exact ⟨rfl, fun v hv => hnames v (Body.mem_outputs_node.1 hv)⟩
    | none =>
      obtain ⟨hnodes, hnames⟩ := Body.Rewrites.splicesAlike h σ
      rw [Body.splice_node_none harm, Body.splice_node_none harm, hnodes]
      exact ⟨rfl, fun v hv => hnames v (Body.mem_outputs_node.1 hv)⟩

/-- Rewriting nodes to others that leave the same does not change what is left of a tree. -/
theorem Arms.Rewrites.splice_eq : ∀ {visible : List ValueId} {arms arms' : BlockTrees},
    arms.Rewrites (fun _ => True) (Body.SplicesAlike ops θ) θ visible arms' →
    ∀ σ : ValueId → ValueId, arms'.splice ops σ = arms.splice ops σ
  | visible, .arm head body rest, .arm _ body' _, .inside hreturns h, σ => by
    obtain ⟨hnodes, hnames⟩ := Body.Rewrites.splicesAlike h σ
    have hmap : head.returns.map ((body'.splice ops σ).2 ∘ θ) =
        head.returns.map (body.splice ops σ).2 :=
      List.map_congr_left fun v hv => hnames v (hreturns v hv).1
    have hhead : (head.subst θ).subst (body'.splice ops σ).2 = head.subst (body.splice ops σ).2 := by
      rw [BlockView.subst, BlockView.subst, BlockView.subst, List.map_map, hmap]
    rw [Arms.splice, Arms.splice, hnodes, hhead]
  | visible, .arm head body rest, .arm _ _ rest', .after h, σ => by
    rw [Arms.splice, Arms.splice, Arms.Rewrites.splice_eq h σ]

end

end Rewrites

/-- Hoisting an arm does not change what is left in the end. -/
theorem Hoistable.splice_hoisted {t : BlockTree} {head : NodeView} {arms : BlockTrees} {m : BlockTree}
    (h : Hoistable t head arms m) (harm : head.computingArm? ops arms = some m)
    {visible : List ValueId} (hwf : t.toArms.WellFormed visible) (σ : ValueId → ValueId) :
    (t.hoisted head m).splice ops σ = t.splice ops σ := by
  refine BlockTree.toArms_injective ?_
  exact (Arms.rewrites_replace (fun v hv => substitution_of_not_mem hv)
    (fun hrest _ => Body.splicesAlike_hoisted harm h.balanced hrest) hwf h.mem
    fun _ _ => trivial).splice_eq σ

/-! ### Trees without guarded computations -/

mutual

/-- Without guarded computations there is nothing to splice. -/
theorem Body.splice_eq_self : ∀ {body : NodeTrees},
    (∀ p ∈ body.subtrees, p.1.computingArm? ops p.2 = none) → body.splice ops id = (body, id)
  | .done, _ => rfl
  | .node head arms rest, h => by
    rw [Body.subtrees, List.forall_mem_cons, List.forall_mem_append] at h
    have harms : arms.splice ops id = arms := Arms.splice_eq_self h.2.1
    rw [Body.splice_node_none (harms.symm ▸ h.1), harms, Body.splice_eq_self h.2.2,
      NodeView.subst_eq_self (σ := id) fun _ _ => rfl]

theorem Arms.splice_eq_self : ∀ {arms : BlockTrees},
    (∀ p ∈ arms.subtrees, p.1.computingArm? ops p.2 = none) → arms.splice ops id = arms
  | .done, _ => rfl
  | .arm head body rest, h => by
    rw [Arms.subtrees, List.forall_mem_append] at h
    rw [Arms.splice, Body.splice_eq_self h.1, Arms.splice_eq_self h.2,
      BlockView.subst_eq_self (σ := id) fun _ _ => rfl]

end

/-! ### Other numbers -/

section Relabel

variable (π : Relabeling)

/-- The names given by `σ` under other numbers. -/
def Relabeling.conj (σ : ValueId → ValueId) : ValueId → ValueId :=
  π.values ∘ σ ∘ π.values.symm

theorem Relabeling.map_conj (σ : ValueId → ValueId) (vs : List ValueId) :
    (vs.map π.values).map (π.conj σ) = (vs.map σ).map π.values := by
  rw [List.map_map, List.map_map]
  exact List.map_congr_left fun v _ => by simp [Relabeling.conj]

mutual

/-- Splicing does not look at numbers. The substitution is conjugated, since it is one of other numbers. -/
theorem Body.splice_relabel (ops : OpSet) : ∀ (body : NodeTrees) (σ : ValueId → ValueId),
    (body.relabel π).splice ops (π.conj σ) =
      ((body.splice ops σ).1.relabel π, π.conj (body.splice ops σ).2)
  | .done, _ => rfl
  | .node head arms rest, σ => by
    have harms : (arms.relabel π).splice ops (π.conj σ) = (arms.splice ops σ).relabel π :=
      Arms.splice_relabel ops arms σ
    have hnode : (Body.node head arms rest).relabel π =
      .node (head.rename π.nodes π.values) (arms.relabel π) (rest.relabel π) := rfl
    -- A relabeling finds the same arm, with other numbers.
    have harm := NodeView.computingArm?_map (faithful_rename π.nodes π.blocks π.values) ops head
      (arms.splice ops σ)
    change (head.rename π.nodes π.values).computingArm? ops ((arms.splice ops σ).relabel π) = _ at harm
    rw [← harms] at harm
    rw [hnode]
    cases hfound : head.computingArm? ops (arms.splice ops σ) with
    | some arm =>
      rw [hfound] at harm
      have hassign : assign (π.conj σ) (head.outputs.map π.values)
          (arm.head.returns.map π.values) = π.conj (assign σ head.outputs arm.head.returns) :=
        funext fun w => assign_equiv π.values π.values σ w _ _
      have hnext := Body.splice_relabel ops rest (assign σ head.outputs arm.head.returns)
      rw [← hassign] at hnext
      rw [Body.splice_node_some hfound, Body.splice_node_some harm]
      refine (congrArg (fun next => (arm.body.relabel π ++ next.1, next.2)) hnext).trans ?_
      exact congrArg (·, π.conj _) (Body.rename_append ..).symm
    | none =>
      rw [hfound] at harm
      have hhead : (head.rename π.nodes π.values).subst (π.conj σ) =
          (head.subst σ).rename π.nodes π.values := by
        rw [NodeView.subst, NodeView.subst, NodeView.rename, NodeView.rename, π.map_conj]
      rw [Body.splice_node_none hfound, Body.splice_node_none harm, Body.splice_relabel ops rest, harms,
        hhead]
      rfl

/-- The numbers do not matter to splicing. -/
theorem Arms.splice_relabel (ops : OpSet) : ∀ (arms : BlockTrees) (σ : ValueId → ValueId),
    (arms.relabel π).splice ops (π.conj σ) = (arms.splice ops σ).relabel π
  | .done, _ => rfl
  | .arm head body rest, σ => by
    have harm : (Arms.arm head body rest).relabel π =
      .arm (head.rename π.blocks π.values) (body.relabel π) (rest.relabel π) := rfl
    have hhead : (head.rename π.blocks π.values).subst (π.conj (body.splice ops σ).2) =
        (head.subst (body.splice ops σ).2).rename π.blocks π.values := by
      rw [BlockView.subst, BlockView.subst, BlockView.rename, BlockView.rename, π.map_conj]
    rw [harm, Arms.splice, Arms.splice, Body.splice_relabel ops body, Arms.splice_relabel ops rest, hhead]
    rfl

end

/-- A spliced tree has the new numbers if the tree has them. -/
theorem BlockTree.splice_relabel (t : BlockTree) :
    (t.relabel π).splice ops id = (t.splice ops id).relabel π := by
  have hid : π.conj id = id := funext fun v => π.values.apply_symm_apply v
  refine BlockTree.toArms_injective ?_
  have h := Arms.splice_relabel π ops t.toArms id
  rw [hid] at h
  exact h

end Relabel

/-! ### What is in a spliced tree -/

theorem append_subset_append {γ : Type} {a b c d : List γ} (hab : a ⊆ b) (hcd : c ⊆ d) :
    a ++ c ⊆ b ++ d :=
  List.append_subset.2 ⟨List.Subset.trans hab (List.subset_append_left _ _),
    List.Subset.trans hcd (List.subset_append_right _ _)⟩

section Collect

variable {γ : Type} {f : NodeView → List γ} {k : BlockView → List γ}

mutual

/-- Splicing takes nodes out and puts none in, and only substitutes in those that it keeps. -/
theorem Body.collect_splice_subset (ops : OpSet) (hf : ∀ σ x, f (NodeView.subst σ x) = f x)
    (hk : ∀ σ b, k (BlockView.subst σ b) = k b) : ∀ (body : NodeTrees) (σ : ValueId → ValueId),
    (body.splice ops σ).1.collect f k ⊆ body.collect f k
  | .done, _ => List.Subset.refl _
  | .node head arms rest, σ => by
    have harms := Arms.collect_splice_subset ops hf hk arms σ
    rw [Body.collect]
    cases harm : head.computingArm? ops (arms.splice ops σ) with
    | some arm =>
      rw [Body.splice_node_some harm, Body.collect_append, List.append_subset]
      have hsub := Arms.collect_sublist f k (NodeView.mem_of_computingArm? harm).1
      have hbody := List.Subset.trans ((List.sublist_append_right _ _).trans hsub).subset harms
      refine ⟨List.Subset.trans hbody ?_, List.Subset.trans
        (Body.collect_splice_subset ops hf hk rest _) ?_⟩
      · exact List.Subset.trans (List.subset_append_left _ _) (List.subset_append_right _ _)
      · exact List.Subset.trans (List.subset_append_right _ _) (List.subset_append_right _ _)
    | none =>
      rw [Body.splice_node_none harm, Body.collect, hf]
      exact append_subset_append (List.Subset.refl _)
        (append_subset_append harms (Body.collect_splice_subset ops hf hk rest _))

/-- Nodes and blocks of a spliced tree come from the tree. -/
theorem Arms.collect_splice_subset (ops : OpSet) (hf : ∀ σ x, f (NodeView.subst σ x) = f x)
    (hk : ∀ σ b, k (BlockView.subst σ b) = k b) : ∀ (arms : BlockTrees) (σ : ValueId → ValueId),
    (arms.splice ops σ).collect f k ⊆ arms.collect f k
  | .done, _ => List.Subset.refl _
  | .arm head body rest, σ => by
    rw [Arms.splice, Arms.collect, Arms.collect, hk]
    exact append_subset_append (List.Subset.refl _) (append_subset_append
      (Body.collect_splice_subset ops hf hk body σ) (Arms.collect_splice_subset ops hf hk rest σ))

end

end Collect

theorem BlockTree.definitions_splice_subset (t : BlockTree) (σ : ValueId → ValueId) :
    BlockTrees.definitions (t.splice ops σ).toArms ⊆ BlockTrees.definitions t.toArms := by
  rw [BlockTrees.definitions_eq_collect, BlockTrees.definitions_eq_collect, BlockTree.toArms_splice]
  exact Arms.collect_splice_subset ops (fun _ _ => rfl) (fun _ _ => rfl) t.toArms σ

/-- Attributes are carried over as they are. -/
theorem BlockTree.attributes_splice {t : BlockTree} {σ : ValueId → ValueId} {x : NodeView}
    (hx : x ∈ (t.splice ops σ).toArms.nodes) : ∃ y ∈ t.toArms.nodes, y.attributes = x.attributes := by
  have hsub := Arms.collect_splice_subset ops (f := fun x => [x.attributes])
    (k := fun _ => []) (fun _ _ => rfl) (fun _ _ => rfl) t.toArms σ
  have hmem := hsub (Arms.mem_collect.2 (Or.inl ⟨x, hx, List.mem_singleton_self _⟩))
  rcases Arms.mem_collect.1 hmem with ⟨y, hy, heq⟩ | ⟨b, -, heq⟩
  · exact ⟨y, hy, (List.mem_singleton.1 heq).symm⟩
  · exact nomatch heq

/-! ### Runs -/

/-- One hoist does not change the text that is left in the end. -/
theorem Hoisted.textOf_splice {g g' : Graph} {t : BlockTree} {head : NodeView} {arms : BlockTrees}
    {m : BlockTree} {π : Relabeling} (h : Hoisted g t head m π g') (hg : g.Represents t)
    (hwf : t.toArms.WellFormed []) (hh : Hoistable t head arms m)
    (harm : head.computingArm? ops arms = some m) :
    g'.textOf (((t.hoisted head m).relabel π).splice ops id) = g.textOf (t.splice ops id) := by
  have hsame := hh.splice_hoisted harm hwf id
  rw [BlockTree.splice_relabel, hsame]
  refine Graph.textOf_relabel h.types fun v hv => ?_
  have hold : v.index < g.values.size := hg.defined v (t.definitions_splice_subset id hv)
  have hnew : (π.values v).index < g'.values.size := by
    refine h.represents.defined _ ?_
    rw [BlockTree.toArms_relabel, Arms.relabel, Arms.definitions_rename]
    exact List.mem_map_of_mem ((t.hoisted head m).definitions_splice_subset id (hsame ▸ hv))
  rw [Graph.typeOf_eq hold, Graph.typeOf_eq hnew, h.types, h.label v hold]

/-- **Hoisting splices the tree.**  A settled run on the graph of a text whose conditionals return what
they should leaves a graph with the text of the spliced tree. -/
theorem text_hoisting (source : String) (g : Graph) (ops : OpSet) (limit : Nat)
    (hread : Graph.ofText source = .ok g) (harity : g.firstMismatch = .ok none) :
    ∃ t run, g.tree = .ok t ∧ (hoisting ops).run limit g = .ok run ∧
      (run.settled = true → ∃ text, run.graph.text = .ok text ∧
        g.textOf (t.splice ops id) = .ok text) := by
  obtain ⟨t, hg, hwf, hshape⟩ := Graph.ofText_represents hread
  have hbal := (hg.firstMismatch_eq_ok_none_iff hshape).1 harity
  have hsound := hoisting_sound ops
    (X := fun g' t' => g'.textOf (t'.splice ops id) = g.textOf (t.splice ops id))
    fun hg hwf hh harm hdone hx => (hdone.textOf_splice hg hwf hh harm).trans hx
  obtain ⟨run, t', hrun, ⟨hrep, -, hshape', -, htext⟩, hsettled⟩ :=
    hsound.run_ok limit ⟨hg, hwf, hshape, hbal, rfl⟩ harity
  refine ⟨t, run, hg.tree_eq, hrun, fun hset => ?_⟩
  have htyped := Graph.typed_ofText hread
  obtain ⟨text, hwritten⟩ := htyped.textOf_ok (t := t.splice ops id)
    (fun v hv => hg.defined v (t.definitions_splice_subset id hv)) fun x hx => by
      obtain ⟨y, hy, heq⟩ := BlockTree.attributes_splice hx
      exact heq ▸ htyped.within_of_represents hg hy
  have hself : t'.splice ops id = t' := BlockTree.toArms_injective (Arms.splice_eq_self fun p hp =>
    Option.map_eq_none_iff.1 (hsettled hset p hp))
  exact ⟨text, by rw [hrep.text_eq hshape', ← hwritten, ← htext, hself], hwritten⟩

/-- A guarded computation inside another one. -/
def nestedComputations : String :=
  "graph(%c: core.bool, %x: core.t) \x7b %y = if(%c) : core.t \x7b %z = if(%c) : core.t \x7b " ++
    "%u = aten.f(%x) : core.t return %u \x7d else \x7b raise() return %x \x7d " ++
    "%w = aten.f(%z) : core.t return %w \x7d else \x7b raise() return %x \x7d return %y \x7d"

theorem text_hoisting_nestedComputations :
    ∃ g t run, Graph.ofText nestedComputations = .ok g ∧ g.firstMismatch = .ok none ∧
      g.tree = .ok t ∧ (hoisting (.ofList [⟨"aten", "f"⟩])).run 0 g = .ok run ∧
      run.settled = true ∧ g.textOf (t.splice (.ofList [⟨"aten", "f"⟩]) id) = run.graph.text ∧
      run.graph.text = .ok ("graph(%0: core.bool, %1: core.t) \x7b\n  %2 = aten.f(%1) : core.t\n" ++
        "  %3 = aten.f(%2) : core.t\n  return %3\n\x7d\n") := by
  have harity : (Graph.ofText nestedComputations).toOption.map (fun g => g.firstMismatch.toOption) =
      some (some none) := by decide +kernel
  have hrun : (Graph.ofText nestedComputations).toOption.map (fun g =>
      ((hoisting (.ofList [⟨"aten", "f"⟩])).run 0 g).toOption.map fun run =>
        (run.settled, run.graph.text.toOption)) =
      some (some (true, some ("graph(%0: core.bool, %1: core.t) \x7b\n" ++
        "  %2 = aten.f(%1) : core.t\n  %3 = aten.f(%2) : core.t\n  return %3\n\x7d\n"))) := by
    decide +kernel
  simp only [Option.map_eq_some_iff, toOption_eq_some_iff] at harity
  obtain ⟨g, hread, harity⟩ := harity
  obtain ⟨t, run, htree, hok, hleft⟩ := text_hoisting nestedComputations g
    (.ofList [⟨"aten", "f"⟩]) 0 hread harity
  rw [hread] at hrun
  simp only [Except.toOption, Option.map_some, hok, Option.some.injEq, Prod.mk.injEq] at hrun
  obtain ⟨text, hwritten, hspliced⟩ := hleft hrun.1
  refine ⟨g, t, run, hread, harity, htree, hok, hrun.1, hspliced.trans hwritten.symm, ?_⟩
  rw [hwritten] at hrun ⊢
  exact congrArg Except.ok (Option.some.inj hrun.2)

end Unguard
