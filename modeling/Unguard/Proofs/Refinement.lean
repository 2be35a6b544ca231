import Unguard.Proofs.Guards
import Unguard.Proofs.Hoisting
import Unguard.Proofs.Rewriting
import Unguard.Proofs.Running

/-!
# Rewritings that keep runs

Nodes refine others if they run without a raise whenever the others do, with the same calls, and leave
the same values.  A rewriting at one place keeps the runs of a whole block if it refines there
(`BlockTree.Rewrites.execute`).

There are three such rewritings: the deletion of a guard (`BlockTree.execute_erase_guard`), of which
only the empty arm can be taken, the deletion of an operator that nobody watches and whose outputs are
not used (`BlockTree.execute_erase_dead`), and hoisting (`Hoistable.execute_hoisted`), since only the
computing arm of a guarded computation can be taken.
-/

namespace Unguard

universe u

variable {V : Type u} {I : Interpretation V} {watched : OpSet}

/-- Nodes that see `visible` run whenever others do, with the same calls.  What the values in `K`
stand for after them is the same, but for a renaming. -/
def Body.Refines (I : Interpretation V) (watched : OpSet) (K : ValueId → Prop)
    (θ : ValueId → ValueId) (visible : List ValueId) (body body' : NodeTrees) : Prop :=
  ∀ (ρ : ValueId → V) (x : (ValueId → V) × List (Call V)), body.run I watched ρ = some x →
    ∃ y, body'.run I watched ρ = some y ∧ y.2 = x.2 ∧
      ∀ v ∈ body.outputs ++ visible, K v → y.1 (θ v) = x.1 v

/-! ### In a context -/

section Rewrites

variable {K : ValueId → Prop} {θ : ValueId → ValueId}

/-- A block that holds nodes which refine others returns the same. -/
theorem Body.Refines.returns {body body' : NodeTrees} {visible : List ValueId} {head : BlockView}
    {ρ : ValueId → V} {x : List V × List (Call V)} (h : Body.Refines I watched K θ visible body body')
    (hreturns : ∀ v ∈ head.returns, v ∈ body.outputs ++ visible ∧ K v)
    (hx : (body.run I watched ρ).map (fun last => (head.returns.map last.1, last.2)) = some x) :
    (body'.run I watched ρ).map (fun last => ((head.subst θ).returns.map last.1, last.2)) =
      some x := by
  obtain ⟨last, hlast, rfl⟩ := Option.map_eq_some_iff.1 hx
  obtain ⟨y, hy, hcalls, hvalues⟩ := h ρ last hlast
  refine Option.map_eq_some_iff.2 ⟨y, hy, ?_⟩
  rw [hcalls, BlockView.subst, List.map_map]
  exact congrArg (·, last.2) (List.map_congr_left fun v hv =>
    hvalues v (hreturns v hv).1 (hreturns v hv).2)

mutual

/-- Refinement in a part is refinement of the whole: what is before the part runs as it did, and what is
after it sees the same values under the substitution. -/
theorem Body.Rewrites.refines : ∀ {visible : List ValueId} {body body' : NodeTrees},
    body.Rewrites K (Body.Refines I watched K θ) θ visible body' →
    Body.Refines I watched K θ visible body body'
  | _, _, _, .here h => h
  | visible, .node head arms rest, .node _ arms' _, .inside hθ h => by
    intro ρ x hx
    obtain ⟨first, hfirst, next, hnext, rfl⟩ := Body.run_node.1 hx
    have hfirst' := NodeView.results_mono (fun a ha => Arms.Rewrites.run h ha) hfirst
    exact ⟨_, Body.run_node.2 ⟨first, hfirst', next, hnext, rfl⟩, rfl,
      fun v hv _ => by rw [hθ v hv]⟩
  | visible, .node head arms rest, .node _ _ rest', .after h => by
    intro ρ x hx
    obtain ⟨first, hfirst, next, hnext, rfl⟩ := Body.run_node.1 hx
    obtain ⟨y, hy, hcalls, hvalues⟩ := Body.Rewrites.refines h _ _ hnext
    exact ⟨_, Body.run_node.2 ⟨first, hfirst, y, hy, rfl⟩, congrArg (first.2 ++ ·) hcalls,
      fun v hv hk => hvalues v (Body.mem_outputs_node.1 hv) hk⟩

/-- Rewriting nodes to others that refine them keeps the runs of arms. -/
theorem Arms.Rewrites.run : ∀ {visible : List ValueId} {arms arms' : BlockTrees}
    {ρ : ValueId → V} {inputs : List V} {arm position : Nat} {x : List V × List (Call V)},
    arms.Rewrites K (Body.Refines I watched K θ) θ visible arms' →
    arms.run I watched ρ inputs arm position = some x →
    arms'.run I watched ρ inputs arm position = some x
  | visible, .arm head body rest, .arm _ body' _, ρ, inputs, arm, 0, x, .inside hreturns h, hx =>
    (Body.Rewrites.refines h).returns hreturns hx
  | visible, .arm head body rest, .arm _ body' _, ρ, inputs, arm, position + 1, x, .inside _ _, hx =>
    hx
  | visible, .arm head body rest, .arm _ _ rest', ρ, inputs, arm, 0, x, .after _, hx => hx
  | visible, .arm head body rest, .arm _ _ rest', ρ, inputs, arm, position + 1, x, .after h, hx => by
    change rest'.run I watched ρ inputs arm position = some x
    exact Arms.Rewrites.run h hx

end

/-- Rewriting nodes to others that refine them keeps the runs of a whole block. -/
theorem BlockTree.Rewrites.execute [Inhabited V] {t t' : BlockTree} {visible : List ValueId}
    {args : List V} {x : List V × List (Call V)}
    (h : t.toArms.Rewrites K (Body.Refines I watched K θ) θ visible t'.toArms)
    (hx : t.execute I watched args = some x) : t'.execute I watched args = some x := by
  obtain ⟨head, body⟩ := t
  obtain ⟨head', body'⟩ := t'
  cases h with
  | inside hreturns h => exact h.refines.returns hreturns hx
  | after h => cases h

end Rewrites

/-! ### Arms that raise -/

/-- Nodes with a raise among them do not run to their end. -/
theorem Body.run_eq_none {x : NodeView} (hx : x.kind = .raise) : ∀ {body : NodeTrees}
    {ρ : ValueId → V}, x ∈ body.heads → body.run I watched ρ = none
  | .node head arms rest, ρ, h => by
    refine Option.eq_none_iff_forall_ne_some.2 fun y hy => ?_
    obtain ⟨first, hfirst, next, hnext, rfl⟩ := Body.run_node.1 hy
    rcases List.mem_cons.1 h with rfl | h
    · rw [NodeView.results, hx] at hfirst
      cases hfirst
    · rw [Body.run_eq_none hx h] at hnext
      cases hnext

/-- A body that ends in a raise has no results. -/
theorem Body.run_eq_none_of_inRaise {body : NodeTrees} {ρ : ValueId → V}
    (h : body.ending = .inRaise) : body.run I watched ρ = none := by
  obtain ⟨x, hlast, hx⟩ := Body.ending_eq_inRaise_iff.1 h
  exact Body.run_eq_none hx (List.mem_of_getLast? hlast)

/-- Only the chosen arm is run. -/
theorem Arms.run_of_member {ρ : ValueId → V} {inputs : List V} {arm : Nat} {m : BlockTree}
    (hparams : m.head.params = []) : ∀ {arms : BlockTrees} {position : Nat},
    arms.members[position]? = some m → arms.run I watched ρ inputs arm position =
      (m.body.run I watched ρ).map fun last => (m.head.returns.map last.1, last.2)
  | .arm head body rest, 0, h => by
    obtain rfl := Option.some.inj h
    rw [Arms.run, hparams, assign_nil]
  | .arm head body rest, position + 1, h => by
    rw [Arms.members, List.getElem?_cons_succ] at h
    exact (Arms.run_of_member hparams h : rest.run I watched ρ inputs arm position = _)

/-- A conditional of which one arm raises runs the other. -/
theorem NodeView.run_arm {head : NodeView} {arms : BlockTrees} {first second m : BlockTree}
    {ρ : ValueId → V} {inputs : List V} {x : List V × List (Call V)}
    (hbare : head.bareArms? arms = some (first, second))
    (hm : first.body.ending = .inRaise ∧ m = second ∨ second.body.ending = .inRaise ∧ m = first)
    (h : head.results I watched inputs
      (arms.run I watched ρ inputs (I.armTaken inputs) (I.armTaken inputs)) = some x) :
    ∃ last, m.body.run I watched ρ = some last ∧ (m.head.returns.map last.1, last.2) = x := by
  obtain ⟨hkind, hmembers, hfirst, hsecond⟩ := NodeView.members_of_bareArms? hbare
  rw [NodeView.results, hkind] at h
  rw [← Option.map_eq_some_iff]
  -- There is a result, so the arm taken does not end in a raise: it is the other one.
  have htaken : ∀ {b : BlockTree}, b.head.params = [] →
      arms.members[I.armTaken inputs]? = some b → b.body.ending ≠ .inRaise ∧
        (b.body.run I watched ρ).map (fun last => (b.head.returns.map last.1, last.2)) = some x := by
    intro b hparams hb
    have hrun := (Arms.run_of_member hparams hb).symm.trans h
    refine ⟨fun hend => ?_, hrun⟩
    rw [Body.run_eq_none_of_inRaise hend] at hrun
    cases hrun
  rw [hmembers, Interpretation.armTaken] at htaken
  cases hchoice : I.takesFirst inputs with
  | true =>
    rw [if_pos hchoice] at htaken
    obtain ⟨hraise, hrun⟩ := htaken hfirst rfl
    rcases hm with ⟨hend, -⟩ | ⟨-, rfl⟩
    · exact absurd hend hraise
    · exact hrun
  | false =>
    rw [if_neg (Bool.eq_false_iff.1 hchoice)] at htaken
    obtain ⟨hraise, hrun⟩ := htaken hsecond rfl
    rcases hm with ⟨-, rfl⟩ | ⟨hend, -⟩
    · exact hrun
    · exact absurd hend hraise

/-! ### The three rewritings -/

section Node

variable {head : NodeView} {arms : BlockTrees} {rest : NodeTrees} {visible : List ValueId}
  {K : ValueId → Prop}

/-- A guard can be left out. -/
theorem Body.refines_of_isGuard (hguard : head.isGuard arms = true) :
    Body.Refines I watched K id visible (.node head arms rest) rest := by
  intro ρ x hx
  obtain ⟨results, hresults, next, hnext, rfl⟩ := Body.run_node.1 hx
  obtain ⟨first, second, hbare, houtputs, hends⟩ := NodeView.isGuard_iff.1 hguard
  have hcalls : results.2 = [] := by
    have hempty : ∀ {m : BlockTree}, m.body.ending = .empty →
        (first.body.ending = .inRaise ∧ m = second ∨ second.body.ending = .inRaise ∧ m = first) →
        results.2 = [] := by
      intro m hend hm
      obtain ⟨last, hlast, rfl⟩ := NodeView.run_arm hbare hm hresults
      rw [Body.ending_eq_empty_iff.1 hend] at hlast
      obtain rfl := Option.some.inj hlast
      rfl
    rcases hends with ⟨hraise, hend⟩ | ⟨hend, hraise⟩
    · exact hempty hend (Or.inl ⟨hraise, rfl⟩)
    · exact hempty hend (Or.inr ⟨hraise, rfl⟩)
  rw [houtputs, assign_nil] at hnext
  refine ⟨next, hnext, ?_, fun v _ _ => rfl⟩
  rw [hcalls, List.nil_append]

/-- An operator that is not watched can be left out, if its outputs do not matter. -/
theorem Body.refines_of_op {name : Operator} (hkind : head.kind = .op name)
    (hwatched : watched.contains name = false) (hrest : ∀ v ∈ rest.mentions, v ∉ head.outputs) :
    Body.Refines I watched (· ∉ head.outputs) id visible (.node head arms rest) rest := by
  intro ρ x hx
  obtain ⟨results, hresults, next, hnext, rfl⟩ := Body.run_node.1 hx
  rw [NodeView.results, hkind] at hresults
  obtain rfl := Option.some.inj hresults
  obtain ⟨y, hy, hcalls, hvalues⟩ := Body.run_congr (fun v hv => assign_of_not_mem hv) hrest hnext
  refine ⟨y, hy, ?_, fun v _ hv => (hvalues v hv).symm⟩
  simp only [hcalls, hwatched, Bool.false_eq_true, if_false, List.nil_append]

/-- The computing arm can take the place of a guarded computation. -/
theorem Body.refines_hoisted {ops : OpSet} {m : BlockTree}
    (harm : head.computingArm? ops arms = some m)
    (hlen : m.head.returns.length = head.outputs.length)
    (hwf : (Body.node head arms rest).WellFormed visible) :
    Body.Refines I watched K (substitution head.outputs m.head.returns) visible
      (.node head arms rest) ((m.body ++ rest).subst (substitution head.outputs m.head.returns)) := by
  intro ρ x hx
  obtain ⟨results, hresults, next, hnext, rfl⟩ := Body.run_node.1 hx
  obtain ⟨hm, hparams⟩ := NodeView.mem_of_computingArm? harm
  obtain ⟨first, second, kind, hbare, -, hends⟩ := NodeView.computingArm?_eq_some_iff.1 harm
  obtain ⟨last, hlast, rfl⟩ := NodeView.run_arm hbare
    (hends.symm.imp (fun h => ⟨h.1, h.2.2⟩) fun h => ⟨h.2.1, h.2.2⟩) hresults
  -- Outside the arm, its run leaves what the outputs of the node stand for.
  have hagree : ∀ v, v ∉ NodeTrees.definitions m.body →
      assign ρ head.outputs (m.head.returns.map last.1) v =
        (last.1 ∘ substitution head.outputs m.head.returns) v := by
    intro v hv
    rw [Function.comp]
    by_cases ho : v ∈ head.outputs
    · rw [substitution, comp_assign last.1 id]
      exact assign_of_mem _ _ (by rw [List.length_map, hlen]) ho
    · rw [substitution_of_not_mem ho, assign_of_not_mem ho]
      exact (Body.run_of_not_mem hlast fun hout => hv (Body.outputs_subset_definitions hout)).symm
  obtain ⟨z, hz, hcalls, hvalues⟩ := Body.run_congr hagree
    (fun v hv => hwf.not_mem_arm hm (hwf.scope.2.2.mem_of_mentions hv).symm) hnext
  obtain ⟨y, hy, hcalls', hvalues'⟩ := Body.run_subst
    (hwf.substitution_eq_self hm hparams hlen) hz
  rw [Body.subst_append, hwf.subst_arm hm hparams]
  refine ⟨_, Body.run_append.2 ⟨last, hlast, y, hy, rfl⟩, ?_, fun v hv _ => ?_⟩
  · rw [hcalls', hcalls]
  · exact (congrFun hvalues' v).trans (hvalues v (hwf.not_mem_arm_of_outputs hm hv)).symm

end Node

/-! ### Whole blocks -/

section Tree

variable [Inhabited V] {t : BlockTree} {head : NodeView} {arms : BlockTrees} {args : List V}
  {x : List V × List (Call V)}

/-- Deleting a node that can be left out keeps the runs of a block. -/
theorem BlockTree.execute_replace_done {K : ValueId → Prop} (hwf : t.toArms.WellFormed [])
    (hmem : (head, arms) ∈ t.toArms.subtrees)
    (hK : ∀ v ∈ (t.replace head.id .done).toArms.mentions, K v)
    (hR : ∀ {visible} {rest : NodeTrees}, (∀ v ∈ rest.mentions, K v) →
      Body.Refines I watched K id visible (.node head arms rest) rest)
    (hx : t.execute I watched args = some x) :
    (t.replace head.id .done).execute I watched args = some x := by
  have h : t.toArms.Rewrites K (Body.Refines I watched K id) id []
      ((t.toArms.replace head.id .done).subst id) :=
    Arms.rewrites_replace (θ := id) (fun _ _ => rfl) (fun _ hrest => by
      rw [Body.done_append, Body.subst_id]
      exact hR hrest) hwf hmem hK
  rw [Arms.subst_id] at h
  exact BlockTree.Rewrites.execute h hx

theorem BlockTree.execute_erase_guard (hwf : t.toArms.WellFormed [])
    (hmem : (head, arms) ∈ t.toArms.subtrees) (hguard : head.isGuard arms = true)
    (hx : t.execute I watched args = some x) :
    (t.replace head.id .done).execute I watched args = some x :=
  BlockTree.execute_replace_done (K := fun _ => True) hwf hmem (fun _ _ => trivial)
    (fun _ => Body.refines_of_isGuard hguard) hx

theorem BlockTree.execute_erase_dead (hwf : t.toArms.WellFormed [])
    (hmem : (head, arms) ∈ t.toArms.subtrees) {name : Operator} (hkind : head.kind = .op name)
    (hwatched : watched.contains name = false)
    (hunused : ∀ v ∈ head.outputs, v ∉ (t.replace head.id .done).toArms.mentions)
    (hx : t.execute I watched args = some x) :
    (t.replace head.id .done).execute I watched args = some x :=
  BlockTree.execute_replace_done hwf hmem (fun v hv ho => hunused v ho hv)
    (fun hrest => Body.refines_of_op hkind hwatched hrest) hx

theorem Hoistable.execute_hoisted {ops : OpSet} {m : BlockTree} (h : Hoistable t head arms m)
    (harm : head.computingArm? ops arms = some m) (hwf : t.toArms.WellFormed [])
    (hx : t.execute I watched args = some x) :
    (t.hoisted head m).execute I watched args = some x :=
  BlockTree.Rewrites.execute (K := fun _ => True) (Arms.rewrites_replace
    (fun _ hv => substitution_of_not_mem hv)
    (fun hrest _ => Body.refines_hoisted harm h.balanced hrest) hwf h.mem fun _ _ => trivial) hx

end Tree

end Unguard
