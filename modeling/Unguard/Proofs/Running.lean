import Unguard.Lower.Hoist
import Unguard.Proofs.Assignments
import Unguard.Proofs.Conditionals

/-!
# Runs

What a graph computes, under any interpretation of its operators.  Nodes run in order.  An operator
gives its results from its inputs, a conditional runs the arm that its inputs choose, and a raise stops
the run.  A run that is not stopped returns values; on the way it calls operators, and the calls of
those that are watched are kept in order.

A run depends on the values in slots only (`Body.run_congr`), not on the numbers of nodes, blocks and
values (`Body.run_relabel`).
-/

namespace Unguard

universe u

variable {V : Type u}

/-- A meaning for everything that a graph leaves open. -/
structure Interpretation (V : Type u) where
  /-- The results of an operator, for its attributes, the number of its results and its inputs. -/
  compute : Operator → Attributes → (count : Nat) → List V → Fin count → V
  /-- Whether a conditional takes its first arm, for its inputs. -/
  takesFirst : List V → Bool
  /-- The parameters of an arm of a conditional, for the inputs of the conditional, the position of
  the arm and the number of parameters. -/
  argument : List V → (arm : Nat) → (count : Nat) → Fin count → V

/-- An operator called with inputs. -/
structure Call (V : Type u) where
  op : Operator
  attributes : Attributes
  inputs : List V

/-- The position of the arm that a conditional takes. -/
def Interpretation.armTaken (I : Interpretation V) (inputs : List V) : Nat :=
  if I.takesFirst inputs then 0 else 1

/-- The results of a node and the calls it makes, given those of the arm it takes.  A raise has
none. -/
def NodeView.results (I : Interpretation V) (watched : OpSet) (head : NodeView) (inputs : List V)
    (arm : Option (List V × List (Call V))) : Option (List V × List (Call V)) :=
  match head.kind with
  | .raise => none
  | .op name => some (List.ofFn (I.compute name head.attributes head.outputs.length inputs),
      if watched.contains name then [⟨name, head.attributes, inputs⟩] else [])
  | .conditional => arm

mutual

/-- Runs nodes.  The result has what values stand for after the last node, and the calls of watched
operators.  There is none if a raise is met. -/
def Body.run (I : Interpretation V) (watched : OpSet) (ρ : ValueId → V) :
    NodeTrees → Option ((ValueId → V) × List (Call V))
  | .done => some (ρ, [])
  | .node head arms rest =>
    let inputs := head.inputs.map ρ
    (head.results I watched inputs
      (arms.run I watched ρ inputs (I.armTaken inputs) (I.armTaken inputs))).bind fun first =>
        (rest.run I watched (assign ρ head.outputs first.1)).map fun next =>
          (next.1, first.2 ++ next.2)

/-- Runs the block at `position`, as the arm `arm` of a conditional with these inputs.  The result has
the values it returns, which are none if there is no block there. -/
def Arms.run (I : Interpretation V) (watched : OpSet) (ρ : ValueId → V) (inputs : List V) (arm : Nat)
    (position : Nat) : BlockTrees → Option (List V × List (Call V))
  | .done => some ([], [])
  | .arm head body rest =>
    match position with
    | 0 =>
      (body.run I watched (assign ρ head.params
        (List.ofFn (I.argument inputs arm head.params.length)))).map fun last =>
          (head.returns.map last.1, last.2)
    | position + 1 => rest.run I watched ρ inputs arm position

end

/-- Runs a whole block with values for its parameters. -/
def BlockTree.execute [Inhabited V] (I : Interpretation V) (watched : OpSet) (args : List V)
    (t : BlockTree) : Option (List V × List (Call V)) :=
  (t.body.run I watched (assign default t.head.params args)).map fun last =>
    (t.head.returns.map last.1, last.2)

/-- Runs a graph with values for its parameters.  The result has the values it returns, and the calls
of watched operators in order.  There is none if a raise is met. -/
def Graph.execute [Inhabited V] (I : Interpretation V) (watched : OpSet) (args : List V)
    (g : Graph) : Except Fault (Option (List V × List (Call V))) :=
  match g.tree with
  | .error fault => .error fault
  | .ok tree => .ok (tree.execute I watched args)

variable {I : Interpretation V} {watched : OpSet}

theorem Body.run_node {ρ : ValueId → V} {head : NodeView} {arms : BlockTrees} {rest : NodeTrees}
    {x : (ValueId → V) × List (Call V)} :
    (Body.node head arms rest).run I watched ρ = some x ↔
      ∃ first, head.results I watched (head.inputs.map ρ) (arms.run I watched ρ (head.inputs.map ρ)
          (I.armTaken (head.inputs.map ρ)) (I.armTaken (head.inputs.map ρ))) = some first ∧
        ∃ next, rest.run I watched (assign ρ head.outputs first.1) = some next ∧
          (next.1, first.2 ++ next.2) = x := by
  rw [Body.run, Option.bind_eq_some_iff]
  simp only [Option.map_eq_some_iff]

/-- A run goes on where the one before it has ended, and so do the calls. -/
theorem Body.run_append : ∀ {a b : NodeTrees} {ρ : ValueId → V} {x : (ValueId → V) × List (Call V)},
    (a ++ b).run I watched ρ = some x ↔ ∃ first, a.run I watched ρ = some first ∧
      ∃ next, b.run I watched first.1 = some next ∧ (next.1, first.2 ++ next.2) = x
  | .done, b, ρ, x => by
    constructor
    · exact fun h => ⟨(ρ, []), rfl, x, h, rfl⟩
    · rintro ⟨first, hfirst, next, hnext, rfl⟩
      obtain rfl := Option.some.inj hfirst
      exact hnext
  | .node head arms rest, b, ρ, x => by
    rw [Body.node_append, Body.run_node]
    simp only [Body.run_node, Body.run_append]
    constructor
    · rintro ⟨first, hfirst, next, ⟨mid, hmid, last, hlast, rfl⟩, rfl⟩
      exact ⟨_, ⟨first, hfirst, mid, hmid, rfl⟩, last, hlast, by simp⟩
    · rintro ⟨mid, ⟨first, hfirst, next, hnext, rfl⟩, last, hlast, rfl⟩
      exact ⟨first, hfirst, _, ⟨next, hnext, last, hlast, rfl⟩, by simp⟩

/-- The results of a node stay when those of its arm stay. -/
theorem NodeView.results_mono {head : NodeView} {inputs : List V}
    {arm arm' : Option (List V × List (Call V))} (harm : ∀ a, arm = some a → arm' = some a)
    {first : List V × List (Call V)} (h : head.results I watched inputs arm = some first) :
    head.results I watched inputs arm' = some first := by
  rw [NodeView.results] at h ⊢
  split
  · rename_i hkind
    rw [hkind] at h
    exact h
  · rename_i name hkind
    rw [hkind] at h
    exact h
  · rename_i hkind
    rw [hkind] at h
    exact harm first h

/-- Only outputs get new values. -/
theorem Body.run_of_not_mem {v : ValueId} : ∀ {body : NodeTrees} {ρ : ValueId → V}
    {x : (ValueId → V) × List (Call V)}, body.run I watched ρ = some x → v ∉ body.outputs →
    x.1 v = ρ v
  | .done, ρ, x, h, _ => by
    obtain rfl := Option.some.inj h
    rfl
  | .node head arms rest, ρ, x, h, hv => by
    rw [Body.outputs_node, List.mem_append, not_or] at hv
    obtain ⟨first, -, next, hnext, rfl⟩ := Body.run_node.1 h
    exact (Body.run_of_not_mem hnext hv.2).trans (assign_of_not_mem hv.1)

/-! ### What a run depends on -/

section Congr

variable {K : ValueId → Prop}

mutual

/-- A run depends on what the values in slots stand for. -/
theorem Body.run_congr : ∀ {body : NodeTrees} {ρ ρ' : ValueId → V}
    {x : (ValueId → V) × List (Call V)}, (∀ v, K v → ρ v = ρ' v) → (∀ v ∈ body.mentions, K v) →
    body.run I watched ρ = some x →
    ∃ y, body.run I watched ρ' = some y ∧ y.2 = x.2 ∧ ∀ v, K v → x.1 v = y.1 v
  | .done, ρ, ρ', x, hρ, _, h => by
    obtain rfl := Option.some.inj h
    exact ⟨_, rfl, rfl, hρ⟩
  | .node head arms rest, ρ, ρ', x, hρ, hK, h => by
    simp only [Body.mentions_node, List.forall_mem_append] at hK
    obtain ⟨first, hfirst, next, hnext, rfl⟩ := Body.run_node.1 h
    have hinputs : head.inputs.map ρ = head.inputs.map ρ' :=
      List.map_congr_left fun v hv => hρ v (hK.1 v hv)
    rw [hinputs] at hfirst
    have hfirst' := NodeView.results_mono (fun a ha => Arms.run_congr hρ hK.2.1 ha) hfirst
    obtain ⟨y, hy, hcalls, hagree⟩ := Body.run_congr
      (fun v hv => assign_congr (hρ v hv)) hK.2.2 hnext
    exact ⟨_, Body.run_node.2 ⟨first, hfirst', y, hy, rfl⟩, congrArg (first.2 ++ ·) hcalls, hagree⟩

/-- Only values that are mentioned matter. -/
theorem Arms.run_congr : ∀ {arms : BlockTrees} {ρ ρ' : ValueId → V} {inputs : List V}
    {arm position : Nat} {x : List V × List (Call V)}, (∀ v, K v → ρ v = ρ' v) →
    (∀ v ∈ arms.mentions, K v) → arms.run I watched ρ inputs arm position = some x →
    arms.run I watched ρ' inputs arm position = some x
  | .done, ρ, ρ', inputs, arm, position, x, _, _, h => h
  | .arm head body rest, ρ, ρ', inputs, arm, 0, x, hρ, hK, h => by
    simp only [Arms.mentions_arm, List.forall_mem_append] at hK
    obtain ⟨last, hlast, rfl⟩ := Option.map_eq_some_iff.1 h
    obtain ⟨y, hy, hcalls, hagree⟩ := Body.run_congr
      (fun v hv => assign_congr (hρ v hv)) hK.2.1 hlast
    refine Option.map_eq_some_iff.2 ⟨y, hy, ?_⟩
    rw [hcalls, List.map_congr_left fun v hv => hagree v (hK.1 v hv)]
  | .arm head body rest, ρ, ρ', inputs, arm, position + 1, x, hρ, hK, h => by
    simp only [Arms.mentions_arm, List.forall_mem_append] at hK
    change rest.run I watched ρ' inputs arm position = some x
    exact Arms.run_congr hρ hK.2.2 h

end

end Congr

section Subst

variable {θ : ValueId → ValueId}

mutual

/-- Running nodes whose slots were renamed, where the renaming leaves what the nodes define alone. -/
theorem Body.run_subst : ∀ {body : NodeTrees} {ρ : ValueId → V} {x : (ValueId → V) × List (Call V)},
    (∀ v, v ∈ NodeTrees.definitions body ∨ θ v ∈ NodeTrees.definitions body → θ v = v) →
    body.run I watched (ρ ∘ θ) = some x →
    ∃ y, (body.subst θ).run I watched ρ = some y ∧ y.2 = x.2 ∧ y.1 ∘ θ = x.1
  | .done, ρ, x, _, h => by
    obtain rfl := Option.some.inj h
    exact ⟨_, rfl, rfl, rfl⟩
  | .node head arms rest, ρ, x, hθ, h => by
    simp only [NodeTrees.definitions_node, List.mem_append] at hθ
    obtain ⟨first, hfirst, next, hnext, rfl⟩ := Body.run_node.1 h
    have hinputs : (head.subst θ).inputs.map ρ = head.inputs.map (ρ ∘ θ) := List.map_map
    -- The outputs are not renamed, and nothing is renamed to them.
    have hassign : assign ρ head.outputs first.1 ∘ θ = assign (ρ ∘ θ) head.outputs first.1 :=
      assign_comp (fun v hv => hθ v (hv.imp Or.inl Or.inl)) _
    rw [← hassign] at hnext
    rw [← hinputs] at hfirst
    have hfirst' := NodeView.results_mono (fun a ha => Arms.run_subst
      (fun v hv => hθ v (hv.imp (fun h => Or.inr (Or.inl h)) fun h => Or.inr (Or.inl h))) ha) hfirst
    obtain ⟨y, hy, hcalls, hafter⟩ := Body.run_subst
      (fun v hv => hθ v (hv.imp (fun h => Or.inr (Or.inr h)) fun h => Or.inr (Or.inr h))) hnext
    exact ⟨_, Body.run_node.2 ⟨first, hfirst', y, hy, rfl⟩, congrArg (first.2 ++ ·) hcalls, hafter⟩

/-- A substitution that leaves alone what is defined can be made before or during the run. -/
theorem Arms.run_subst : ∀ {arms : BlockTrees} {ρ : ValueId → V} {inputs : List V}
    {arm position : Nat} {x : List V × List (Call V)},
    (∀ v, v ∈ BlockTrees.definitions arms ∨ θ v ∈ BlockTrees.definitions arms → θ v = v) →
    arms.run I watched (ρ ∘ θ) inputs arm position = some x →
    (arms.subst θ).run I watched ρ inputs arm position = some x
  | .done, ρ, inputs, arm, position, x, _, h => h
  | .arm head body rest, ρ, inputs, arm, 0, x, hθ, h => by
    simp only [BlockTrees.definitions_arm, List.mem_append] at hθ
    obtain ⟨last, hlast, rfl⟩ := Option.map_eq_some_iff.1 h
    rw [← assign_comp fun v hv => hθ v (hv.imp Or.inl Or.inl)] at hlast
    obtain ⟨y, hy, hcalls, hafter⟩ := Body.run_subst
      (fun v hv => hθ v (hv.imp (fun h => Or.inr (Or.inl h)) fun h => Or.inr (Or.inl h))) hlast
    refine Option.map_eq_some_iff.2 ⟨y, hy, ?_⟩
    rw [hcalls, ← hafter, BlockView.subst, List.map_map]
  | .arm head body rest, ρ, inputs, arm, position + 1, x, hθ, h => by
    simp only [BlockTrees.definitions_arm, List.mem_append] at hθ
    change (rest.subst θ).run I watched ρ inputs arm position = some x
    exact Arms.run_subst
      (fun v hv => hθ v (hv.imp (fun h => Or.inr (Or.inr h)) fun h => Or.inr (Or.inr h))) h

end

end Subst

section Relabel

theorem NodeView.results_rename (nodes : NodeId → NodeId) (values : ValueId → ValueId)
    (head : NodeView) (inputs : List V) (arm : Option (List V × List (Call V))) :
    (head.rename nodes values).results I watched inputs arm = head.results I watched inputs arm := by
  have hcount : (head.rename nodes values).outputs.length = head.outputs.length := List.length_map _
  rw [NodeView.results, hcount]
  rfl

/-- Assignments to values with other numbers. -/
theorem assign_relabel (e : ValueId ≃ ValueId) (ρ : ValueId → V) (vs : List ValueId) (xs : List V) :
    assign ρ vs xs ∘ e.symm = assign (ρ ∘ e.symm) (vs.map e) xs := by
  funext w
  have h := assign_equiv e id ρ w vs xs
  rw [List.map_id] at h
  exact h.symm

theorem map_relabel (e : ValueId ≃ ValueId) (ρ : ValueId → V) (vs : List ValueId) :
    (vs.map e).map (ρ ∘ e.symm) = vs.map ρ := by
  simp [Function.comp_def]

variable (π : Relabeling)

mutual

/-- The numbers do not matter to a run. -/
theorem Body.run_relabel : ∀ {body : NodeTrees} {ρ : ValueId → V}
    {x : (ValueId → V) × List (Call V)}, body.run I watched ρ = some x →
    (body.relabel π).run I watched (ρ ∘ π.values.symm) = some (x.1 ∘ π.values.symm, x.2)
  | .done, ρ, x, h => by
    obtain rfl := Option.some.inj h
    rfl
  | .node head arms rest, ρ, x, h => by
    obtain ⟨first, hfirst, next, hnext, rfl⟩ := Body.run_node.1 h
    have hinputs : (head.rename π.nodes π.values).inputs.map (ρ ∘ π.values.symm) =
        head.inputs.map ρ := map_relabel π.values ρ head.inputs
    rw [← hinputs, ← NodeView.results_rename π.nodes π.values] at hfirst
    have hfirst' := NodeView.results_mono (fun a ha => Arms.run_relabel ha) hfirst
    have hnext' := Body.run_relabel hnext
    rw [assign_relabel] at hnext'
    exact Body.run_node.2 ⟨first, hfirst', _, hnext', rfl⟩

theorem Arms.run_relabel : ∀ {arms : BlockTrees} {ρ : ValueId → V} {inputs : List V}
    {arm position : Nat} {x : List V × List (Call V)},
    arms.run I watched ρ inputs arm position = some x →
    (arms.relabel π).run I watched (ρ ∘ π.values.symm) inputs arm position = some x
  | .done, ρ, inputs, arm, position, x, h => h
  | .arm head body rest, ρ, inputs, arm, 0, x, h => by
    obtain ⟨last, hlast, rfl⟩ := Option.map_eq_some_iff.1 h
    have hbody := Body.run_relabel hlast
    have hcount : (head.rename π.blocks π.values).params.length = head.params.length :=
      List.length_map _
    rw [assign_relabel, ← hcount] at hbody
    refine Option.map_eq_some_iff.2 ⟨_, hbody, ?_⟩
    exact congrArg (·, last.2) (map_relabel π.values last.1 head.returns)
  | .arm head body rest, ρ, inputs, arm, position + 1, x, h => by
    change (rest.relabel π).run I watched (ρ ∘ π.values.symm) inputs arm position = some x
    exact Arms.run_relabel h

end

/-- What is computed does not depend on numbers. -/
theorem BlockTree.execute_relabel [Inhabited V] {t : BlockTree} {args : List V}
    {x : List V × List (Call V)} (h : t.execute I watched args = some x) :
    (t.relabel π).execute I watched args = some x := by
  obtain ⟨last, hlast, rfl⟩ := Option.map_eq_some_iff.1 h
  have hbody := Body.run_relabel π hlast
  rw [assign_relabel] at hbody
  refine Option.map_eq_some_iff.2 ⟨_, hbody, ?_⟩
  exact congrArg (·, last.2) (map_relabel π.values last.1 t.head.returns)

end Relabel

end Unguard
