import Unguard.Proofs.Safety

/-!
# Observing runs

A run can be followed to a raise that stops it, and the operators with effects can answer as they like:
what they give may depend on all their calls before.  What is seen of such a run from outside is how it
ends and the calls of operators with effects, in order.  `Body.observe` runs nodes this way.  A run in
the sense of `Body.run` is one that no raise stops, with operators that compute all they give
(`BlockTree.execute_eq_some_iff`).

Sweeping dead code cannot be observed at all (`Graph.observe_sweepDeadCode`).  What comes after some
nodes may depend on less than all values, and nodes are exchanged for others that make no difference to
any such continuation (`Body.Alike`).
-/

namespace Unguard

universe u

variable {V : Type u}

/-- A raise that was met, with its inputs. -/
structure Stop (V : Type u) where
  node : NodeId
  inputs : List V
deriving DecidableEq

/-- What operators with effects give: for the calls before, a call and the number of its results. -/
def Answers (V : Type u) : Type u :=
  List (Call V) → Call V → (count : Nat) → Fin count → V

/-- Operators with effects that compute all they give. -/
def Interpretation.answers (I : Interpretation V) : Answers V :=
  fun _ call count => I.compute call.op call.attributes count call.inputs

/-- A computation that a raise may stop, with the calls of operators with effects so far. -/
abbrev Observed (V : Type u) : Type u → Type u :=
  ExceptT (Stop V) (StateM (List (Call V)))

/-- A call of an operator with effects. -/
def Answers.call (answers : Answers V) (call : Call V) (count : Nat) : Observed V (List V) := do
  let calls ← get
  set (calls ++ [call])
  return List.ofFn (answers calls call count)

/-- The results of a node, given those of the arm it takes. -/
def NodeView.observe (I : Interpretation V) (answers : Answers V) (impure : OpSet) (head : NodeView)
    (inputs : List V) (arm : Observed V (List V)) : Observed V (List V) :=
  match head.kind with
  | .raise => throw ⟨head.id, inputs⟩
  | .op name =>
    if impure.contains name then answers.call ⟨name, head.attributes, inputs⟩ head.outputs.length
    else return List.ofFn (I.compute name head.attributes head.outputs.length inputs)
  | .conditional => arm

mutual

/-- Runs nodes.  The result is what values stand for after the last node. -/
def Body.observe (I : Interpretation V) (answers : Answers V) (impure : OpSet) (ρ : ValueId → V) :
    NodeTrees → Observed V (ValueId → V)
  | .done => return ρ
  | .node head arms rest => do
    let inputs := head.inputs.map ρ
    let results ← head.observe I answers impure inputs
      (arms.observe I answers impure ρ inputs (I.armTaken inputs) (I.armTaken inputs))
    rest.observe I answers impure (assign ρ head.outputs results)

/-- Runs the block at `position`, as the arm `arm` of a conditional with these inputs.  The result has
the values it returns, which are none if there is no block there. -/
def Arms.observe (I : Interpretation V) (answers : Answers V) (impure : OpSet) (ρ : ValueId → V)
    (inputs : List V) (arm : Nat) (position : Nat) : BlockTrees → Observed V (List V)
  | .done => return []
  | .arm head body rest =>
    match position with
    | 0 => do
      let last ← body.observe I answers impure (assign ρ head.params
        (List.ofFn (I.argument inputs arm head.params.length)))
      return head.returns.map last
    | position + 1 => rest.observe I answers impure ρ inputs arm position

end

/-- Runs a whole block with values for its parameters: how it ends, and the calls of operators with
effects. -/
def BlockTree.observe [Inhabited V] (I : Interpretation V) (answers : Answers V) (impure : OpSet)
    (args : List V) (t : BlockTree) : Except (Stop V) (List V) × List (Call V) :=
  let run : Observed V (List V) := do
    let last ← t.body.observe I answers impure (assign default t.head.params args)
    return t.head.returns.map last
  run.run.run []

/-- Runs a graph with values for its parameters: whether it returns values or a raise stops it, and the
calls of operators with effects, in order. -/
def Graph.observe [Inhabited V] (I : Interpretation V) (answers : Answers V) (impure : OpSet)
    (args : List V) (g : Graph) : Except Fault (Except (Stop V) (List V) × List (Call V)) :=
  g.tree.map (BlockTree.observe I answers impure args)

variable {I : Interpretation V} {answers : Answers V} {impure : OpSet}

/-! ### Runs that no raise stops -/

/-- A computation ends without a raise exactly if the other does, with the same result and calls. -/
def Observed.Matches {α : Type u} (x : Observed V α) (y : Option (α × List (Call V))) : Prop :=
  ∀ before a after, x.run.run before = (.ok a, after) ↔
    ∃ made, y = some (a, made) ∧ after = before ++ made

namespace Observed

variable {α β : Type u} {x : Observed V α} {f : α → Observed V β} {before mid : List (Call V)}

theorem run_bind_ok {a : α} (h : x.run.run before = (.ok a, mid)) :
    (x >>= f).run.run before = (f a).run.run mid := by
  rw [ExceptT.run_bind, StateT.run_bind, h]
  rfl

theorem run_bind_error {stop : Stop V} (h : x.run.run before = (.error stop, mid)) :
    (x >>= f).run.run before = (.error stop, mid) := by
  rw [ExceptT.run_bind, StateT.run_bind, h]
  rfl

namespace Matches

theorem of_run {a : α} {made : List (Call V)}
    (h : ∀ before, x.run.run before = (.ok a, before ++ made)) : x.Matches (some (a, made)) := by
  intro before b after
  rw [h]
  constructor
  · intro heq
    obtain ⟨hok, rfl⟩ := Prod.mk.inj heq
    obtain rfl := Except.ok.inj hok
    exact ⟨made, rfl, rfl⟩
  · rintro ⟨made', hsome, rfl⟩
    obtain ⟨rfl, rfl⟩ := Prod.mk.inj (Option.some.inj hsome)
    rfl

theorem pure (a : α) : Matches (pure a : Observed V α) (some (a, [])) := by
  apply of_run
  intro before
  rw [List.append_nil]
  rfl

/-- An observation of two steps matches a run of two steps: the calls of the second come after those of
the first. -/
theorem bind {y : Option (α × List (Call V))} {h : α → Option (β × List (Call V))} (hx : x.Matches y)
    (hf : ∀ a, (f a).Matches (h a)) :
    Matches (x >>= f) (y.bind fun first => (h first.1).map fun next =>
      (next.1, first.2 ++ next.2)) := by
  intro before b after
  constructor
  · intro hok
    -- A run of both that ends well has a first part that ends well.
    cases hrun : x.run.run before with
    | mk ending mid =>
      cases ending with
      | error stop =>
        rw [run_bind_error hrun] at hok
        cases hok
      | ok a =>
        rw [run_bind_ok hrun] at hok
        obtain ⟨first, rfl, rfl⟩ := (hx _ _ _).1 hrun
        obtain ⟨next, hnext, rfl⟩ := (hf a _ _ _).1 hok
        refine ⟨first ++ next, ?_, List.append_assoc ..⟩
        show (h a).map _ = _
        rw [hnext]
        rfl
  · rintro ⟨made, hsome, rfl⟩
    obtain ⟨⟨a, first⟩, rfl, hsome⟩ := Option.bind_eq_some_iff.1 hsome
    obtain ⟨⟨b, next⟩, hnext, hsome⟩ := Option.map_eq_some_iff.1 hsome
    obtain ⟨rfl, rfl⟩ := Prod.mk.inj hsome
    rw [run_bind_ok ((hx before a _).2 ⟨first, rfl, rfl⟩), ← List.append_assoc]
    exact (hf a _ _ _).2 ⟨next, hnext, rfl⟩

/-- Returning values after a run. -/
theorem returns {x : Observed V (ValueId → V)} {y : Option ((ValueId → V) × List (Call V))}
    (h : x.Matches y) (values : List ValueId) :
    Matches (do let last ← x; return values.map last)
      (y.map fun last => (values.map last.1, last.2)) := by
  have hmatches := h.bind fun last => pure (values.map last)
  simp only [Option.map_some, List.append_nil] at hmatches
  rw [Option.map_eq_bind]
  exact hmatches

end Matches

end Observed

/-- A node is observed as it is run, given that its chosen arm is. -/
theorem NodeView.matches_observe {head : NodeView} {inputs : List V} {x : Observed V (List V)}
    {y : Option (List V × List (Call V))} (h : x.Matches y) :
    (head.observe I I.answers impure inputs x).Matches (head.results I impure inputs y) := by
  unfold NodeView.observe NodeView.results
  cases head.kind with
  | raise =>
    intro before a after
    constructor
    · intro hok
      cases hok
    · rintro ⟨made, hsome, -⟩
      cases hsome
  | conditional => exact h
  | op name =>
    cases hname : impure.contains name with
    | false =>
      simp only [hname, Bool.false_eq_true, if_false]
      exact .pure _
    | true =>
      simp only [hname, if_true]
      exact .of_run fun before => rfl

mutual

/-- By induction along the tree, every observation matches a run. -/
theorem Body.matches_observe : ∀ {body : NodeTrees} {ρ : ValueId → V},
    (body.observe I I.answers impure ρ).Matches (body.run I impure ρ)
  | .done, ρ => .pure ρ
  | .node head arms rest, ρ => by
    rw [Body.observe, Body.run]
    exact .bind (NodeView.matches_observe Arms.matches_observe) fun results => Body.matches_observe

theorem Arms.matches_observe : ∀ {arms : BlockTrees} {ρ : ValueId → V} {inputs : List V}
    {arm position : Nat}, (arms.observe I I.answers impure ρ inputs arm position).Matches
      (arms.run I impure ρ inputs arm position)
  | .done, ρ, inputs, arm, position => .pure []
  | .arm head body rest, ρ, inputs, arm, 0 => Body.matches_observe.returns head.returns
  | .arm head body rest, ρ, inputs, arm, position + 1 => by
    show (rest.observe I I.answers impure ρ inputs arm position).Matches
      (rest.run I impure ρ inputs arm position)
    exact Arms.matches_observe

end

/-- A run without a raise is what is observed where all operators compute what they give. -/
theorem BlockTree.execute_eq_some_iff [Inhabited V] {t : BlockTree} {args : List V}
    {x : List V × List (Call V)} : t.execute I impure args = some x ↔
      t.observe I I.answers impure args = (.ok x.1, x.2) := by
  have hrun : Observed.Matches _ (t.execute I impure args) :=
    Body.matches_observe.returns t.head.returns
  refine Iff.trans ?_ (hrun [] x.1 x.2).symm
  constructor
  · exact fun h => ⟨x.2, h, rfl⟩
  · rintro ⟨made, h, rfl⟩
    exact h

/-! ### What an observation depends on -/

/-- Only depends on what the values in `K` stand for. -/
def DependsOn {α : Type u} (K : ValueId → Prop) (k : (ValueId → V) → Observed V α) : Prop :=
  ∀ ρ ρ', (∀ v, K v → ρ v = ρ' v) → k ρ = k ρ'

theorem dependsOn_returns {K : ValueId → Prop} {returns : List ValueId} (h : ∀ v ∈ returns, K v) :
    DependsOn (V := V) K fun last => pure (returns.map last) := by
  intro ρ ρ' hρ
  exact congrArg pure (List.map_congr_left fun v hv => hρ v (h v hv))

section Congr

variable {K : ValueId → Prop}

mutual

/-- What nodes do before the rest of a run depends on what the values in their slots and in the rest
stand for. -/
theorem Body.observe_congr : ∀ {body : NodeTrees} {ρ ρ' : ValueId → V} {α : Type u}
    {k : (ValueId → V) → Observed V α}, DependsOn K k → (∀ v, K v → ρ v = ρ' v) →
    (∀ v ∈ body.mentions, K v) →
    body.observe I answers impure ρ >>= k = body.observe I answers impure ρ' >>= k
  | .done, ρ, ρ', _, _, hk, hρ, _ => by
    rw [Body.observe, Body.observe, pure_bind, pure_bind]
    exact hk ρ ρ' hρ
  | .node head arms rest, ρ, ρ', _, _, hk, hρ, hK => by
    simp only [Body.mentions_node, List.forall_mem_append] at hK
    have hinputs : head.inputs.map ρ = head.inputs.map ρ' :=
      List.map_congr_left fun v hv => hρ v (hK.1 v hv)
    rw [Body.observe, Body.observe, hinputs, Arms.observe_congr hρ hK.2.1, bind_assoc, bind_assoc]
    apply bind_congr
    intro results
    exact Body.observe_congr hk (fun v hv => assign_congr (hρ v hv)) hK.2.2

/-- Only values that are mentioned are read. -/
theorem Arms.observe_congr : ∀ {arms : BlockTrees} {ρ ρ' : ValueId → V} {inputs : List V}
    {arm position : Nat}, (∀ v, K v → ρ v = ρ' v) → (∀ v ∈ arms.mentions, K v) →
    arms.observe I answers impure ρ inputs arm position =
      arms.observe I answers impure ρ' inputs arm position
  | .done, _, _, _, _, _, _, _ => rfl
  | .arm head body rest, ρ, ρ', inputs, arm, 0, hρ, hK => by
    simp only [Arms.mentions_arm, List.forall_mem_append] at hK
    exact Body.observe_congr (dependsOn_returns hK.1) (fun v hv => assign_congr (hρ v hv)) hK.2.1
  | .arm head body rest, ρ, ρ', inputs, arm, position + 1, hρ, hK => by
    simp only [Arms.mentions_arm, List.forall_mem_append] at hK
    show rest.observe I answers impure ρ inputs arm position =
      rest.observe I answers impure ρ' inputs arm position
    exact Arms.observe_congr hρ hK.2.2

end

end Congr

/-! ### Rewritings that cannot be observed -/

/-- Nodes that make no difference to the rest of a run, where the rest depends on `K` only. -/
def Body.Alike (I : Interpretation V) (answers : Answers V) (impure : OpSet) (K : ValueId → Prop)
    (body body' : NodeTrees) : Prop :=
  ∀ {α : Type u} {k : (ValueId → V) → Observed V α}, DependsOn K k → ∀ ρ,
    body.observe I answers impure ρ >>= k = body'.observe I answers impure ρ >>= k

theorem blockView_subst_id (b : BlockView) : b.subst id = b :=
  BlockView.subst_eq_self fun _ _ => rfl

section Rewrites

variable {K : ValueId → Prop}

mutual

/-- Bodies that differ in a part which cannot be told apart cannot be told apart. -/
theorem Body.Rewrites.alike : ∀ {visible : List ValueId} {body body' : NodeTrees},
    body.Rewrites K (fun _ => Body.Alike I answers impure K) id visible body' →
    Body.Alike I answers impure K body body'
  | _, _, _, .here h => h
  | visible, .node head arms rest, .node _ arms' _, .inside _ h => by
    intro hk ρ
    rw [Body.observe, Body.observe, Arms.Rewrites.observe h]
  | visible, .node head arms rest, .node _ _ rest', .after h => by
    intro hk ρ
    rw [Body.observe, Body.observe, bind_assoc, bind_assoc]
    apply bind_congr
    intro results
    exact Body.Rewrites.alike h hk _

/-- Exchanging nodes for others that make no difference is not observed in arms. -/
theorem Arms.Rewrites.observe : ∀ {visible : List ValueId} {arms arms' : BlockTrees}
    {ρ : ValueId → V} {inputs : List V} {arm position : Nat},
    arms.Rewrites K (fun _ => Body.Alike I answers impure K) id visible arms' →
    arms.observe I answers impure ρ inputs arm position =
      arms'.observe I answers impure ρ inputs arm position
  | visible, .arm head body rest, .arm _ body' _, ρ, inputs, arm, 0, .inside hreturns h => by
    rw [blockView_subst_id]
    exact Body.Rewrites.alike h (dependsOn_returns fun v hv => (hreturns v hv).2) _
  | visible, .arm head body rest, .arm _ body' _, ρ, inputs, arm, position + 1, .inside _ _ => rfl
  | visible, .arm head body rest, .arm _ _ rest', ρ, inputs, arm, 0, .after _ => rfl
  | visible, .arm head body rest, .arm _ _ rest', ρ, inputs, arm, position + 1, .after h => by
    show rest.observe I answers impure ρ inputs arm position =
      rest'.observe I answers impure ρ inputs arm position
    exact Arms.Rewrites.observe h

end

/-- Nor can trees. -/
theorem BlockTree.Rewrites.observe [Inhabited V] {t t' : BlockTree} {visible : List ValueId}
    {args : List V} (h : t.toArms.Rewrites K (fun _ => Body.Alike I answers impure K) id visible
      t'.toArms) : t.observe I answers impure args = t'.observe I answers impure args := by
  obtain ⟨head, body⟩ := t
  obtain ⟨head', body'⟩ := t'
  cases h with
  | inside hreturns h =>
    show _ = BlockTree.observe I answers impure args ⟨head.subst id, body'⟩
    rw [blockView_subst_id]
    unfold BlockTree.observe
    rw [h.alike (dependsOn_returns fun v hv => (hreturns v hv).2)]
  | after h => cases h

end Rewrites

/-- An operator without effects can be left out, if its outputs do not matter. -/
theorem Body.alike_of_op {head : NodeView} {arms : BlockTrees} {rest : NodeTrees} {name : Operator}
    (hkind : head.kind = .op name) (hpure : impure.contains name = false)
    (hrest : ∀ v ∈ rest.mentions, v ∉ head.outputs) :
    Body.Alike I answers impure (· ∉ head.outputs) (.node head arms rest) rest := by
  intro α k hk ρ
  have hresults : ∀ inputs arm, head.observe I answers impure inputs arm =
      pure (List.ofFn (I.compute name head.attributes head.outputs.length inputs)) := by
    intro inputs arm
    rw [NodeView.observe, hkind]
    simp [hpure]
  rw [Body.observe, hresults, pure_bind]
  exact Body.observe_congr hk (fun v hv => assign_of_not_mem hv) hrest

/-- A dead node can be taken out unobserved: it makes no calls that are watched and nothing reads its
results. -/
theorem BlockTree.observe_erase_dead [Inhabited V] {t : BlockTree} {head : NodeView}
    {arms : BlockTrees} {args : List V} (hwf : t.toArms.WellFormed [])
    (hmem : (head, arms) ∈ t.toArms.subtrees) (hdead : head.IsDead impure t.toArms) :
    (t.replace head.id .done).observe I answers impure args = t.observe I answers impure args := by
  have hunused := hdead.not_mem_replace hwf hmem
  obtain ⟨name, hkind, hpure, -⟩ := hdead
  have h : t.toArms.Rewrites (· ∉ head.outputs)
      (fun _ => Body.Alike I answers impure (· ∉ head.outputs)) id []
      ((t.toArms.replace head.id .done).subst id) :=
    Arms.rewrites_replace (θ := id) (fun _ _ => rfl) (fun _ hrest => by
      rw [Body.done_append, Body.subst_id]
      exact Body.alike_of_op hkind hpure hrest) hwf hmem fun v hv ho => hunused v ho hv
  rw [Arms.subst_id] at h
  exact (BlockTree.Rewrites.observe h).symm

namespace Graph

variable [Inhabited V]

theorem keptBySweeping_observe (I : Interpretation V) (answers : Answers V) (args : List V)
    (t : BlockTree) :
    KeptBySweeping impure fun _ t' =>
      t'.observe I answers impure args = t.observe I answers impure args where
  erase hwf hmem hdead _ h := (BlockTree.observe_erase_dead hwf hmem hdead).trans h

/-- A graph is observed by its tree. -/
theorem Represents.observe_eq {g : Graph} {t : BlockTree} (h : g.Represents t) (args : List V) :
    g.observe I answers impure args = .ok (t.observe I answers impure args) := by
  rw [Graph.observe, h.tree_eq]
  rfl

/-- **Sweeping cannot be observed.**  A graph that was read and then changed by any sequence of runs of
passes is swept without a fault.  Whatever operators compute and answer, whichever arms conditionals
take, and with any values for the parameters, the graph before and after return the same values or are
stopped by the same raise with the same inputs, and call the operators with effects in the same order
with the same inputs. -/
theorem observe_sweepDeadCode (I : Interpretation V) (answers : Answers V) (args : List V)
    (source : String) (g₀ g : Graph) (runs : List PassRun) (hread : Graph.ofText source = .ok g₀)
    (hruns : g₀.applyRuns runs = .ok g) (impure : OpSet) (limit : Nat) :
    ∃ report g' outcome, g.sweepDeadCode impure limit = .ok (report, g') ∧
      g.observe I answers impure args = .ok outcome ∧
      g'.observe I answers impure args = .ok outcome := by
  obtain ⟨t, hg, hwf, hshape⟩ := represents_of_runs hread hruns
  obtain ⟨report, g', t', hok, hg', -, -, hsame⟩ :=
    (keptBySweeping_observe I answers args t).sweepDeadCode_ok limit ⟨hg, hwf, hshape, rfl⟩
  refine ⟨report, g', t.observe I answers impure args, hok, hg.observe_eq args, ?_⟩
  rw [hg'.observe_eq, hsame]

/-- A computation that leads to nothing, and a raise with what a logged value is answered with. -/
def loggedRaise : String :=
  "graph(%c: core.bool, %x: core.t) \x7b %a = aten.f(%x) : core.t %b = aten.g(%a) : core.t " ++
    "%d = io.log(%x) : core.t if(%c) \x7b\x7d else \x7b raise(%d) \x7d return %x \x7d"

/-- The sum of the inputs, and ten for each call so far. -/
def counting : Answers Nat :=
  fun calls call _ _ => call.inputs.foldr Nat.add (10 * (calls.length + 1))

/-- The second arm is taken, where the raise stops the run with the answer to the one call before.  It
does so with and without the two nodes that are swept. -/
theorem observe_sweepDeadCode_loggedRaise : ∃ g₀ g report g' calls,
    Graph.ofText loggedRaise = .ok g₀ ∧ g₀.applyRuns [.hoisting .empty 1] = .ok g ∧
    g.sweepDeadCode (.ofList [⟨"io", "log"⟩]) 0 = .ok (report, g') ∧ report.removed = 2 ∧
    g.observe addingUp counting (.ofList [⟨"io", "log"⟩]) [0, 5] = .ok (.error ⟨⟨3⟩, [15]⟩, calls) ∧
    g'.observe addingUp counting (.ofList [⟨"io", "log"⟩]) [0, 5] = .ok (.error ⟨⟨3⟩, [15]⟩, calls) ∧
    calls.map Call.inputs = [[5]] := by
  have hrun : (Graph.ofText loggedRaise).toOption.bind (fun g =>
      (g.applyRuns [.hoisting .empty 1]).toOption.bind fun g =>
        (g.sweepDeadCode (.ofList [⟨"io", "log"⟩]) 0).toOption.bind fun r =>
          (g.observe addingUp counting (.ofList [⟨"io", "log"⟩]) [0, 5]).toOption.map fun outcome =>
            (r.1.removed, outcome.1, outcome.2.map Call.inputs)) =
      some (2, .error ⟨⟨3⟩, [15]⟩, [[5]]) := by
    decide +kernel
  simp only [Option.bind_eq_some_iff, Option.map_eq_some_iff, toOption_eq_some_iff,
    Prod.mk.injEq] at hrun
  obtain ⟨g₀, hread, g, hruns, ⟨report, g'⟩, hsweep, ⟨ending, calls⟩, hobserve, hremoved, hending,
    hinputs⟩ := hrun
  obtain ⟨report', g'', outcome, hsweep', hbefore, hafter⟩ := observe_sweepDeadCode addingUp counting
    [0, 5] loggedRaise g₀ g _ hread hruns (.ofList [⟨"io", "log"⟩]) 0
  obtain ⟨rfl, rfl⟩ := Prod.mk.inj (Except.ok.inj (hsweep.symm.trans hsweep'))
  obtain rfl := Except.ok.inj (hobserve.symm.trans hbefore)
  obtain rfl : ending = .error ⟨⟨3⟩, [15]⟩ := hending
  exact ⟨g₀, g, report, g', calls, hread, hruns, hsweep, hremoved, hobserve, hafter, hinputs⟩

end Graph

end Unguard
