import Unguard.Proofs.Recoding

/-!
# Passes under another coding

Passes look at kinds, at blocks and at slots, never at attributes, labels or types.  So a run of a pass
on a recoded graph is the recoded run: it visits the same nodes, finds the same sites, and reports the
same numbers.  `Reduction.Blind` is what one site of a reduction has to fulfil for that, and
`Config.reduce_recode` and `Config.sweep_recode` are what comes of it for the stages of a lowering.
-/

namespace Unguard

namespace Graph

variable (g : Graph) (ρ : Recoding)

/-! ### Walks -/

theorem visitNode_recode {σ : Type} (visit : Visitor σ)
    (walk : σ → BlockId → Except Fault (Walk × σ)) (memory : σ) (n : NodeId) :
    (g.recode ρ).visitNode visit walk memory n = g.visitNode visit walk memory n := by
  unfold visitNode
  simp only [node_recode, bind_map]
  rfl

theorem walkNodes_recode {σ : Type} (visit : Visitor σ)
    (walk : σ → BlockId → Except Fault (Walk × σ)) (memory : σ) (ns : List NodeId) :
    (g.recode ρ).walkNodes visit walk memory ns = g.walkNodes visit walk memory ns := by
  induction ns generalizing memory with
  | nil => rfl
  | cons n ns ih =>
    rw [walkNodes, walkNodes, visitNode_recode]
    simp only [ih]

/-- A walk sees kinds, blocks and places only, and these are not recoded. -/
theorem walkTo_recode {σ : Type} (visit : Visitor σ) (depth : Nat) :
    (g.recode ρ).walkTo visit depth = g.walkTo visit depth := by
  induction depth with
  | zero => rfl
  | succ depth ih =>
    funext memory b
    rw [walkTo, walkTo, ih, block_recode]
    exact bind_congr fun block => walkNodes_recode g ρ visit _ memory block.nodes

theorem walk_recode (visit : NodeId → Step) : (g.recode ρ).walk visit = g.walk visit := by
  rw [walk, walk, walkWith, walkWith, walkTo_recode]
  rfl

/-! ### What is looked at in a node -/

/-- How an arm ends is seen from the kind of its last node. -/
theorem armEnding_recode (b : BlockId) : (g.recode ρ).armEnding b = g.armEnding b := by
  have hlast : ((g.recode ρ).lastNode? b).bind (g.recode ρ).node? =
      ((g.lastNode? b).bind g.node?).map ρ.node := by
    show (g.lastNode? b).bind _ = _
    cases g.lastNode? b with
    | none => rfl
    | some n => exact node?_recode g ρ n
  unfold armEnding
  rw [hlast]
  cases (g.lastNode? b).bind g.node? <;> rfl

theorem arms?_recode (n : NodeId) : (g.recode ρ).arms? n = g.arms? n := by
  unfold arms?
  rw [node?_recode]
  cases g.node? n <;> rfl

theorem bareArms?_recode (n : NodeId) : (g.recode ρ).bareArms? n = g.bareArms? n := by
  unfold bareArms?
  rw [arms?_recode]
  rfl

theorem armMismatch?_recode (n : NodeId) : (g.recode ρ).armMismatch? n = g.armMismatch? n := by
  unfold armMismatch?
  rw [arms?_recode, outputsOf_recode]
  rfl

/-- Mismatches are matters of lengths. -/
theorem firstMismatch_recode : (g.recode ρ).firstMismatch = g.firstMismatch := by
  unfold firstMismatch
  rw [walk_recode, funext (armMismatch?_recode g ρ)]

theorem isGuard_recode (n : NodeId) : (g.recode ρ).isGuard n = g.isGuard n := by
  unfold isGuard
  simp only [bareArms?_recode, outputsOf_recode, armEnding_recode]

theorem computingArm?_recode (ops : OpSet) (n : NodeId) :
    (g.recode ρ).computingArm? ops n = g.computingArm? ops n := by
  unfold computingArm?
  simp only [bareArms?_recode, armEnding_recode]

/-- Whether a node is dead depends on uses and kinds, not on labels and attributes. -/
theorem isDead_recode (impure : OpSet) (n : NodeId) :
    (g.recode ρ).isDead impure n = g.isDead impure n := by
  unfold isDead
  rw [node?_recode]
  cases g.node? n <;> rfl

end Graph

/-! ### Reductions -/

def ReducedSite.recode (ρ : Recoding) (site : ReducedSite) : ReducedSite :=
  ⟨site.node, site.before.recode ρ⟩

def RoundsRun.recode (ρ : Recoding) (run : RoundsRun) : RoundsRun :=
  { run with graph := run.graph.recode ρ, reduced := run.reduced.map (ReducedSite.recode ρ) }

theorem RoundsRun.report_recode (ρ : Recoding) (run : RoundsRun) :
    (run.recode ρ).report = run.report := by
  simp [report, recode]

/-- The reduction does not look at what is recoded, as long as graphs satisfy `P`. -/
structure Reduction.Blind {α : Type} (r : Reduction α) (ρ : Recoding) (P : Graph → Prop) : Prop where
  site? : ∀ g n, r.site? (g.recode ρ) n = r.site? g n
  apply : ∀ g n a, P g → r.apply (g.recode ρ) n a = (r.apply g n a).map (·.recode ρ)
  kept : ∀ {g n a g'}, P g → r.apply g n a = .ok g' → P g'

namespace Reduction.Blind

open Unguard.Graph

variable {α : Type} {r : Reduction α} {ρ : Recoding} {P : Graph → Prop}

theorem sites (h : r.Blind ρ P) (g : Graph) : r.sites (g.recode ρ) = r.sites g := by
  unfold Reduction.sites
  simp only [walk_recode, h.site?]

/-- The sites of a round are reduced one by one, so it is enough that every single reduction is blind. -/
theorem applyAll (h : r.Blind ρ P) {sites : List (NodeId × α)} {g : Graph} (hg : P g) :
    r.applyAll (g.recode ρ) sites =
      (r.applyAll g sites).map fun x => (x.1.recode ρ, x.2.map (ReducedSite.recode ρ)) := by
  induction sites generalizing g with
  | nil => rfl
  | cons site sites ih =>
    obtain ⟨n, a⟩ := site
    rw [Reduction.applyAll, Reduction.applyAll]
    refine bind_commutes (h.apply g n a hg) fun next hnext => ?_
    exact bind_commutes (ih (h.kept hg hnext)) fun _ _ => rfl

/-- Round by round, the sites are the same and what is made of them is recoded. -/
theorem rounds (h : r.Blind ρ P) {limit : Nat} {g : Graph} (hg : P g) :
    r.rounds limit (g.recode ρ) = (r.rounds limit g).map (·.recode ρ) := by
  induction limit generalizing g with
  | zero => rfl
  | succ limit ih =>
    rw [Reduction.rounds, Reduction.rounds, h.sites, map_bind]
    refine bind_congr fun sites => ?_
    split
    · rfl
    · refine bind_commutes (h.applyAll hg) fun after hafter => ?_
      obtain ⟨next, reduced⟩ := after
      refine bind_commutes (ih (keeps_applyAll h.kept hg hafter)) fun rest _ => ?_
      show Except.ok _ = Except.ok _
      simp [RoundsRun.recode]

/-- A reduction that is blind to labels and attributes makes the same run of a recoded graph. -/
theorem run (h : r.Blind ρ P) {limit : Nat} {g : Graph} (hg : P g) :
    r.run limit (g.recode ρ) = (r.run limit g).map (·.recode ρ) := by
  unfold Reduction.run
  rw [firstMismatch_recode]
  split
  · rfl
  · rfl
  · rw [h.rounds hg]
    cases r.rounds (effectiveLimit limit) g <;> rfl

end Reduction.Blind

/-- The links in the graph agree, and so do slots and chains. -/
def Graph.Coherent (g : Graph) : Prop :=
  g.Consistent ∧ g.Mirrored

theorem Graph.Coherent.applyRuns {runs : List PassRun} {g g' : Graph} (h : g.Coherent)
    (hok : g.applyRuns runs = .ok g') : g'.Coherent :=
  Graph.Consistent.of_editedTo (Graph.EditedTo.applyRuns h.1 h.2 (.refl _) hok) h.1 h.2

/-- Guards are found by their arms and deleted with all that is in them. -/
theorem blind_guardRemoval (ρ : Recoding) : guardRemoval.Blind ρ Graph.Coherent where
  site? g n := by
    unfold guardRemoval
    simp only [Graph.isGuard_recode]
  apply g n _ _ := Graph.erase_recode g ρ n
  kept h hok := Graph.Consistent.of_editedTo (Graph.EditedTo.erase (.refl _) hok) h.1 h.2

/-- Copies have the labels and attributes of what they are copied from, recoded or not. -/
theorem blind_hoisting (ops : OpSet) (ρ : Recoding) : (hoisting ops).Blind ρ Graph.Coherent where
  site? g n := Graph.computingArm?_recode g ρ ops n
  apply _ n arm h := Graph.hoist_recode h.1 n arm
  kept h hok := Graph.Consistent.of_editedTo (Graph.EditedTo.hoist h.1 h.2 (.refl _) hok) h.1 h.2

/-! ### Sweeps -/

namespace Graph

variable (ρ : Recoding) {impure : OpSet}

/-- What a step counted, and the recoded graph after it. -/
def recodeSnd {α : Type} (x : α × Graph) : α × Graph :=
  (x.1, x.2.recode ρ)

/-- One by one, the same nodes are dead and are erased. -/
theorem eraseDead_recode {ns : List NodeId} {g : Graph} :
    (g.recode ρ).eraseDead impure ns = (g.eraseDead impure ns).map (recodeSnd ρ) := by
  induction ns generalizing g with
  | nil => rfl
  | cons n ns ih =>
    rw [eraseDead, eraseDead, isDead_recode]
    split
    · refine bind_commutes (erase_recode g ρ n) fun next _ => ?_
      exact bind_commutes ih fun _ _ => rfl
    · exact ih

mutual

theorem sweepInside_recode : ∀ (body : NodeTrees) (g : Graph),
    (g.recode ρ).sweepInside impure (ρ.body body) = (g.sweepInside impure body).map (recodeSnd ρ)
  | .done, _ => rfl
  | .node head arms rest, g => by
    show ((g.recode ρ).sweepArms impure (ρ.arms arms) >>= _) = _
    rw [sweepInside]
    refine bind_commutes (sweepArms_recode arms g) fun first _ => ?_
    exact bind_commutes (sweepInside_recode rest first.2) fun _ _ => rfl

/-- A sweep goes from the inside out, and through each block from its last node to its first. -/
theorem sweepArms_recode : ∀ (arms : BlockTrees) (g : Graph),
    (g.recode ρ).sweepArms impure (ρ.arms arms) = (g.sweepArms impure arms).map (recodeSnd ρ)
  | .done, _ => rfl
  | .arm head body rest, g => by
    have hids : (ρ.body body).heads.map NodeView.id = body.heads.map NodeView.id := by
      rw [Recoding.body, Body.heads_map, List.map_map]
      rfl
    -- first what is inside the nodes of the block, then the nodes themselves, then the other blocks
    show ((g.recode ρ).sweepInside impure (ρ.body body) >>= _) = _
    rw [sweepArms]
    refine bind_commutes (sweepInside_recode body g) fun inside _ => ?_
    show ((inside.2.recode ρ).eraseDead impure ((ρ.body body).heads.map NodeView.id).reverse >>= _) = _
    rw [hids]
    refine bind_commutes (eraseDead_recode ρ) fun own _ => ?_
    exact bind_commutes (sweepArms_recode rest own.2) fun _ _ => rfl

end

theorem sweep_recode (g : Graph) :
    (g.recode ρ).sweep impure = (g.sweep impure).map (recodeSnd ρ) := by
  unfold sweep
  exact bind_commutes (tree_recode g ρ) fun t _ => sweepArms_recode ρ (.arm t.head t.body .done) g

/-- Sweeps end at the same time. -/
theorem sweeps_recode {limit : Nat} {g : Graph} :
    sweeps impure limit (g.recode ρ) = (sweeps impure limit g).map (recodeSnd ρ) := by
  induction limit generalizing g with
  | zero => rfl
  | succ limit ih =>
    rw [sweeps, sweeps]
    refine bind_commutes (sweep_recode ρ g) fun step _ => ?_
    show (if step.1 = 0 then _ else _) = Except.map _ (if step.1 = 0 then _ else _)
    split
    · rfl
    · exact bind_commutes ih fun _ _ => rfl

end Graph

/-! ### Checks -/

section Checks

variable {ρ : Recoding}

mutual

theorem NodeTrees.shapeViolations_recode : ∀ body : NodeTrees,
    NodeTrees.shapeViolations (ρ.body body) = NodeTrees.shapeViolations body
  | .done => rfl
  | .node head arms rest => by
    have hheads : (ρ.arms arms).heads = arms.heads := (Arms.heads_map _ _ arms).trans (List.map_id _)
    show nodeShapeViolations (ρ.view head) (ρ.arms arms).heads ++
      BlockTrees.shapeViolations (ρ.arms arms) ++ NodeTrees.shapeViolations (ρ.body rest) = _
    rw [hheads, BlockTrees.shapeViolations_recode arms, NodeTrees.shapeViolations_recode rest]
    rfl

theorem BlockTrees.shapeViolations_recode : ∀ arms : BlockTrees,
    BlockTrees.shapeViolations (ρ.arms arms) = BlockTrees.shapeViolations arms
  | .done => rfl
  | .arm head body rest => by
    show NodeTrees.shapeViolations (ρ.body body) ++ BlockTrees.shapeViolations (ρ.arms rest) = _
    rw [NodeTrees.shapeViolations_recode body, BlockTrees.shapeViolations_recode rest]
    rfl

end

mutual

theorem NodeTrees.scopeViolations_recode : ∀ (body : NodeTrees) (visible : List ValueId),
    NodeTrees.scopeViolations visible (ρ.body body) = NodeTrees.scopeViolations visible body
  | .done, _ => rfl
  | .node head arms rest, visible => by
    show _ ++ BlockTrees.scopeViolations visible (ρ.arms arms) ++
      NodeTrees.scopeViolations (visibleAfter visible [ρ.view head]) (ρ.body rest) = _
    rw [BlockTrees.scopeViolations_recode arms, NodeTrees.scopeViolations_recode rest]
    rfl

/-- What is visible is a matter of values and their definitions, not of their labels. -/
theorem BlockTrees.scopeViolations_recode : ∀ (arms : BlockTrees) (visible : List ValueId),
    BlockTrees.scopeViolations visible (ρ.arms arms) = BlockTrees.scopeViolations visible arms
  | .done, _ => rfl
  | .arm head body rest, visible => by
    have hvisible : ∀ visible, visibleAfter visible (ρ.body body).heads =
        visibleAfter visible body.heads := by
      intro visible
      rw [visibleAfter, visibleAfter, Recoding.body, Body.heads_map, List.flatMap_map]
      rfl
    show NodeTrees.scopeViolations _ (ρ.body body) ++
      slotViolations (visibleAfter _ (ρ.body body).heads) _ ++
      BlockTrees.scopeViolations visible (ρ.arms rest) = _
    rw [NodeTrees.scopeViolations_recode body, BlockTrees.scopeViolations_recode rest, hvisible]
    rfl

end

mutual

theorem NodeTrees.slots_recode : ∀ body : NodeTrees,
    NodeTrees.slots (ρ.body body) = NodeTrees.slots body
  | .done => rfl
  | .node head arms rest => by
    show _ ++ BlockTrees.slots (ρ.arms arms) ++ NodeTrees.slots (ρ.body rest) = _
    rw [BlockTrees.slots_recode arms, NodeTrees.slots_recode rest]
    rfl

theorem BlockTrees.slots_recode : ∀ arms : BlockTrees,
    BlockTrees.slots (ρ.arms arms) = BlockTrees.slots arms
  | .done => rfl
  | .arm head body rest => by
    show NodeTrees.slots (ρ.body body) ++ _ ++ BlockTrees.slots (ρ.arms rest) = _
    rw [NodeTrees.slots_recode body, BlockTrees.slots_recode rest]
    rfl

end

/-- A check sees the same violations, whatever the labels and attributes are. -/
theorem Graph.check_recode (g : Graph) : (g.recode ρ).check = g.check := by
  have hstale : ∀ slots, (g.recode ρ).staleUses slots = g.staleUses slots := by
    intro slots
    unfold staleUses valueIds
    rw [size_values_recode]
    rfl
  have harms : ∀ t : BlockTree, (ρ.tree t).toArms = ρ.arms t.toArms := fun _ => rfl
  unfold check checkShape checkScopes checkUses
  rw [tree_recode]
  cases g.tree with
  | error fault => rfl
  | ok t =>
    simp only [Except.map, ok_bind, harms, BlockTrees.shapeViolations_recode,
      BlockTrees.scanScopes_eq _ fun _ => Iff.rfl, BlockTrees.scopeViolations_recode,
      BlockTrees.slots_recode, hstale]
    rfl

end Checks

/-! ### Stages -/

namespace Config

open Unguard.Graph

variable (config : Config) (ρ : Recoding) {g : Graph}

theorem reduce_recode (pass : Pass) (h : g.Coherent) :
    config.reduce pass (g.recode ρ) = (config.reduce pass g).map (·.recode ρ) := by
  cases pass with
  | guardRaise => exact (blind_guardRemoval ρ).run h
  | promote => exact (blind_hoisting config.promotable ρ).run h

theorem sweep_recode (g : Graph) :
    config.sweep (g.recode ρ) = (config.sweep g).map (recodeSnd ρ) := by
  unfold Config.sweep
  split
  · unfold sweepDeadCode
    exact bind_commutes (sweeps_recode ρ) fun _ _ => rfl
  · rfl

theorem verify_recode (g : Graph) : config.verify (g.recode ρ) = config.verify g := by
  unfold verify
  rw [check_recode]

variable {config} in
/-- A stage leaves a coherent graph coherent. -/
theorem coherent_stage {pass : Pass} {rounds : RoundsRun} {sweep : Option SweepReport} {after : Graph}
    (h : g.Coherent) (hrounds : config.reduce pass g = .ok rounds)
    (hsweep : config.sweep rounds.graph = .ok (sweep, after)) : after.Coherent := by
  have hpass : g.applyRuns [config.passRun pass] = .ok rounds.graph := by
    rw [applyRuns, List.foldlM_cons, apply_passRun, hrounds]
    rfl
  exact (h.applyRuns hpass).applyRuns (applyRuns_sweep hsweep)

end Config

/-- What happened, in recoded graphs. -/
def Event.recode (ρ : Recoding) : Event → Event
  | .started pass g => .started pass (g.recode ρ)
  | .reducing pass n g => .reducing pass n (g.recode ρ)
  | .finished pass g => .finished pass (g.recode ρ)
  | .reduced pass report => .reduced pass report
  | .unfinished pass rounds => .unfinished pass rounds
  | .swept removed sweeps => .swept removed sweeps
  | .summary pass sites removed => .summary pass sites removed

def Run.recode (ρ : Recoding) (run : Run) : Run :=
  ⟨run.graph.recode ρ, run.events.map (Event.recode ρ), run.outcome⟩

namespace Config

open Unguard.Graph

variable (config : Config) (ρ : Recoding)

/-- The events of a run differ in the snapshots alone. -/
theorem roundEvents_recode (pass : Pass) (run : RoundsRun) :
    roundEvents pass (run.recode ρ) = (roundEvents pass run).map (Event.recode ρ) := by
  have hunfinished :
      (if run.settled then [] else [Event.unfinished pass run.rounds]).map (Event.recode ρ) =
        if run.settled then [] else [.unfinished pass run.rounds] := by
    split <;> rfl
  unfold roundEvents
  rw [run.report_recode, List.map_append, List.map_append, hunfinished, List.map_map]
  show (run.reduced.map (ReducedSite.recode ρ)).map _ ++ _ ++ _ = _
  rw [List.map_map]
  rfl

theorem sweepEvents_recode (sweep : Option SweepReport) :
    (sweepEvents sweep).map (Event.recode ρ) = sweepEvents sweep := by
  unfold sweepEvents
  split
  · split <;> rfl
  · rfl

/-- Passes do not look at what is recoded. -/
theorem runPasses_recode : ∀ (passes : List Pass) {g : Graph}, g.Coherent →
    config.runPasses passes (g.recode ρ) = (config.runPasses passes g).map (Run.recode ρ)
  | [], _, _ => rfl
  | pass :: passes, g, h => by
    -- A pass, its sweep, the check and the passes after it commute with the recoding one by one.
    rw [runPasses, runPasses, reduce_recode config ρ pass h]
    cases hrounds : config.reduce pass g with
    | error e => cases e <;> rfl
    | ok rounds =>
      show (config.sweep (rounds.graph.recode ρ) >>= _) = Except.map _ (config.sweep rounds.graph >>= _)
      refine bind_commutes (sweep_recode config ρ rounds.graph) fun swept hsweep => ?_
      obtain ⟨sweep, after⟩ := swept
      show (config.verify (after.recode ρ) >>= _) = Except.map _ (config.verify after >>= _)
      rw [verify_recode, map_bind]
      refine bind_congr fun checked => ?_
      split
      · have hafter := coherent_stage h hrounds hsweep
        refine bind_commutes (runPasses_recode passes hafter) fun rest _ => congrArg Except.ok ?_
        simp [Run.recode, Event.recode, roundEvents_recode, sweepEvents_recode, rounds.report_recode]
      · refine congrArg Except.ok ?_
        simp [Run.recode, Event.recode, roundEvents_recode, sweepEvents_recode]

theorem run_recode {g : Graph} (h : g.Coherent) :
    config.run (g.recode ρ) = (config.run g).map (Run.recode ρ) :=
  runPasses_recode config ρ config.passes h

end Config

end Unguard
