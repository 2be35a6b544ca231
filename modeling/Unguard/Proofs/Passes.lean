import Unguard.Lower.Stages
import Unguard.Proofs.Guards
import Unguard.Proofs.Hoisting
import Unguard.Proofs.Sweeping

/-!
# Sequences of passes

A pass changes a graph by three kinds of steps: it deletes a guard, it deletes a dead node, or it
hoists a guarded computation.  `KeptByPasses` lists what has to be shown of a property of graphs and
their trees in order that every pass keeps it, one step at a time.  Then runs of passes, in any order
and with any limits, keep the property (`KeptByPasses.of_runs`), and they go through if the arms of
conditionals return what they should (`KeptByPasses.runs_ok`).

A lowering that succeeds is such a sequence (`Config.runPasses_eq_runs`).
-/

namespace Unguard

theorem map_eq_ok_iff {ε α β : Type} {x : Except ε α} {f : α → β} {b : β} :
    x.map f = .ok b ↔ ∃ a, x = .ok a ∧ f a = b := by
  cases x with
  | error e => simp [Except.map]
  | ok a => simp [Except.map]

/-- One run of a pass, with all its settings. -/
inductive PassRun
  | guardRemoval (limit : Nat)
  | hoisting (ops : OpSet) (limit : Nat)
  | sweeping (impure : OpSet) (limit : Nat)
deriving DecidableEq

namespace PassRun

/-- The graph after a run. -/
def apply (g : Graph) : PassRun → Except PassError Graph
  | guardRemoval limit => (Unguard.guardRemoval.run limit g).map RoundsRun.graph
  | hoisting ops limit => ((Unguard.hoisting ops).run limit g).map RoundsRun.graph
  | sweeping impure limit =>
    match g.sweepDeadCode impure limit with
    | .error fault => .error (.fault fault)
    | .ok (_, after) => .ok after

/-- The operators that count as impure in a run fulfil `swept`, if it sweeps dead code. -/
def Sweeps (swept : OpSet → Prop) : PassRun → Prop
  | guardRemoval _ | hoisting _ _ => True
  | sweeping impure _ => swept impure

end PassRun

/-- The graph after several runs. -/
def Graph.applyRuns (g : Graph) (runs : List PassRun) : Except PassError Graph :=
  runs.foldlM PassRun.apply g

/-- What has to be shown of a property of graphs and trees in order that passes keep it, where the
operators that count as impure in sweeps fulfil `swept`. -/
structure KeptByPasses (swept : OpSet → Prop) (X : Graph → BlockTree → Prop) : Prop where
  guard : ∀ {g t head arms g'}, t.toArms.WellFormed [] → (head, arms) ∈ t.toArms.subtrees →
    head.isGuard arms = true → g'.values = g.values ∧ g'.types = g.types → X g t →
    X g' (t.replace head.id .done)
  dead : ∀ {impure}, swept impure → Graph.KeptBySweeping impure X
  hoist : ∀ {ops g t head arms m g' π}, g.Represents t → t.toArms.WellFormed [] →
    Hoistable t head arms m → head.computingArm? ops arms = some m → Hoisted g t head m π g' →
    X g t → X g' ((t.hoisted head m).relabel π)

theorem Arms.balanced_relabel {t : BlockTree} (h : t.toArms.Balanced) (π : Relabeling) :
    (t.relabel π).toArms.Balanced := by
  rw [BlockTree.toArms_relabel]
  exact Arms.Balanced.map h (faithful_rename _ _ _)

theorem Arms.shaped_relabel {t : BlockTree} (h : t.toArms.Shaped) (π : Relabeling) :
    (t.relabel π).toArms.Shaped := by
  rw [BlockTree.toArms_relabel]
  exact Arms.Shaped.map h (faithful_rename _ _ _)

namespace KeptByPasses

open Unguard.Graph

variable {swept : OpSet → Prop} {X Y : Graph → BlockTree → Prop} {g g' : Graph} {t : BlockTree}

/-- Two properties that passes keep. -/
theorem and (h : KeptByPasses swept X) (h' : KeptByPasses swept Y) :
    KeptByPasses swept fun g t => X g t ∧ Y g t where
  guard hwf hmem hguard hlabels hx :=
    ⟨h.guard hwf hmem hguard hlabels hx.1, h'.guard hwf hmem hguard hlabels hx.2⟩
  dead hi := ⟨fun hwf hmem hdead hlabels hx =>
    ⟨(h.dead hi).erase hwf hmem hdead hlabels hx.1, (h'.dead hi).erase hwf hmem hdead hlabels hx.2⟩⟩
  hoist hg hwf hh harm hmoved hx :=
    ⟨h.hoist hg hwf hh harm hmoved hx.1, h'.hoist hg hwf hh harm hmoved hx.2⟩

theorem shaped : KeptByPasses swept fun _ t => t.toArms.Shaped where
  guard _ _ _ _ hx := Arms.AllNodes.replace_done hx _
  dead _ := ⟨fun _ _ _ _ hx => Arms.AllNodes.replace_done hx _⟩
  hoist _ _ hh _ _ hx := Arms.shaped_relabel (hh.shaped hx) _

theorem balanced : KeptByPasses swept fun _ t => t.toArms.Balanced where
  guard _ _ _ _ hx := Arms.AllNodes.replace_done hx _
  dead _ := ⟨fun _ _ _ _ hx => Arms.AllNodes.replace_done hx _⟩
  hoist _ _ hh _ _ hx := Arms.balanced_relabel (hh.isBalanced hx) _

/-! ### Graphs whose arms return what they should -/

theorem guardRemoval_sound_balanced :
    guardRemoval.Sound guardSite (Holds fun _ t => t.toArms.Balanced) := by
  have hkept : KeptByPasses (fun _ => True) fun _ t => t.toArms.Shaped ∧ t.toArms.Balanced :=
    shaped.and balanced
  exact guardRemoval_sound hkept.guard

theorem hoisting_sound_balanced (ops : OpSet) :
    (hoisting ops).Sound (hoistSite ops) (Holds fun _ t => t.toArms.Balanced) := by
  have hsound := hoisting_sound ops (X := fun _ _ => True) fun _ _ _ _ _ _ => trivial
  simp only [and_true] at hsound
  exact hsound

/-! ### One run -/

/-- Guards are removed without failing, and a run that settles leaves none. -/
theorem guardRemoval_ok (h : KeptByPasses swept X) (limit : Nat) (hX : Holds X g t)
    (harity : g.firstMismatch = .ok none) :
    ∃ run t', guardRemoval.run limit g = .ok run ∧ Holds X run.graph t' ∧
      (run.settled = true → ∀ p ∈ t'.toArms.subtrees, guardSite p.1 p.2 = none) := by
  obtain ⟨hg, hwf, hshape, hx⟩ := hX
  have hsound := guardRemoval_sound (X := fun g t => t.toArms.Shaped ∧ X g t) (shaped.and h).guard
  exact hsound.run_ok limit ⟨hg, hwf, hshape, hx⟩ harity

/-- So are computations hoisted. -/
theorem hoisting_ok (h : KeptByPasses swept X) (ops : OpSet) (limit : Nat) (hX : Holds X g t)
    (harity : g.firstMismatch = .ok none) :
    ∃ run t', (hoisting ops).run limit g = .ok run ∧ Holds X run.graph t' ∧
      (run.settled = true → ∀ p ∈ t'.toArms.subtrees, hoistSite ops p.1 p.2 = none) := by
  obtain ⟨hg, hwf, hshape, hx⟩ := hX
  have hbal := (hg.firstMismatch_eq_ok_none_iff hshape).1 harity
  obtain ⟨run, t', hrun, ⟨hg', hwf', hshape', -, hx'⟩, hsettled⟩ :=
    (hoisting_sound ops h.hoist).run_ok limit ⟨hg, hwf, hshape, hbal, hx⟩ harity
  exact ⟨run, t', hrun, ⟨hg', hwf', hshape', hx'⟩, hsettled⟩

/-- A run goes through and keeps the property, if the arms of conditionals return what they should. -/
theorem apply_ok (h : KeptByPasses swept X) (r : PassRun) (hr : r.Sweeps swept) (hX : Holds X g t)
    (harity : g.firstMismatch = .ok none) : ∃ g' t', r.apply g = .ok g' ∧ Holds X g' t' := by
  cases r with
  | guardRemoval limit =>
    obtain ⟨run, t', hrun, hX', -⟩ := h.guardRemoval_ok limit hX harity
    refine ⟨run.graph, t', ?_, hX'⟩
    rw [PassRun.apply, hrun]
    rfl
  | hoisting ops limit =>
    obtain ⟨run, t', hrun, hX', -⟩ := h.hoisting_ok ops limit hX harity
    refine ⟨run.graph, t', ?_, hX'⟩
    rw [PassRun.apply, hrun]
    rfl
  | sweeping impure limit =>
    obtain ⟨report, g', t', hrun, hX'⟩ := (h.dead hr).sweepDeadCode_ok limit hX
    refine ⟨g', t', ?_, hX'⟩
    rw [PassRun.apply, hrun]

/-- A run that goes through keeps the property. -/
theorem of_apply (h : KeptByPasses swept X) {r : PassRun} (hr : r.Sweeps swept) (hX : Holds X g t)
    (hrun : r.apply g = .ok g') : ∃ t', Holds X g' t' := by
  cases r with
  | sweeping impure limit =>
    obtain ⟨report, after, t', hok, hX'⟩ := (h.dead hr).sweepDeadCode_ok limit hX
    rw [PassRun.apply, hok] at hrun
    exact ⟨t', Except.ok.inj hrun ▸ hX'⟩
  | guardRemoval limit =>
    obtain ⟨run, hok, -⟩ := map_eq_ok_iff.1 hrun
    have harity := Reduction.firstMismatch_of_run hok
    obtain ⟨after, t', hok, hX'⟩ := h.apply_ok (.guardRemoval limit) hr hX harity
    exact ⟨t', Except.ok.inj (hok.symm.trans hrun) ▸ hX'⟩
  | hoisting ops limit =>
    obtain ⟨run, hok, -⟩ := map_eq_ok_iff.1 hrun
    have harity := Reduction.firstMismatch_of_run hok
    obtain ⟨after, t', hok, hX'⟩ := h.apply_ok (.hoisting ops limit) hr hX harity
    exact ⟨t', Except.ok.inj (hok.symm.trans hrun) ▸ hX'⟩

/-! ### Several runs -/

/-- Runs that go through keep the property. -/
theorem of_runs (h : KeptByPasses swept X) : ∀ {runs : List PassRun} {g : Graph} {t : BlockTree},
    (∀ r ∈ runs, r.Sweeps swept) → Holds X g t → g.applyRuns runs = .ok g' → ∃ t', Holds X g' t'
  | [], _, t, _, hX, hrun => ⟨t, Except.ok.inj hrun ▸ hX⟩
  | r :: runs, g, t, hr, hX, hrun => by
    rw [applyRuns, List.foldlM_cons, bind_eq_ok_iff] at hrun
    obtain ⟨g₁, h₁, hrest⟩ := hrun
    obtain ⟨t₁, hX₁⟩ := h.of_apply (hr r List.mem_cons_self) hX h₁
    exact h.of_runs (fun s hs => hr s (List.mem_cons_of_mem _ hs)) hX₁ hrest

/-- Runs go through, if the arms of conditionals return what they should. -/
theorem runs_ok (h : KeptByPasses swept X) : ∀ (runs : List PassRun) {g : Graph} {t : BlockTree},
    (∀ r ∈ runs, r.Sweeps swept) → Holds X g t → g.firstMismatch = .ok none →
    ∃ g', g.applyRuns runs = .ok g'
  | [], g, _, _, _, _ => ⟨g, rfl⟩
  | r :: runs, g, t, hr, ⟨hg, hwf, hshape, hx⟩, harity => by
    have hbal := (hg.firstMismatch_eq_ok_none_iff hshape).1 harity
    obtain ⟨g₁, t₁, h₁, hg₁, hwf₁, hshape₁, hbal₁, hx₁⟩ := (balanced.and h).apply_ok r
      (hr r List.mem_cons_self) ⟨hg, hwf, hshape, hbal, hx⟩ harity
    obtain ⟨g', h'⟩ := h.runs_ok runs (fun s hs => hr s (List.mem_cons_of_mem _ hs))
      ⟨hg₁, hwf₁, hshape₁, hx₁⟩ ((hg₁.firstMismatch_eq_ok_none_iff hshape₁).2 hbal₁)
    refine ⟨g', ?_⟩
    rw [applyRuns, List.foldlM_cons, h₁]
    exact h'

end KeptByPasses

/-! ### Lowering -/

/-- The run of a pass that a configuration asks for. -/
def Config.passRun (config : Config) : Pass → PassRun
  | .guardRaise => .guardRemoval config.passLimit
  | .promote => .hoisting config.promotable config.passLimit

/-- The runs that a configuration asks for. -/
def Config.runs (config : Config) (passes : List Pass) : List PassRun :=
  passes.flatMap fun pass => config.passRun pass ::
    if config.sweeps then [.sweeping config.impure config.sweepLimit] else []

namespace Config

variable {config : Config} {g : Graph}

theorem apply_passRun (config : Config) (pass : Pass) (g : Graph) :
    (config.passRun pass).apply g = (config.reduce pass g).map RoundsRun.graph := by
  cases pass <;> rfl

/-- A sweep of the configuration is a pass like others, or none. -/
theorem applyRuns_sweep {sweep : Option SweepReport} {after : Graph}
    (h : config.sweep g = .ok (sweep, after)) :
    g.applyRuns (if config.sweeps then [.sweeping config.impure config.sweepLimit] else []) =
      .ok after := by
  rw [Config.sweep] at h
  split at h
  · obtain ⟨⟨report, last⟩, hsweep, h⟩ := bind_eq_ok_iff.1 h
    obtain rfl : last = after := congrArg Prod.snd (Except.ok.inj h)
    rw [if_pos ‹_›, Graph.applyRuns, List.foldlM_cons, PassRun.apply, hsweep]
    rfl
  · rw [if_neg ‹_›]
    exact congrArg Except.ok (congrArg Prod.snd (Except.ok.inj h))

section Stage

variable {pass : Pass} {passes : List Pass}

/-- What the first stage did in a run that succeeded. -/
theorem runPasses_cons_eq_ok {run : Run} {stages : List StageReport}
    (h : config.runPasses (pass :: passes) g = .ok run) (hout : run.outcome = .ok stages) :
    ∃ rounds sweep after rest later, config.reduce pass g = .ok rounds ∧
      config.sweep rounds.graph = .ok (sweep, after) ∧ config.runPasses passes after = .ok rest ∧
      rest.outcome = .ok later ∧ run.graph = rest.graph ∧
      stages = ⟨pass, rounds.report, sweep⟩ :: later := by
  rw [runPasses] at h
  split at h
  · exact nomatch h
  · obtain rfl := Except.ok.inj h
    exact nomatch hout
  · rename_i rounds hrounds
    obtain ⟨⟨sweep, after⟩, hsweep, h⟩ := bind_eq_ok_iff.1 h
    obtain ⟨checked, -, h⟩ := bind_eq_ok_iff.1 h
    dsimp only at h
    split at h
    · obtain ⟨rest, hrest, h⟩ := bind_eq_ok_iff.1 h
      obtain rfl := Except.ok.inj h
      obtain ⟨later, hlater, hstages⟩ := map_eq_ok_iff.1 hout
      exact ⟨rounds, sweep, after, rest, later, hrounds, hsweep, hrest, hlater, rfl, hstages.symm⟩
    · obtain rfl := Except.ok.inj h
      exact nomatch hout

/-- A run succeeds if its first stage goes through and the rest succeeds. -/
theorem runPasses_cons_ok {rounds : RoundsRun} {sweep : Option SweepReport} {after : Graph} {rest : Run}
    {later : List StageReport} (hrounds : config.reduce pass g = .ok rounds)
    (hsweep : config.sweep rounds.graph = .ok (sweep, after))
    (hverify : config.verify after = .ok ⟨[]⟩) (hrest : config.runPasses passes after = .ok rest)
    (hlater : rest.outcome = .ok later) :
    ∃ run, config.runPasses (pass :: passes) g = .ok run ∧ run.graph = rest.graph ∧
      run.outcome = .ok (⟨pass, rounds.report, sweep⟩ :: later) := by
  rw [runPasses, hrounds]
  dsimp only
  rw [hsweep, ok_bind]
  dsimp only
  rw [hverify, ok_bind]
  simp only [CheckReport.isOk, List.isEmpty_nil, if_true, hrest, ok_bind]
  exact ⟨_, rfl, rfl, map_eq_ok_iff.2 ⟨later, hlater, rfl⟩⟩

end Stage

/-- A run of passes that succeeds is a sequence of runs. -/
theorem runPasses_eq_runs : ∀ {passes : List Pass} {g : Graph} {run : Run} {stages : List StageReport},
    config.runPasses passes g = .ok run → run.outcome = .ok stages →
    g.applyRuns (config.runs passes) = .ok run.graph
  | [], g, run, stages, h, _ => by
    obtain rfl := Except.ok.inj h
    rfl
  | pass :: passes, g, run, stages, h, hout => by
    obtain ⟨rounds, sweep, after, rest, later, hrounds, hsweep, hrest, hlater, hgraph, -⟩ :=
      runPasses_cons_eq_ok h hout
    have hpass : (config.passRun pass).apply g = .ok rounds.graph := by
      rw [apply_passRun, hrounds]
      rfl
    have hlast := runPasses_eq_runs hrest hlater
    rw [Graph.applyRuns] at hlast
    have hmid := applyRuns_sweep hsweep
    rw [Graph.applyRuns] at hmid
    rw [runs, Graph.applyRuns, List.flatMap_cons, List.cons_append, List.foldlM_cons, hpass, ok_bind,
      List.foldlM_append, hmid, ok_bind, hgraph]
    exact hlast

/-- What a lowering that succeeded did. -/
theorem lowerText_eq_ok {source : String} {lowering : Lowering} {lowered : LoweredGraph}
    (hlower : config.lowerText source = .ok lowering) (hout : lowering.outcome = .ok lowered) :
    ∃ g run, Graph.ofText source = .ok g ∧ config.runPasses config.passes g = .ok run ∧
      run.outcome = .ok lowered.stages ∧ run.graph = lowered.graph := by
  rw [lowerText] at hlower
  split at hlower
  · obtain rfl := Except.ok.inj hlower
    exact nomatch hout
  · rename_i g hread
    obtain ⟨run, hrun, hlower⟩ := bind_eq_ok_iff.1 hlower
    obtain rfl := Except.ok.inj hlower
    obtain ⟨stages, hstages, rfl⟩ := map_eq_ok_iff.1 hout
    exact ⟨g, run, hread, hrun, hstages, rfl⟩

/-- A lowering succeeds if the text is read and the passes succeed. -/
theorem lowerText_ok {source : String} {run : Run} {stages : List StageReport}
    (hread : Graph.ofText source = .ok g) (hrun : config.runPasses config.passes g = .ok run)
    (hout : run.outcome = .ok stages) : ∃ lowering, config.lowerText source = .ok lowering ∧
      lowering.outcome = .ok ⟨run.graph, stages⟩ := by
  rw [lowerText, hread]
  dsimp only
  rw [Config.run, hrun]
  exact ⟨_, rfl, map_eq_ok_iff.2 ⟨stages, hout, rfl⟩⟩

/-- All sweeps of a configuration go by the same set of impure operators. -/
theorem sweeps_of_mem_runs {passes : List Pass} {r : PassRun} (h : r ∈ config.runs passes) :
    r.Sweeps (· = config.impure) := by
  obtain ⟨pass, -, hr⟩ := List.mem_flatMap.1 h
  rcases List.mem_cons.1 hr with rfl | hr
  · cases pass <;> trivial
  · split at hr
    · obtain rfl := List.mem_singleton.1 hr
      exact rfl
    · exact nomatch hr

end Config

end Unguard
