import Unguard.Proofs.Safety

/-!
# Passes that find nothing

A pass changes nothing exactly if it has no site in the graph, and sweeps change nothing exactly if no
node is dead.  So a run of passes reduces nothing exactly if no pass has a site in the graph that it
starts with, provided that this graph is swept already (`Config.runPasses_idle`,
`Config.sites_of_runPasses`).

A run that is settled ends at such a point: rounds end where the pass has no site left, and sweeps where
no node is dead.  What comes later may undo the former (`Config.sites_of_quiet`), but not the latter
(`Config.swept_of_runPasses`).
-/

namespace Unguard

/-- At least one round is made. -/
theorem exists_effectiveLimit (limit : Nat) : ∃ n, effectiveLimit limit = n + 1 := by
  rw [effectiveLimit]
  split
  · exact ⟨99, rfl⟩
  · exact Nat.exists_eq_succ_of_ne_zero ‹_›

/-! ### Rounds -/

namespace Reduction

variable {α : Type} {r : Reduction α} {g : Graph} {run : RoundsRun} {limit : Nat}

/-- Without sites the first round is the last one. -/
theorem rounds_of_sites_nil (h : r.sites g = .ok []) (limit : Nat) :
    r.rounds (limit + 1) g = .ok ⟨g, [], 1, true⟩ := by
  rw [rounds, h]
  rfl

/-- Every site that is tried is reported. -/
theorem length_reduced_of_applyAll : ∀ {sites : List (NodeId × α)} {g g' : Graph}
    {reduced : List ReducedSite}, r.applyAll g sites = .ok (g', reduced) →
    reduced.length = sites.length
  | [], g, g', reduced, h => by
    obtain ⟨-, rfl⟩ := Prod.mk.inj (Except.ok.inj h)
    rfl
  | (n, a) :: sites, g, g', reduced, h => by
    obtain ⟨next, -, h⟩ := bind_eq_ok_iff.1 h
    obtain ⟨⟨last, later⟩, hrest, h⟩ := bind_eq_ok_iff.1 h
    obtain ⟨rfl, rfl⟩ := Prod.mk.inj (Except.ok.inj h)
    rw [List.length_cons, List.length_cons, length_reduced_of_applyAll hrest]

/-- The sites of a round are reduced, and the rounds go on. -/
theorem rounds_of_sites {sites : List (NodeId × α)} {next : Graph} {reduced : List ReducedSite}
    (hsites : r.sites g = .ok sites) (hne : sites ≠ [])
    (hall : r.applyAll g sites = .ok (next, reduced)) (limit : Nat) :
    r.rounds (limit + 1) g = (r.rounds limit next).map fun rest =>
      ⟨rest.graph, reduced ++ rest.reduced, rest.rounds + 1, rest.settled⟩ := by
  rw [rounds, hsites, ok_bind, if_neg fun hempty => hne (List.isEmpty_iff.1 hempty), hall, ok_bind]
  dsimp only
  cases r.rounds limit next <;> rfl

/-- One more round: there is no site, or the sites are reduced and the rounds go on. -/
theorem rounds_succ_eq_ok (h : r.rounds (limit + 1) g = .ok run) :
    (r.sites g = .ok [] ∧ run = ⟨g, [], 1, true⟩) ∨ ∃ sites next reduced rest,
      r.sites g = .ok sites ∧ sites ≠ [] ∧ r.applyAll g sites = .ok (next, reduced) ∧
      r.rounds limit next = .ok rest ∧
      run = ⟨rest.graph, reduced ++ rest.reduced, rest.rounds + 1, rest.settled⟩ := by
  rw [rounds] at h
  obtain ⟨sites, hsites, h⟩ := bind_eq_ok_iff.1 h
  split at h
  · rename_i hempty
    rw [List.isEmpty_iff.1 hempty] at hsites
    exact Or.inl ⟨hsites, (Except.ok.inj h).symm⟩
  · rename_i hne
    obtain ⟨⟨next, reduced⟩, hall, h⟩ := bind_eq_ok_iff.1 h
    obtain ⟨rest, hrest, h⟩ := bind_eq_ok_iff.1 h
    refine Or.inr ⟨sites, next, reduced, rest, hsites, fun hnil => hne ?_, hall, hrest, ?_⟩
    · rw [hnil]
      rfl
    · exact (Except.ok.inj h).symm

theorem sites_of_settled : ∀ {limit : Nat} {g : Graph} {run : RoundsRun},
    r.rounds limit g = .ok run → run.settled = true → r.sites run.graph = .ok []
  | 0, g, run, h, hsettled => by
    obtain rfl := Except.ok.inj h
    exact nomatch hsettled
  | limit + 1, g, run, h, hsettled => by
    obtain ⟨hsites, rfl⟩ | ⟨sites, next, reduced, rest, -, -, -, hrest, rfl⟩ := rounds_succ_eq_ok h
    · exact hsites
    · have hlast : rest.settled = true := hsettled
      have hsites := sites_of_settled hrest hlast
      exact hsites

/-- A run is made only if arities match. -/
theorem run_eq_ok (h : r.run limit g = .ok run) :
    g.firstMismatch = .ok none ∧ r.rounds (effectiveLimit limit) g = .ok run := by
  refine ⟨firstMismatch_of_run h, ?_⟩
  rw [Reduction.run, firstMismatch_of_run h] at h
  dsimp only at h
  split at h
  · cases h
  · rename_i rounds hrounds
    exact hrounds.trans (congrArg Except.ok (Except.ok.inj h))

/-- A run without sites changes nothing. -/
theorem run_of_sites_nil (harity : g.firstMismatch = .ok none) (h : r.sites g = .ok []) (limit : Nat) :
    r.run limit g = .ok ⟨g, [], 1, true⟩ := by
  obtain ⟨n, hn⟩ := exists_effectiveLimit limit
  simp only [Reduction.run, harity, hn, rounds_of_sites_nil h]

/-- A run that reduced nothing found nothing. -/
theorem sites_of_reduced_nil (h : r.run limit g = .ok run) (hnil : run.reduced = []) :
    r.sites g = .ok [] ∧ run.graph = g := by
  obtain ⟨n, hn⟩ := exists_effectiveLimit limit
  have hrounds := (run_eq_ok h).2
  rw [hn] at hrounds
  obtain ⟨hsites, rfl⟩ | ⟨sites, next, reduced, rest, -, hne, hall, -, rfl⟩ :=
    rounds_succ_eq_ok hrounds
  · exact ⟨hsites, rfl⟩
  · -- as many sites were reduced as were found
    have hlength := length_reduced_of_applyAll hall
    rw [(List.append_eq_nil_iff.1 hnil).1] at hlength
    exact absurd (List.length_eq_zero_iff.1 hlength.symm) hne

end Reduction

/-! ### Sweeps -/

namespace Graph

variable {g g' : Graph} {impure : OpSet} {report : SweepReport} {limit : Nat}

/-- Nothing is erased exactly if nothing is dead. -/
theorem eraseDead_eq_zero_iff {ns : List NodeId} :
    g.eraseDead impure ns = .ok (0, g') ↔ g' = g ∧ ∀ n ∈ ns, g.isDead impure n = false := by
  induction ns with
  | nil =>
    rw [eraseDead, Except.ok.injEq, Prod.mk.injEq]
    exact ⟨fun h => ⟨h.2.symm, List.forall_mem_nil _⟩, fun h => ⟨rfl, h.1.symm⟩⟩
  | cons n ns ih =>
    rw [eraseDead, List.forall_mem_cons]
    -- A dead node is erased and counted.
    split
    · rename_i hdead
      refine iff_of_false (fun h => ?_) fun h => Bool.false_ne_true (h.2.1.symm.trans hdead)
      obtain ⟨g₁, -, h⟩ := bind_eq_ok_iff.1 h
      obtain ⟨⟨count, g₂⟩, -, h⟩ := bind_eq_ok_iff.1 h
      exact Nat.succ_ne_zero count (congrArg Prod.fst (Except.ok.inj h))
    · rename_i hdead
      rw [ih, Bool.eq_false_of_not_eq_true hdead]
      simp

theorem sweepArms_eq_zero_iff {arms : BlockTrees} :
    g.sweepArms impure arms = .ok (0, g') ↔ g' = g ∧ ∀ n ∈ arms.ids, g.isDead impure n = false := by
  rw [sweepArms_eq, eraseDead_eq_zero_iff]
  simp only [arms.map_id_sweepOrder_perm.mem_iff]

/-- A sweep that erases nothing leaves the graph as it is. -/
theorem eq_of_sweep_zero (h : g.sweep impure = .ok (0, g')) : g' = g := by
  obtain ⟨tree, -, h⟩ := bind_eq_ok_iff.1 h
  exact (sweepArms_eq_zero_iff.1 h).1

/-- A sweep would erase nothing. -/
def Swept (g : Graph) (impure : OpSet) : Prop :=
  g.sweep impure = .ok (0, g)

/-- A graph is swept exactly if its tree has no dead nodes. -/
theorem Represents.swept_iff {t : BlockTree} (h : g.Represents t) :
    g.Swept impure ↔ ∀ p ∈ t.toArms.subtrees, ¬p.1.IsDead impure t.toArms := by
  rw [Swept, sweep, h.tree_eq, ok_bind]
  refine sweepArms_eq_zero_iff.trans ?_
  constructor
  · rintro ⟨-, hids⟩ ⟨head, arms⟩ hmem hdead
    have hfalse := hids head.id (Arms.mem_ids.2 ⟨_, hmem, rfl⟩)
    exact Bool.false_ne_true (hfalse.symm.trans ((h.isDead_iff hmem).2 hdead))
  · intro hlive
    refine ⟨rfl, fun n hn => ?_⟩
    obtain ⟨⟨head, arms⟩, hmem, rfl⟩ := Arms.mem_ids.1 hn
    exact Bool.eq_false_iff.2 fun hdead => hlive _ hmem ((h.isDead_iff hmem).1 hdead)

/-- If nothing is dead the first sweep is the last one. -/
theorem sweeps_of_swept (h : g.Swept impure) (limit : Nat) :
    sweeps impure (limit + 1) g = .ok (⟨0, 1, true⟩, g) := by
  rw [Swept] at h
  rw [sweeps, h]
  rfl

/-- One more sweep: it erases nothing, or the sweeps go on. -/
theorem sweeps_succ_eq_ok (h : sweeps impure (limit + 1) g = .ok (report, g')) :
    (g.Swept impure ∧ g' = g) ∨ ∃ next rest, report.removed ≠ 0 ∧
      sweeps impure limit next = .ok (rest, g') ∧ report.settled = rest.settled := by
  rw [sweeps] at h
  obtain ⟨⟨removed, next⟩, hsweep, h⟩ := bind_eq_ok_iff.1 h
  dsimp only at h
  split at h
  · rename_i hzero
    subst hzero
    obtain ⟨-, rfl⟩ := Prod.mk.inj (Except.ok.inj h)
    obtain rfl := eq_of_sweep_zero hsweep
    exact Or.inl ⟨hsweep, rfl⟩
  · rename_i hne
    obtain ⟨⟨rest, last⟩, hrest, h⟩ := bind_eq_ok_iff.1 h
    obtain ⟨rfl, rfl⟩ := Prod.mk.inj (Except.ok.inj h)
    exact Or.inr ⟨next, rest, fun hsum => hne (Nat.add_eq_zero_iff.1 hsum).1, hrest, rfl⟩

/-- Sweeping that settles leaves nothing dead. -/
theorem swept_of_settled : ∀ {limit : Nat} {g : Graph} {report : SweepReport},
    sweeps impure limit g = .ok (report, g') → report.settled = true → g'.Swept impure
  | 0, g, report, h, hsettled => by
    obtain ⟨rfl, -⟩ := Prod.mk.inj (Except.ok.inj h)
    exact nomatch hsettled
  | limit + 1, g, report, h, hsettled => by
    obtain ⟨hswept, rfl⟩ | ⟨next, rest, -, hrest, hlast⟩ := sweeps_succ_eq_ok h
    · exact hswept
    · exact swept_of_settled hrest (hlast.symm.trans hsettled)

end Graph

/-! ### Stages -/

/-- The nodes that a pass would reduce first. -/
def Config.sites (config : Config) (pass : Pass) (g : Graph) : Except Fault (List NodeId) :=
  match pass with
  | .guardRaise => (guardRemoval.sites g).map (List.map Prod.fst)
  | .promote => ((hoisting config.promotable).sites g).map (List.map Prod.fst)

/-- Dead code was swept, if that is wanted. -/
def Config.Swept (config : Config) (g : Graph) : Prop :=
  config.sweeps = true → g.Swept config.impure

/-- The rounds ended because there was nothing left to reduce, and so did the sweeps. -/
def StageReport.Settled (s : StageReport) : Prop :=
  s.rounds.settled = true ∧ ∀ r ∈ s.sweep, r.settled = true

instance (s : StageReport) : Decidable s.Settled :=
  inferInstanceAs (Decidable (_ ∧ _))

/-- Nothing was swept. -/
def StageReport.SweptNothing (s : StageReport) : Prop :=
  ∀ r ∈ s.sweep, r.removed = 0

theorem map_fst_eq_ok_nil {α : Type} {x : Except Fault (List (NodeId × α))} :
    x.map (List.map Prod.fst) = .ok [] ↔ x = .ok [] := by
  rw [map_eq_ok_iff]
  constructor
  · rintro ⟨sites, rfl, hnil⟩
    rw [List.map_eq_nil_iff.1 hnil]
  · exact fun h => ⟨[], h, rfl⟩

namespace Config

open Unguard.Graph

variable {config : Config} {g after : Graph} {pass : Pass} {run : RoundsRun}
  {sweep : Option SweepReport}

theorem reduce_of_sites_nil (harity : g.firstMismatch = .ok none) (h : config.sites pass g = .ok []) :
    config.reduce pass g = .ok ⟨g, [], 1, true⟩ := by
  cases pass <;> exact Reduction.run_of_sites_nil harity (map_fst_eq_ok_nil.1 h) _

theorem sites_of_reduced_nil (h : config.reduce pass g = .ok run) (hnil : run.reduced = []) :
    config.sites pass g = .ok [] ∧ run.graph = g := by
  cases pass <;>
  · obtain ⟨hsites, hgraph⟩ := Reduction.sites_of_reduced_nil h hnil
    exact ⟨map_fst_eq_ok_nil.2 hsites, hgraph⟩

theorem sites_of_settled (h : config.reduce pass g = .ok run) (hsettled : run.settled = true) :
    config.sites pass run.graph = .ok [] := by
  cases pass <;>
  exact map_fst_eq_ok_nil.2 (Reduction.sites_of_settled (Reduction.run_eq_ok h).2 hsettled)

theorem firstMismatch_of_reduce (h : config.reduce pass g = .ok run) : g.firstMismatch = .ok none := by
  cases pass <;> exact Reduction.firstMismatch_of_run h

/-- A sweep of a swept graph changes nothing, whether one is asked for or not. -/
theorem exists_sweep_of_swept (h : config.Swept g) : ∃ sweep, config.sweep g = .ok (sweep, g) := by
  rw [Config.sweep]
  split
  · obtain ⟨n, hn⟩ := exists_effectiveLimit config.sweepLimit
    rw [sweepDeadCode, hn, sweeps_of_swept (h ‹_›)]
    exact ⟨_, rfl⟩
  · exact ⟨none, rfl⟩

/-- What a stage swept. -/
theorem sweep_eq_ok (h : config.sweep g = .ok (sweep, after)) :
    (config.sweeps = false ∧ after = g) ∨ ∃ report, sweep = some report ∧
      Graph.sweeps config.impure (effectiveLimit config.sweepLimit) g = .ok (report, after) := by
  rw [Config.sweep] at h
  split at h
  · obtain ⟨⟨report, last⟩, hsweep, h⟩ := bind_eq_ok_iff.1 h
    obtain ⟨rfl, rfl⟩ := Prod.mk.inj (Except.ok.inj h)
    exact Or.inr ⟨report, rfl, hsweep⟩
  · rename_i hoff
    exact Or.inl ⟨Bool.eq_false_iff.2 hoff, (congrArg Prod.snd (Except.ok.inj h)).symm⟩

theorem swept_of_sweep (h : config.sweep g = .ok (sweep, after))
    (hsettled : ∀ r ∈ sweep, r.settled = true) : config.Swept after := by
  intro hon
  obtain ⟨hoff, -⟩ | ⟨report, rfl, hsweeps⟩ := sweep_eq_ok h
  · exact absurd (hon.symm.trans hoff) nofun
  · exact swept_of_settled hsweeps (hsettled report rfl)

/-- A sweep that removes nothing changes nothing. -/
theorem eq_of_sweep_removed (h : config.sweep g = .ok (sweep, after))
    (hzero : ∀ r ∈ sweep, r.removed = 0) : after = g := by
  obtain ⟨-, hgraph⟩ | ⟨report, rfl, hsweeps⟩ := sweep_eq_ok h
  · exact hgraph
  · obtain ⟨n, hn⟩ := exists_effectiveLimit config.sweepLimit
    rw [hn] at hsweeps
    obtain ⟨-, hgraph⟩ | ⟨next, rest, hne, -⟩ := sweeps_succ_eq_ok hsweeps
    · exact hgraph
    · exact absurd (hzero report rfl) hne

/-! ### Runs of passes -/

/-- Passes without sites change nothing. -/
theorem runPasses_idle (hvalid : g.firstMismatch = .ok none ∧ config.verify g = .ok ⟨[]⟩)
    (hswept : config.Swept g) : ∀ {passes : List Pass},
    (∀ pass ∈ passes, config.sites pass g = .ok []) →
    ∃ run stages, config.runPasses passes g = .ok run ∧ run.outcome = .ok stages ∧ run.graph = g ∧
      ∀ s ∈ stages, s.rounds.reduced = 0
  | [], _ => ⟨⟨g, [], .ok []⟩, [], rfl, rfl, rfl, nofun⟩
  | pass :: passes, h => by
    rw [List.forall_mem_cons] at h
    have hreduce := reduce_of_sites_nil hvalid.1 h.1
    obtain ⟨sweep, hsweep⟩ := exists_sweep_of_swept hswept
    obtain ⟨rest, later, hrest, hlater, hgraph, hidle⟩ := runPasses_idle hvalid hswept h.2
    obtain ⟨run, hrun, hsame, hout⟩ := runPasses_cons_ok hreduce hsweep hvalid.2 hrest hlater
    exact ⟨run, _, hrun, hout, hsame.trans hgraph, List.forall_mem_cons.2 ⟨rfl, hidle⟩⟩

/-- Passes that reduced nothing have no sites. -/
theorem sites_of_runPasses (hswept : config.Swept g) : ∀ {passes : List Pass} {run : Run}
    {stages : List StageReport}, config.runPasses passes g = .ok run → run.outcome = .ok stages →
    (∀ s ∈ stages, s.rounds.reduced = 0) → ∀ pass ∈ passes, config.sites pass g = .ok []
  | [], _, _, _, _, _ => nofun
  | pass :: passes, run, stages, h, hout, hidle => by
    obtain ⟨rounds, sweep, after, rest, later, hrounds, hsweep, hrest, hlater, -, rfl⟩ :=
      runPasses_cons_eq_ok h hout
    rw [List.forall_mem_cons] at hidle
    obtain ⟨hsites, hgraph⟩ := sites_of_reduced_nil hrounds (List.length_eq_zero_iff.1 hidle.1)
    obtain ⟨sweep', hsweep'⟩ := exists_sweep_of_swept hswept
    rw [hgraph, hsweep'] at hsweep
    obtain rfl := congrArg Prod.snd (Except.ok.inj hsweep)
    exact List.forall_mem_cons.2 ⟨hsites, sites_of_runPasses hswept hrest hlater hidle.2⟩

/-- The last stage sweeps the graph. -/
theorem swept_of_runPasses : ∀ {pass : Pass} {passes : List Pass} {g : Graph} {run : Run}
    {stages : List StageReport}, config.runPasses (pass :: passes) g = .ok run →
    run.outcome = .ok stages → (∀ s ∈ stages, s.Settled) → config.Swept run.graph
  | pass, passes, g, run, stages, h, hout, hsettled => by
    obtain ⟨rounds, sweep, after, rest, later, -, hsweep, hrest, hlater, hgraph, rfl⟩ :=
      runPasses_cons_eq_ok h hout
    rw [List.forall_mem_cons] at hsettled
    rw [hgraph]
    cases passes with
    | nil =>
      obtain rfl := Except.ok.inj hrest
      exact swept_of_sweep hsweep hsettled.1.2
    | cons pass' passes => exact swept_of_runPasses hrest hlater hsettled.2

/-- Stages that change nothing end with the graph they start with. -/
theorem eq_of_quiet : ∀ {passes : List Pass} {g : Graph} {run : Run} {stages : List StageReport},
    config.runPasses passes g = .ok run → run.outcome = .ok stages →
    (∀ s ∈ stages, s.rounds.reduced = 0 ∧ s.SweptNothing) → run.graph = g
  | [], g, run, _, h, _, _ => by
    obtain rfl := Except.ok.inj h
    rfl
  | pass :: passes, g, run, stages, h, hout, hquiet => by
    obtain ⟨rounds, sweep, after, rest, later, hrounds, hsweep, hrest, hlater, hgraph, rfl⟩ :=
      runPasses_cons_eq_ok h hout
    rw [List.forall_mem_cons] at hquiet
    have hsame := (sites_of_reduced_nil hrounds (List.length_eq_zero_iff.1 hquiet.1.1)).2
    rw [hgraph, eq_of_quiet hrest hlater hquiet.2, eq_of_sweep_removed hsweep hquiet.1.2, hsame]

/-- A pass has no site left, if its rounds were settled and nothing changed after them. -/
theorem sites_of_quiet : ∀ {before : List StageReport} {passes : List Pass} {g : Graph} {run : Run}
    {s : StageReport} {later : List StageReport}, config.runPasses passes g = .ok run →
    run.outcome = .ok (before ++ s :: later) → s.rounds.settled = true → s.SweptNothing →
    (∀ s' ∈ later, s'.rounds.reduced = 0 ∧ s'.SweptNothing) → config.sites s.pass run.graph = .ok []
  | _, [], g, run, s, later, h, hout, _, _, _ => by
    obtain rfl := Except.ok.inj h
    have hnil := Except.ok.inj hout
    simp at hnil
  | [], pass :: passes, g, run, s, later, h, hout, hsettled, hswept, hquiet => by
    obtain ⟨rounds, sweep, after, rest, later', hrounds, hsweep, hrest, hlater, hgraph, hstages⟩ :=
      runPasses_cons_eq_ok h hout
    obtain ⟨rfl, rfl⟩ := List.cons.inj hstages
    rw [hgraph, eq_of_quiet hrest hlater hquiet, eq_of_sweep_removed hsweep hswept]
    exact sites_of_settled hrounds hsettled
  | s' :: before, pass :: passes, g, run, s, later, h, hout, hsettled, hswept, hquiet => by
    obtain ⟨rounds, sweep, after, rest, later', -, -, hrest, hlater, hgraph, hstages⟩ :=
      runPasses_cons_eq_ok h hout
    obtain ⟨-, rfl⟩ := List.cons.inj hstages
    rw [hgraph]
    exact sites_of_quiet hrest hlater hsettled hswept hquiet

end Config

end Unguard
