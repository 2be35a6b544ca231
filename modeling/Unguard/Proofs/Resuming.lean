import Unguard.Proofs.Idle

/-!
# Taking up a run again

A reduction may be run several times.  After a run that is settled nothing is left to do, so running
again changes nothing, whatever the limit.  A run that was cut off by its limit can be taken up where it
ended: the rounds of both are those of one run with the sum of the limits (`Reduction.rounds_add`).  For
guard removal and hoisting both hold in every graph that passes leave of one that was read
(`Graph.resumable_of_runs`), since no reduction unbalances the arms of a conditional, and so the second
run is not refused.
-/

namespace Unguard

/-- Two runs as one: the second starts with the graph that the first ends with. -/
def RoundsRun.followedBy (first next : RoundsRun) : RoundsRun :=
  ⟨next.graph, first.reduced ++ next.reduced, first.rounds + next.rounds, next.settled⟩

/-- Running again after a run that is settled changes nothing, and running again after one that was cut
off goes on with it. -/
structure Reduction.Resumable {α : Type} (r : Reduction α) (g : Graph) : Prop where
  again : ∀ {j : Nat} {run : RoundsRun}, r.run j g = .ok run → run.settled = true → ∀ limit : Nat,
    r.run limit run.graph = .ok ⟨run.graph, [], 1, true⟩
  resumed : ∀ {j k : Nat} {run : RoundsRun}, 0 < j → 0 < k → r.run j g = .ok run →
    run.settled = false → ∃ next, r.run k run.graph = .ok next ∧
      r.run (j + k) g = .ok (run.followedBy next)

namespace Reduction

variable {α : Type} {r : Reduction α}

/-- The rounds of a run that was cut off and those that follow are the rounds of one run. -/
theorem rounds_add (k : Nat) : ∀ {j : Nat} {g : Graph} {first : RoundsRun},
    r.rounds j g = .ok first → first.settled = false →
    r.rounds (j + k) g = (r.rounds k first.graph).map first.followedBy
  | 0, g, first, h, _ => by
    obtain rfl := Except.ok.inj h
    rw [Nat.zero_add]
    cases r.rounds k g with
    | error fault => rfl
    | ok next =>
      show Except.ok next = .ok ⟨next.graph, [] ++ next.reduced, 0 + next.rounds, next.settled⟩
      rw [List.nil_append, Nat.zero_add]
  | j + 1, g, first, h, hcut => by
    obtain ⟨-, rfl⟩ | ⟨sites, next, reduced, rest, hsites, hne, hall, hrest, rfl⟩ := rounds_succ_eq_ok h
    · cases hcut
    -- the first round is the same in both runs, and the others by induction
    have hcut' : rest.settled = false := hcut
    have hadd := rounds_add k hrest hcut'
    rw [Nat.add_right_comm, rounds_of_sites hsites hne hall, hadd]
    dsimp only
    cases r.rounds k rest.graph with
    | error fault => rfl
    | ok last =>
      show Except.ok (⟨last.graph, reduced ++ (rest.reduced ++ last.reduced),
        rest.rounds + last.rounds + 1, last.settled⟩ : RoundsRun) = .ok ⟨last.graph,
        (reduced ++ rest.reduced) ++ last.reduced, rest.rounds + 1 + last.rounds, last.settled⟩
      rw [List.append_assoc, Nat.add_right_comm]

/-- A run leaves the arms of conditionals balanced, if the reduction keeps them so. -/
theorem Sound.holds_of_run {site : NodeView → BlockTrees → Option α}
    (h : r.Sound site (Graph.Holds fun _ t => t.toArms.Balanced)) {g : Graph} {t : BlockTree}
    (hg : g.Represents t) (hwf : t.toArms.WellFormed []) (hshape : t.toArms.Shaped) {limit : Nat}
    {run : RoundsRun} (hrun : r.run limit g = .ok run) :
    ∃ t', Graph.Holds (fun _ t => t.toArms.Balanced) run.graph t' := by
  obtain ⟨harity, hrounds⟩ := run_eq_ok hrun
  have hbalanced := (hg.firstMismatch_eq_ok_none_iff hshape).1 harity
  obtain ⟨run', t', hrounds', hholds, -⟩ :=
    h.rounds_ok (effectiveLimit limit) ⟨hg, hwf, hshape, hbalanced⟩
  obtain rfl := Except.ok.inj (hrounds'.symm.trans hrounds)
  exact ⟨t', hholds⟩

/-- A reduction that keeps the arms of conditionals balanced can be run again. -/
theorem Sound.resumable {site : NodeView → BlockTrees → Option α}
    (h : r.Sound site (Graph.Holds fun _ t => t.toArms.Balanced)) {g : Graph} {t : BlockTree}
    (hg : g.Represents t) (hwf : t.toArms.WellFormed []) (hshape : t.toArms.Shaped) :
    r.Resumable g := by
  refine ⟨fun {j run} hrun hsettled limit => ?_, fun {j k run} hj hk hrun hcut => ?_⟩
  · obtain ⟨t', hholds⟩ := h.holds_of_run hg hwf hshape hrun
    have hsites := sites_of_settled (run_eq_ok hrun).2 hsettled
    exact run_of_sites_nil (Config.firstMismatch_of_holds hholds) hsites limit
  · obtain ⟨t', hholds⟩ := h.holds_of_run hg hwf hshape hrun
    obtain ⟨next, -, hnext, -⟩ := h.run_ok k hholds (Config.firstMismatch_of_holds hholds)
    refine ⟨next, hnext, ?_⟩
    -- no limit is zero, so each stands for itself
    obtain ⟨harity, hrounds⟩ := run_eq_ok hrun
    have hrounds' := (run_eq_ok hnext).2
    rw [effectiveLimit, if_neg hj.ne'] at hrounds
    rw [effectiveLimit, if_neg hk.ne'] at hrounds'
    have hboth : r.rounds (effectiveLimit (j + k)) g = .ok (run.followedBy next) := by
      rw [effectiveLimit, if_neg (by omega), rounds_add k hrounds hcut, hrounds']
      rfl
    simp only [Reduction.run, harity, hboth]

end Reduction

namespace Graph

/-- In a graph that passes left of one that was read, guard removal and hoisting can be run again: after
a run that is settled nothing changes any more, and after one that was cut off the rounds go on. -/
theorem resumable_of_runs (source : String) (g₀ g : Graph) (runs : List PassRun)
    (hread : Graph.ofText source = .ok g₀) (hruns : g₀.applyRuns runs = .ok g) :
    guardRemoval.Resumable g ∧ ∀ ops : OpSet, (hoisting ops).Resumable g := by
  obtain ⟨t, hg, hwf, hshape⟩ := represents_of_runs hread hruns
  exact ⟨KeptByPasses.guardRemoval_sound_balanced.resumable hg hwf hshape,
    fun ops => (KeptByPasses.hoisting_sound_balanced ops).resumable hg hwf hshape⟩

/-- A computation whose arm has to be hoisted, with nothing to hoist after that. -/
def guardedStep : String :=
  "graph(%c: core.bool, %x: core.t) \x7b %y = if(%c) : core.t \x7b %z = aten.f(%x) : core.t " ++
    "return %z \x7d else \x7b raise() return %x \x7d return %y \x7d"

/-- One round hoists the arm, and one more finds nothing. -/
theorem resumable_of_runs_guardedStep : ∃ g₀ g cut next, Graph.ofText guardedStep = .ok g₀ ∧
    g₀.applyRuns [.guardRemoval 1] = .ok g ∧
    (hoisting (.ofList [⟨"aten", "f"⟩])).run 1 g = .ok cut ∧ cut.report = ⟨1, 1, false⟩ ∧
    (hoisting (.ofList [⟨"aten", "f"⟩])).run 1 cut.graph = .ok next ∧ next.report = ⟨0, 1, true⟩ ∧
    (hoisting (.ofList [⟨"aten", "f"⟩])).run 2 g = .ok (cut.followedBy next) ∧
    ∀ limit, (hoisting (.ofList [⟨"aten", "f"⟩])).run limit next.graph =
      .ok ⟨next.graph, [], 1, true⟩ := by
  have hrun : (Graph.ofText guardedStep).toOption.bind (fun g₀ =>
      (g₀.applyRuns [.guardRemoval 1]).toOption.bind fun g =>
        ((hoisting (.ofList [⟨"aten", "f"⟩])).run 1 g).toOption.bind fun cut =>
          ((hoisting (.ofList [⟨"aten", "f"⟩])).run 1 cut.graph).toOption.map fun next =>
            (cut.report, next.report)) = some (⟨1, 1, false⟩, ⟨0, 1, true⟩) := by
    decide +kernel
  simp only [Option.bind_eq_some_iff, Option.map_eq_some_iff, toOption_eq_some_iff,
    Prod.mk.injEq] at hrun
  obtain ⟨g₀, hread, g, hruns, cut, hcut, next, hnext, hreport, hreport'⟩ := hrun
  have hresumable := (resumable_of_runs guardedStep g₀ g _ hread hruns).2 (.ofList [⟨"aten", "f"⟩])
  obtain ⟨next', hnext', hboth⟩ := hresumable.resumed (j := 1) (k := 1) (by decide) (by decide) hcut
    (congrArg RoundsReport.settled hreport)
  obtain rfl := Except.ok.inj (hnext'.symm.trans hnext)
  have hlast := hresumable.again hboth (congrArg RoundsReport.settled hreport')
  exact ⟨g₀, g, cut, next', hread, hruns, hcut, hreport, hnext', hreport', hboth, hlast⟩

end Graph

end Unguard
