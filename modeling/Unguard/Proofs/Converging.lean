import Mathlib.Data.Set.Card
import Unguard.Proofs.Idle
import Unguard.Proofs.Reachability

/-!
# How soon a run is settled

A round takes away at least one conditional for each of its sites.  That is not plain to see for hoisting,
which copies an arm with all the conditionals inside it: but the originals are erased with the conditional
around them, so no more come than go, and the conditional itself is gone
(`Reduction.Sound.apply_ok`).

So the number of conditionals that are reached, `Graph.conditionals`, bounds what a run can reduce, and a
run that may take more rounds than there are conditionals is settled (`Graph.converges_of_runs`).
-/

namespace Unguard

namespace Graph

variable {g : Graph} {t : BlockTree}

/-- The conditionals that are reached. -/
def conditionals (g : Graph) : Set NodeId :=
  {n | g.ReachesNode n ∧ ∃ node, g.node? n = some node ∧ node.kind = .conditional}

theorem Represents.mem_conditionals (h : g.Represents t) {n : NodeId} :
    n ∈ g.conditionals ↔ ∃ x ∈ t.toArms.nodes, x.kind = .conditional ∧ x.id = n := by
  constructor
  · rintro ⟨hn, node, hnode, hkind⟩
    obtain ⟨x, hx, rfl, blocks, place, rfl⟩ := h.exists_view hn hnode
    exact ⟨x, hx, hkind, rfl⟩
  · rintro ⟨x, hx, hkind, rfl⟩
    obtain ⟨blocks, place, hentry⟩ := h.exists_entry hx
    exact ⟨h.reachesNode_iff_nodes.2 ⟨x, hx, rfl⟩, _, hentry, hkind⟩

/-- The conditionals that are reached are as many as the tree has. -/
theorem Represents.ncard_conditionals (h : g.Represents t) :
    g.conditionals.ncard = t.toArms.conditionals := by
  let found := (t.toArms.nodes.filter fun x => x.kind = .conditional).map NodeView.id
  have hset : g.conditionals = (found.toFinset : Set NodeId) := by
    ext n
    simp [found, h.mem_conditionals, and_assoc]
  have hnodup : found.Nodup := by
    have hids := h.nodup_ids
    rw [← Arms.map_id_nodes] at hids
    exact hids.sublist (List.filter_sublist.map NodeView.id)
  rw [hset, Set.ncard_coe_finset, List.toFinset_card_of_nodup hnodup, List.length_map,
    ← List.countP_eq_length_filter, Arms.conditionals]

end Graph

namespace Reduction

variable {α : Type} {r : Reduction α}

/-- Every round takes away a conditional for each of its sites, so a run reduces no more sites than
conditionals go, and is settled if it may take more rounds than there are conditionals. -/
structure Converges (r : Reduction α) (g : Graph) : Prop where
  round : ∀ j : Nat, ∃ run sites next reduced, r.rounds j g = .ok run ∧
    r.sites run.graph = .ok sites ∧ r.applyAll run.graph sites = .ok (next, reduced) ∧
    next.conditionals.ncard + sites.length ≤ run.graph.conditionals.ncard
  run : ∀ limit : Nat, ∃ run, r.run limit g = .ok run ∧
    run.report.reduced + run.graph.conditionals.ncard ≤ g.conditionals.ncard ∧
    (g.conditionals.ncard < effectiveLimit limit → run.report.settled = true)

namespace Sound

variable {site : NodeView → BlockTrees → Option α} {P : Graph → BlockTree → Prop}

/-- Rounds take away as many conditionals as they reduce sites, and are settled if there are more of them
than conditionals. -/
theorem rounds_conditionals (h : r.Sound site P) : ∀ (limit : Nat) {g : Graph} {t : BlockTree}, P g t →
    ∃ run t', r.rounds limit g = .ok run ∧ P run.graph t' ∧
      run.reduced.length + t'.toArms.conditionals ≤ t.toArms.conditionals ∧
      (t.toArms.conditionals < limit → run.settled = true)
  | 0, g, t, hP => by
    refine ⟨_, t, rfl, hP, ?_, fun hlt => absurd hlt (Nat.not_lt_zero _)⟩
    rw [List.length_nil, Nat.zero_add]
  | limit + 1, g, t, hP => by
    have hsites := h.sites_eq hP
    obtain ⟨next, reduced, t₁, hall, hP₁, hfewer⟩ := h.round_ok hP
    -- The last round finds no site.
    by_cases hnil : t.toArms.sites site = []
    · rw [hnil] at hsites
      refine ⟨_, t, rounds_of_sites_nil hsites limit, hP, ?_, fun _ => rfl⟩
      rw [List.length_nil, Nat.zero_add]
    · -- there is a site, so fewer conditionals are left for the other rounds
      have hsome : 0 < (t.toArms.sites site).length := List.length_pos_of_ne_nil hnil
      have hlength := length_reduced_of_applyAll hall
      obtain ⟨rest, t', hrest, hP', hless, hsettled⟩ := h.rounds_conditionals limit hP₁
      refine ⟨⟨rest.graph, reduced ++ rest.reduced, rest.rounds + 1, rest.settled⟩, t', ?_, hP', ?_,
        fun hlt => hsettled (by omega)⟩
      · rw [rounds_of_sites hsites (by simpa using hnil) hall, hrest]
        rfl
      · show (reduced ++ rest.reduced).length + _ ≤ _
        rw [List.length_map] at hlength
        rw [List.length_append]
        omega

theorem converges (h : r.Sound site (Graph.Holds fun _ t => t.toArms.Balanced)) {g : Graph}
    {t : BlockTree} (hP : Graph.Holds (fun _ t => t.toArms.Balanced) g t) : r.Converges g := by
  refine ⟨fun j => ?_, fun limit => ?_⟩
  · obtain ⟨run, t', hrun, hP', -⟩ := h.rounds_ok j hP
    obtain ⟨next, reduced, t₁, hall, hP₁, hfewer⟩ := h.round_ok hP'
    refine ⟨run, _, next, reduced, hrun, h.sites_eq hP', hall, ?_⟩
    rw [(h.represents hP₁).ncard_conditionals, (h.represents hP').ncard_conditionals, List.length_map]
    exact hfewer
  · obtain ⟨run, t', hrounds, hP', hfewer, hsettled⟩ :=
      h.rounds_conditionals (effectiveLimit limit) hP
    rw [(h.represents hP).ncard_conditionals]
    refine ⟨run, ?_, ?_, hsettled⟩
    · simp only [Reduction.run, Config.firstMismatch_of_holds hP, hrounds]
    · rw [(h.represents hP').ncard_conditionals]
      exact hfewer

end Sound

end Reduction

namespace Graph

/-- Guard removal and hoisting converge in every graph that passes leave of one that was read and in which
arms return what they should. -/
theorem converges_of_runs (source : String) (g₀ : Graph) (hread : Graph.ofText source = .ok g₀)
    (harity : g₀.firstMismatch = .ok none) (runs : List PassRun) : ∃ g, g₀.applyRuns runs = .ok g ∧
    guardRemoval.Converges g ∧ ∀ ops : OpSet, (hoisting ops).Converges g := by
  obtain ⟨g, t, hruns, hholds⟩ := balanced_of_runs hread harity runs
  exact ⟨g, hruns, KeptByPasses.guardRemoval_sound_balanced.converges hholds,
    fun ops => (KeptByPasses.hoisting_sound_balanced ops).converges hholds⟩

/-- A conditional to hoist, with another conditional inside the arm. -/
def guardedPair : String :=
  "graph(%c: core.bool) \x7b if(%c) \x7b if(%c) \x7b aten.f() \x7d else \x7b raise() \x7d " ++
    "aten.f() \x7d else \x7b raise() \x7d return %c \x7d"

/-- Two rounds hoist one arm each, and the copy of the inner conditional is gone after the second. -/
theorem converges_of_runs_guardedPair : ∃ g₀ g run, Graph.ofText guardedPair = .ok g₀ ∧
    g₀.firstMismatch = .ok none ∧ g₀.applyRuns [.guardRemoval 1] = .ok g ∧
    (hoisting (.ofList [⟨"aten", "f"⟩])).run 3 g = .ok run ∧ run.report = ⟨2, 3, true⟩ ∧
    2 + run.graph.conditionals.ncard ≤ g.conditionals.ncard := by
  have hrun : (Graph.ofText guardedPair).toOption.bind (fun g₀ =>
      (g₀.applyRuns [.guardRemoval 1]).toOption.bind fun g =>
        ((hoisting (.ofList [⟨"aten", "f"⟩])).run 3 g).toOption.map fun run =>
          (g₀.firstMismatch.toOption, run.report)) = some (some none, ⟨2, 3, true⟩) := by
    decide +kernel
  simp only [Option.bind_eq_some_iff, Option.map_eq_some_iff, toOption_eq_some_iff,
    Prod.mk.injEq] at hrun
  obtain ⟨g₀, hread, g, hruns, run, hrun, harity, hreport⟩ := hrun
  obtain ⟨g', hruns', -, hconverges⟩ := converges_of_runs guardedPair g₀ hread harity [.guardRemoval 1]
  obtain rfl := Except.ok.inj (hruns'.symm.trans hruns)
  obtain ⟨run', hrun', hfewer, -⟩ := (hconverges (.ofList [⟨"aten", "f"⟩])).run 3
  obtain rfl := Except.ok.inj (hrun'.symm.trans hrun)
  rw [hreport] at hfewer
  exact ⟨g₀, g', run', hread, harity, hruns', hrun', hreport, hfewer⟩

end Graph

end Unguard
