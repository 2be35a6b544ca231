import Unguard.Proofs.Safety

/-!
# Arms that return the wrong number of values

Reading a text gives a graph in which only one thing can be wrong: arms may return another number of
values than their conditional has outputs (`Graph.ofText_check`).  Passes look for such arms before they
begin, with a walk of their own.  What the walk finds first is what the check of shapes reports first
(`Graph.Represents.firstMismatch_eq`), so whether a run of passes fails, and how, is known from the
check of the graph it starts with (`Config.run_outcome`).
-/

namespace Unguard

theorem findSome?_flatMap {α β γ : Type} (f : β → Option γ) (k : α → List β) : ∀ as : List α,
    (as.flatMap k).findSome? f = as.findSome? fun a => (k a).findSome? f
  | [] => rfl
  | a :: as => by
    rw [List.flatMap_cons, List.findSome?_append, findSome?_flatMap f k as, List.findSome?_cons]
    cases (k a).findSome? f <;> rfl

/-- The arm that a violation is about, if it is about what an arm returns. -/
def Violation.mismatch? : Violation → Option ArmMismatch
  | .wrongReturnCount node arm outputs returned => some ⟨node, arm, outputs, returned⟩
  | _ => none

/-- Only a wrong number of returned values is an arity mismatch. -/
theorem Violation.mismatch?_eq_some_iff {v : Violation} {m : ArmMismatch} :
    v.mismatch? = some m ↔ v = .wrongReturnCount m.node m.arm m.outputs m.returned := by
  constructor
  · intro h
    cases v with
    | wrongReturnCount node arm outputs returned => exact Option.some.inj h ▸ rfl
    | _ => exact nomatch h
  · rintro rfl
    rfl

/-- What is said about a node of proper shape begins with its first arm that is wrong. -/
theorem findSome?_nodeShapeViolations {head : NodeView} {arms : List BlockView}
    (hshape : if head.kind = .conditional then arms.length = 2 else arms = []) :
    (nodeShapeViolations head arms).findSome? Violation.mismatch? = head.mismatch? arms := by
  rw [nodeShapeViolations]
  by_cases hkind : head.kind = .conditional
  · rw [if_pos hkind] at hshape
    obtain ⟨first, second, rfl⟩ := List.length_eq_two.1 hshape
    rw [if_pos hkind, if_pos hshape, NodeView.mismatch?]
    by_cases hfirst : first.returns.length = head.outputs.length
    · by_cases hsecond : second.returns.length = head.outputs.length
      · simp [arityViolations, hfirst, hsecond]
      · simp [arityViolations, hfirst, hsecond, Violation.mismatch?]
    · simp [arityViolations, hfirst, Violation.mismatch?, List.findSome?_cons]
  · rw [if_neg hkind] at hshape
    rw [if_neg hkind, hshape]
    rfl

/-- What is said about the arms of a node is said about how many values they return. -/
theorem mismatch_of_mem_arityViolations {n : NodeId} {outputs arm : Nat} {bs : List BlockView}
    {v : Violation} (hv : v ∈ arityViolations n outputs arm bs) : ∃ m, v.mismatch? = some m := by
  induction bs generalizing arm with
  | nil => cases hv
  | cons b bs ih =>
    rw [arityViolations, List.mem_append] at hv
    rcases hv with hv | hv
    · split at hv
      · cases hv
      · obtain rfl := List.mem_singleton.1 hv
        exact ⟨_, rfl⟩
    · exact ih hv

/-- Nodes of proper shape have nothing wrong with them but what their arms return. -/
theorem mismatch_of_mem_nodeShapeViolations {head : NodeView} {arms : List BlockView} {v : Violation}
    (hshape : if head.kind = .conditional then arms.length = 2 else arms = [])
    (hv : v ∈ nodeShapeViolations head arms) : ∃ m, v.mismatch? = some m := by
  rw [nodeShapeViolations] at hv
  split at hshape
  · rename_i hkind
    rw [if_pos hkind, if_pos hshape] at hv
    exact mismatch_of_mem_arityViolations hv
  · rename_i hkind
    rw [if_neg hkind, hshape] at hv
    cases hv

namespace Graph

variable {g : Graph} {t : BlockTree}

namespace Represents

theorem checkShape_eq (h : g.Represents t) :
    g.checkShape = .ok ⟨BlockTrees.shapeViolations t.toArms⟩ := by
  rw [checkShape, h.tree_eq]
  rfl

/-- The first mismatch that passes find is the first one of the report. -/
theorem firstMismatch_eq (h : g.Represents t) (hshape : t.toArms.Shaped) : g.firstMismatch =
    .ok ((BlockTrees.shapeViolations t.toArms).findSome? Violation.mismatch?) := by
  have hids : t.body.ids = t.toArms.subtrees.map fun p => p.1.id := by
    have hmap : t.toArms.subtrees.map (fun p => p.1.id) = t.toArms.nodes.map NodeView.id := by
      rw [← Arms.map_fst_subtrees, List.map_map]
      rfl
    rw [hmap, Arms.map_id_nodes]
    simp [BlockTree.toArms]
  rw [firstMismatch, h.walk_eq, Body.walk_descend, ok_bind]
  change Except.ok (List.findSome? _ t.body.ids) = _
  rw [hids, List.findSome?_map, BlockTrees.shapeViolations_eq, findSome?_flatMap,
    ← List.head?_filterMap, ← List.head?_filterMap]
  refine congrArg (fun ms => Except.ok (List.head? ms)) (List.filterMap_congr fun p hp => ?_)
  -- A pass and the check look at a node in the same way.
  exact (h.armMismatch?_eq hshape hp).trans (findSome?_nodeShapeViolations (hshape p hp)).symm

/-- If values are in scope in the tree no violations are found. -/
theorem checkScopes_eq (h : g.Represents t) (hscope : t.toArms.Scoped []) :
    g.checkScopes = .ok ⟨[]⟩ := by
  have hnone := (BlockTrees.scopeViolations_eq_nil_iff fun _ => Iff.rfl).2 hscope
  rw [checkScopes_of_tree h.tree_eq, hnone]

end Represents

/-- Nothing is in a graph that was read but what is in its tree. -/
theorem GrowsArms.mem_ids (h : GrowsArms t.toArms void g) {n : NodeId} {node : Node}
    (hn : g.node? n = some node) : n ∈ t.toArms.ids :=
  h.extension.ids.symm.subset (mem_newIds.2 ⟨_, Nat.zero_le _, g.index_lt_of_node? hn, rfl⟩)

/-- **A graph that was read is valid but for what arms return.**  Every slot holds a value that is seen
there, the use chains list the slots, every conditional owns two blocks and no other node owns any.  The
check of shapes reports nothing but arms that return another number of values than their conditional has
outputs. -/
theorem ofText_check (source : String) (g : Graph) (hread : Graph.ofText source = .ok g) :
    g.checkScopes = .ok ⟨[]⟩ ∧ g.checkUses = .ok ⟨[]⟩ ∧
    (∃ report, g.checkShape = .ok report ∧
      ∀ v ∈ report.violations, ∃ node arm outputs returned,
        v = .wrongReturnCount node arm outputs returned) ∧
    ∀ n node, g.node? n = some node → node.released = false ∧
      if node.kind = .conditional then node.blocks.length = 2 else node.blocks = [] := by
  obtain ⟨t, hgrows, hg, hwf, hshape⟩ := ofText_grows hread
  refine ⟨hg.checkScopes_eq hwf.scope, hg.checkUses_eq, ⟨_, hg.checkShape_eq, fun v hv => ?_⟩,
    fun n node hn => ?_⟩
  · rw [BlockTrees.shapeViolations_eq, List.mem_flatMap] at hv
    obtain ⟨p, hp, hv⟩ := hv
    obtain ⟨m, hm⟩ := mismatch_of_mem_nodeShapeViolations (hshape p hp) hv
    exact ⟨_, _, _, _, Violation.mismatch?_eq_some_iff.1 hm⟩
  · obtain ⟨⟨head, arms⟩, hp, rfl⟩ := Arms.mem_ids.1 (hgrows.mem_ids hn)
    obtain ⟨place, hentry, -⟩ := hg.stand.subtree hp
    obtain rfl := Option.some.inj (hentry.symm.trans hn)
    have hown : if head.kind = .conditional then arms.heads.length = 2 else arms.heads = [] :=
      hshape _ hp
    rw [← List.length_map (f := BlockView.id), ← List.map_eq_nil_iff (f := BlockView.id)] at hown
    exact ⟨rfl, hown⟩

/-- The second arm of the outer conditional returns nothing, the arms of the inner one too much and too
little.  Both arms of the outer one define `%z`. -/
def mismatchedArms : String :=
  "graph(%c: core.bool, %x: core.t) \x7b %y = if(%c) : core.t \x7b " ++
    "%z = if(%c) : core.t \x7b return %c, %x \x7d else \x7b raise() \x7d return %z \x7d " ++
    "else \x7b %z = aten.f(%x) : core.t raise() \x7d return %y \x7d"

theorem checkShape_mismatchedArms : ∃ g report, Graph.ofText mismatchedArms = .ok g ∧
    g.checkShape = .ok report ∧ report.violations = [.wrongReturnCount ⟨4⟩ 1 1 0,
      .wrongReturnCount ⟨1⟩ 0 1 2, .wrongReturnCount ⟨1⟩ 1 1 0] := by
  have hread : (Graph.ofText mismatchedArms).toOption.map (fun g =>
      g.checkShape.toOption.map CheckReport.violations) =
        some (some [.wrongReturnCount ⟨4⟩ 1 1 0, .wrongReturnCount ⟨1⟩ 0 1 2,
          .wrongReturnCount ⟨1⟩ 1 1 0]) := by decide +kernel
  simp only [Option.map_eq_some_iff, toOption_eq_some_iff] at hread
  obtain ⟨g, hread, report, hreport, hviolations⟩ := hread
  exact ⟨g, report, hread, hreport, hviolations⟩

theorem ofText_check_mismatchedArms : ∃ g report, Graph.ofText mismatchedArms = .ok g ∧
    g.checkScopes = .ok ⟨[]⟩ ∧ g.checkUses = .ok ⟨[]⟩ ∧ g.checkShape = .ok report ∧
    report.violations = [.wrongReturnCount ⟨4⟩ 1 1 0, .wrongReturnCount ⟨1⟩ 0 1 2,
      .wrongReturnCount ⟨1⟩ 1 1 0] := by
  obtain ⟨g, report, hread, hreport, hviolations⟩ := checkShape_mismatchedArms
  obtain ⟨hscopes, huses, -⟩ := ofText_check mismatchedArms g hread
  exact ⟨g, report, hread, hscopes, huses, hreport, hviolations⟩

end Graph

namespace Config

open Unguard.Graph

variable (config : Config) {g : Graph} {t : BlockTree}

/-- How a run of passes ends is known from the first mismatch of the graph it starts with. -/
theorem runPasses_outcome {passes : List Pass} (hpasses : passes ≠ []) (hg : g.Represents t)
    (hwf : t.toArms.WellFormed []) (hshape : t.toArms.Shaped) :
    ∃ run, config.runPasses passes g = .ok run ∧
      match (BlockTrees.shapeViolations t.toArms).findSome? Violation.mismatch? with
      | some m => run.outcome = .error (.arity m) ∧ run.graph = g
      | none => ∃ stages, run.outcome = .ok stages := by
  have hfirst := hg.firstMismatch_eq hshape
  cases hfound : (BlockTrees.shapeViolations t.toArms).findSome? Violation.mismatch? with
  | some m =>
    rw [hfound] at hfirst
    obtain ⟨pass, passes, rfl⟩ := List.exists_cons_of_ne_nil hpasses
    obtain ⟨run, hrun, hout, hsame⟩ := runPasses_mismatch config pass passes hfirst
    exact ⟨run, hrun, hout, hsame⟩
  | none =>
    rw [hfound] at hfirst
    have hbal := (hg.firstMismatch_eq_ok_none_iff hshape).1 hfirst
    obtain ⟨run, stages, hrun, hout⟩ := runPasses_ok config passes ⟨hg, hwf, hshape, hbal⟩
    exact ⟨run, hrun, stages, hout⟩

/-- **Lowering fails only before it begins.**  A run of at least one pass on a graph that was read ends
without a fault.  It fails exactly if the check of shapes finds an arm that returns the wrong number of
values in the graph it starts with; then it names the first such arm, as the check does, and leaves the
graph as it was.  Otherwise every pass, sweep and check of the run goes through. -/
theorem run_outcome (source : String) (g : Graph) (hread : Graph.ofText source = .ok g)
    (hpasses : config.passes ≠ []) :
    ∃ run report, config.run g = .ok run ∧ g.checkShape = .ok report ∧
      ((∃ error, run.outcome = .error error) ↔ ∃ node arm outputs returned,
        .wrongReturnCount node arm outputs returned ∈ report.violations) ∧
      ∀ error, run.outcome = .error error → run.graph = g ∧ ∃ m, error = .arity m ∧
        report.violations.findSome? Violation.mismatch? = some m := by
  obtain ⟨t, hg, hwf, hshape⟩ := Graph.ofText_represents hread
  obtain ⟨run, hrun, hout⟩ := runPasses_outcome config hpasses hg hwf hshape
  refine ⟨run, _, hrun, hg.checkShape_eq, ?_⟩
  -- Everything goes by the first wrong number of returned values, if there is one.
  cases hfound : (BlockTrees.shapeViolations t.toArms).findSome? Violation.mismatch? with
  | some m =>
    rw [hfound] at hout
    obtain ⟨v, hv, hm⟩ := List.exists_of_findSome?_eq_some hfound
    refine ⟨iff_of_true ⟨_, hout.1⟩ ⟨_, _, _, _, Violation.mismatch?_eq_some_iff.1 hm ▸ hv⟩, ?_⟩
    intro error herror
    exact ⟨hout.2, m, Except.error.inj (herror.symm.trans hout.1), rfl⟩
  | none =>
    rw [hfound] at hout
    obtain ⟨stages, hout⟩ := hout
    have hno : ∀ error, run.outcome ≠ .error error := fun error herror =>
      nomatch herror.symm.trans hout
    refine ⟨iff_of_false (fun ⟨error, herror⟩ => hno error herror) ?_, fun error herror =>
      absurd herror (hno error)⟩
    rintro ⟨node, arm, outputs, returned, hv⟩
    exact nomatch List.findSome?_eq_none_iff.1 hfound _ hv

theorem run_outcome_mismatchedArms : ∃ g run, Graph.ofText mismatchedArms = .ok g ∧
    ({} : Config).passes ≠ [] ∧ ({} : Config).run g = .ok run ∧
    run.outcome = .error (.arity ⟨⟨4⟩, 1, 1, 0⟩) ∧ run.graph = g := by
  obtain ⟨g, report, hread, hreport, hviolations⟩ := checkShape_mismatchedArms
  obtain ⟨run, report', hrun, hreport', hfails, herror⟩ :=
    run_outcome {} mismatchedArms g hread (by decide)
  obtain rfl := Except.ok.inj (hreport.symm.trans hreport')
  obtain ⟨error, hout⟩ := hfails.2 ⟨⟨4⟩, 1, 1, 0, by simp [hviolations]⟩
  obtain ⟨hsame, m, rfl, hm⟩ := herror error hout
  rw [hviolations] at hm
  obtain rfl := Option.some.inj hm
  exact ⟨g, run, hread, by decide, hrun, hout, hsame⟩

end Config

end Unguard
