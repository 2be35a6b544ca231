import Unguard.Proofs.Passes
import Unguard.Proofs.Reading
import Unguard.Proofs.Refinement

/-!
# Lowering keeps runs

Whatever its operators mean, a graph that runs without meeting a raise runs the same after lowering: it
returns the same values, and calls the operators that count as impure in the same order, with the same
attributes and inputs (`Config.execute_lowerText`).  Each step of a pass refines the runs of the tree,
so this is one more property that passes keep.
-/

namespace Unguard

universe u

variable {V : Type u} [Inhabited V]

/-- Every run of `t` that meets no raise is a run of `t'`. -/
def BlockTree.RefinedBy (I : Interpretation V) (watched : OpSet) (t t' : BlockTree) : Prop :=
  ∀ args x, t.execute I watched args = some x → t'.execute I watched args = some x

/-- Passes refine the runs of a tree, as long as sweeps leave the watched operators alone. -/
theorem keptByPasses_refinedBy (I : Interpretation V) (watched : OpSet) (t : BlockTree) :
    KeptByPasses (· = watched) fun _ t' => t.RefinedBy I watched t' where
  guard hwf hmem hguard _ h args x hx := BlockTree.execute_erase_guard hwf hmem hguard (h args x hx)
  dead := by
    rintro impure rfl
    refine ⟨fun hwf hmem hdead _ h args x hx => ?_⟩
    have hunused := hdead.not_mem_replace hwf hmem
    obtain ⟨name, hkind, hpure, -⟩ := hdead
    exact BlockTree.execute_erase_dead hwf hmem hkind hpure hunused (h args x hx)
  hoist _ hwf hh harm _ h args x hx :=
    BlockTree.execute_relabel _ (hh.execute_hoisted harm hwf (h args x hx))

theorem keptByPasses_types (types : TypeTable) {swept : OpSet → Prop} :
    KeptByPasses swept fun g _ => g.types = types where
  guard _ _ _ hlabels hx := hlabels.2.trans hx
  dead _ := ⟨fun _ _ _ hlabels hx => hlabels.2.trans hx⟩
  hoist _ _ _ _ hmoved hx := hmoved.types.trans hx

theorem Graph.Represents.execute_eq {g : Graph} {t : BlockTree} (h : g.Represents t)
    (I : Interpretation V) (watched : OpSet) (args : List V) :
    g.execute I watched args = .ok (t.execute I watched args) := by
  rw [Graph.execute, h.tree_eq]

/-- A lowering that succeeds runs the passes on the graph of the text. -/
theorem Config.lowerText_eq_runs {config : Config} {source : String} {g : Graph} {lowering : Lowering}
    {lowered : LoweredGraph} (hread : Graph.ofText source = .ok g)
    (hlower : config.lowerText source = .ok lowering) (hout : lowering.outcome = .ok lowered) :
    g.applyRuns (config.runs config.passes) = .ok lowered.graph := by
  obtain ⟨g', run, hread', hrun, hstages, hgraph⟩ := lowerText_eq_ok hlower hout
  obtain rfl := Except.ok.inj (hread.symm.trans hread')
  rw [← hgraph]
  exact runPasses_eq_runs hrun hstages

/-- **Lowering keeps every run that meets no raise.**  Under any interpretation, if the graph of a text
returns values then so does the lowered graph.  The values are the same, and so are the calls of
operators that count as impure: their order, their attributes and their inputs. -/
theorem Config.execute_lowerText (config : Config) (source : String) (g : Graph) (lowering : Lowering)
    (lowered : LoweredGraph) (I : Interpretation V) (args : List V) (x : List V × List (Call V))
    (hread : Graph.ofText source = .ok g) (hlower : config.lowerText source = .ok lowering)
    (hout : lowering.outcome = .ok lowered) (hx : g.execute I config.impure args = .ok (some x)) :
    lowered.graph.execute I config.impure args = .ok (some x) ∧ lowered.graph.types = g.types := by
  obtain ⟨t, hg, hwf, hshape⟩ := Graph.ofText_represents hread
  have hkept := (keptByPasses_refinedBy I config.impure t).and (keptByPasses_types g.types)
  obtain ⟨t', hg', -, -, hrefines, htypes⟩ := hkept.of_runs (fun r hr => sweeps_of_mem_runs hr)
    ⟨hg, hwf, hshape, fun _ _ h => h, rfl⟩ (lowerText_eq_runs hread hlower hout)
  rw [hg.execute_eq] at hx
  rw [hg'.execute_eq, hrefines args x (Except.ok.inj hx)]
  exact ⟨rfl, htypes⟩

/-- A guard, a logged value, a guarded computation and a dead node. -/
def loggedComputation : String :=
  "graph(%c: core.bool, %x: core.t) \x7b if(%c) \x7b\x7d else \x7b raise() \x7d io.log(%x) " ++
    "%y = if(%c) : core.t \x7b %u = aten.f(%x) : core.t return %u \x7d " ++
    "else \x7b raise() return %x \x7d %d = aten.g(%y) : core.t return %y \x7d"

/-- Hoists `aten.f` and leaves `io.log` alone. -/
def loggingConfig : Config :=
  { promotable := .ofList [⟨"aten", "f"⟩], impure := .ofList [⟨"io", "log"⟩] }

/-- Operators add up their inputs and one, and zero chooses the second arm. -/
def addingUp : Interpretation Nat where
  compute _ _ _ inputs _ := inputs.foldr Nat.add 1
  takesFirst inputs := inputs ≠ [0]
  argument _ _ _ _ := 0

theorem Config.execute_lowerText_loggedComputation :
    ∃ g lowering lowered x, Graph.ofText loggedComputation = .ok g ∧
      loggingConfig.lowerText loggedComputation = .ok lowering ∧ lowering.outcome = .ok lowered ∧
      lowered.graph.text = .ok ("graph(%0: core.bool, %1: core.t) \x7b\n  io.log(%1)\n" ++
        "  %2 = aten.f(%1) : core.t\n  return %2\n\x7d\n") ∧
      g.execute addingUp loggingConfig.impure [1, 5] = .ok (some x) ∧ x.1 = [6] ∧
      x.2.map Call.inputs = [[5]] ∧
      lowered.graph.execute addingUp loggingConfig.impure [1, 5] = .ok (some x) := by
  have hrun : (Graph.ofText loggedComputation).toOption.map (fun g =>
      (g.execute addingUp loggingConfig.impure [1, 5]).toOption.map fun result =>
        result.map fun x => (x.1, x.2.map Call.inputs)) = some (some (some ([6], [[5]]))) := by
    decide +kernel
  have hlower : (loggingConfig.lowerText loggedComputation).toOption.map (fun lowering =>
      lowering.outcome.toOption.map fun lowered => lowered.graph.text.toOption) =
      some (some (some ("graph(%0: core.bool, %1: core.t) \x7b\n  io.log(%1)\n" ++
        "  %2 = aten.f(%1) : core.t\n  return %2\n\x7d\n"))) := by decide +kernel
  simp only [Option.map_eq_some_iff, toOption_eq_some_iff] at hrun hlower
  obtain ⟨g, hread, result, hresult, x, rfl, hx⟩ := hrun
  obtain ⟨lowering, hok, lowered, hout, htext⟩ := hlower
  obtain ⟨hvalues, hcalls⟩ := Prod.mk.inj hx
  exact ⟨g, lowering, lowered, x, hread, hok, hout, htext, hresult, hvalues, hcalls,
    (execute_lowerText loggingConfig loggedComputation g lowering lowered addingUp [1, 5] x hread hok
      hout hresult).1⟩

end Unguard
