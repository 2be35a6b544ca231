import Unguard.Proofs.Canonical
import Unguard.Proofs.Mismatches
import Unguard.Proofs.RecodedRuns
import Unguard.Proofs.Repeating
import Unguard.Proofs.Unambiguous

/-!
# Lowering depends on the text of the graph only

Texts that are read as graphs with the same text are lowered alike: with the same reports to graphs with
the same text, or not at all for the same reason (`Config.lowerText_of_text_eq`).  Names of values,
blanks and comments, the order of attributes and the order in which types are interned have no part in
lowering.

The graphs of such texts are written by the same draft, and both are the graph that is built from it, up
to the coding of attributes and labels (`Graph.recode_eq_of_text_eq`).  Passes do not look at these, and
what is written of them is the same.
-/

namespace Unguard

open Text

namespace Graph

variable {source source' : String} {g g' : Graph}

/-- The graph is written by the draft, and it is what is built from the draft. -/
structure Reproduced (g : Graph) (draft : GraphDraft) : Prop where
  named : draft.Named
  block : draft.block.params = []
  proper : draft.body.Proper NodeDraft.kind
  bare : draft.bare = draft
  text : g.text = .ok draft.text
  build : ∃ k, draft.build = .ok k ∧ ∀ T, k.recode (.into T k.types) = g.recode (.into T g.types)

theorem exists_reproduced (h : Graph.ofText source = .ok g) : ∃ draft, g.Reproduced draft := by
  obtain ⟨t, hholds⟩ := printable_ofText h
  obtain ⟨draft, hdraft, hnamed, hproper, htext⟩ := Printable.exists_text hholds
  obtain ⟨hg, hwf, -, hprintable⟩ := hholds
  obtain ⟨k, -, -, hbuild, -⟩ :=
    exists_build hwf (fun x hx => (hprintable.nodes x hx).raise) hdraft rfl
  obtain ⟨source, -, hsource⟩ := bind_eq_ok_iff.1 h
  exact ⟨draft, hnamed, (outlineGraph_eq_ok_iff.1 hdraft).2, hproper, bare_of_outlineGraph hdraft,
    htext, k, hbuild, GraphDraft.recode_build hsource hg hdraft hbuild⟩

/-- Graphs that were read and have the same text are equal, up to the coding of attributes and labels. -/
theorem recode_eq_of_text_eq (h : Graph.ofText source = .ok g) (h' : Graph.ofText source' = .ok g')
    (htext : g.text = g'.text) (T : TypeTable) :
    g.recode (.into T g.types) = g'.recode (.into T g'.types) := by
  obtain ⟨draft, hdraft⟩ := exists_reproduced h
  obtain ⟨draft', hdraft'⟩ := exists_reproduced h'
  -- One text, one draft; and one draft, one graph.
  have htexts : draft.text = draft'.text :=
    Except.ok.inj (hdraft.text.symm.trans (htext.trans hdraft'.text))
  obtain rfl : draft = draft' := by
    rw [← hdraft.bare, ← hdraft'.bare]
    exact GraphDraft.bare_eq_of_text_eq hdraft.named hdraft'.named hdraft.block hdraft'.block
      hdraft.proper hdraft'.proper htexts
  obtain ⟨k, hbuild, hsame⟩ := hdraft.build
  obtain ⟨k', hbuild', hsame'⟩ := hdraft'.build
  obtain rfl := Except.ok.inj (hbuild.symm.trans hbuild')
  rw [← hsame, hsame']

theorem coherent_ofText (h : Graph.ofText source = .ok g) : g.Coherent :=
  Consistent.of_editedTo (editedTo_ofText h) consistent_empty mirrored_empty

/-- The text of a lowered graph, which has the types of the graph it was lowered from. -/
theorem exists_text_of_runs (h : Graph.ofText source = .ok g) {runs : List PassRun}
    (hruns : g.applyRuns runs = .ok g') : g'.types = g.types ∧ ∃ text, g'.text = .ok text := by
  obtain ⟨t, hg, hwf, hshape, hprintable⟩ := printable_ofText h
  have hkept : KeptByPasses (fun _ => True) fun g' t => g'.types = g.types ∧ g'.Printable t :=
    (keptByPasses_types g.types).and keptByPasses_printable
  obtain ⟨t', hg', hwf', hshape', htypes, hprintable'⟩ := hkept.of_runs
    (fun r _ => by cases r <;> trivial) ⟨hg, hwf, hshape, rfl, hprintable⟩ hruns
  obtain ⟨draft, -, -, -, htext⟩ := Printable.exists_text ⟨hg', hwf', hshape', hprintable'⟩
  exact ⟨htypes, _, htext⟩

end Graph

namespace Config

open Unguard.Graph

variable (config : Config)

theorem exists_run {source : String} {g : Graph} (h : Graph.ofText source = .ok g) :
    ∃ run, config.run g = .ok run := by
  by_cases hpasses : config.passes = []
  · rw [Config.run, hpasses]
    exact ⟨_, rfl⟩
  · obtain ⟨t, hg, hwf, hshape⟩ := Graph.ofText_represents h
    obtain ⟨run, hrun, -⟩ := runPasses_outcome config hpasses hg hwf hshape
    exact ⟨run, hrun⟩

variable {config} in
theorem lowerText_eq_of_run {source : String} {g : Graph} {run : Run}
    (h : Graph.ofText source = .ok g) (hrun : config.run g = .ok run) :
    config.lowerText source = .ok ⟨run.events, run.outcome.map (LoweredGraph.mk run.graph)⟩ := by
  rw [lowerText, h]
  dsimp only
  rw [hrun]
  rfl

/-- **Lowering depends on the text of the graph only.**  If two texts are read as graphs with the same
text, then with any settings both lowerings end without a fault, and either both succeed, the reports of
the passes are the same and the lowered graphs have the same text, or both fail with the same error. -/
theorem lowerText_of_text_eq (source₁ source₂ : String) (g₁ g₂ : Graph)
    (h₁ : Graph.ofText source₁ = .ok g₁) (h₂ : Graph.ofText source₂ = .ok g₂)
    (htext : g₁.text = g₂.text) :
    ∃ l₁ l₂, config.lowerText source₁ = .ok l₁ ∧ config.lowerText source₂ = .ok l₂ ∧
      ((∃ lowered₁ lowered₂ text, l₁.outcome = .ok lowered₁ ∧ l₂.outcome = .ok lowered₂ ∧
          lowered₁.stages = lowered₂.stages ∧ lowered₁.graph.text = .ok text ∧
          lowered₂.graph.text = .ok text) ∨
        ∃ error, l₁.outcome = .error error ∧ l₂.outcome = .error error) := by
  obtain ⟨T, hcovers₁, hcovers₂⟩ := TypeTable.exists_union (typed_ofText h₁).closed g₂.types
  obtain ⟨run₁, hrun₁⟩ := exists_run config h₁
  obtain ⟨run₂, hrun₂⟩ := exists_run config h₂
  -- In the common coding both runs start with the same graph, so they are the same run.
  have hruns := congrArg config.run (recode_eq_of_text_eq h₁ h₂ htext T)
  rw [run_recode config _ (coherent_ofText h₁), run_recode config _ (coherent_ofText h₂), hrun₁,
    hrun₂] at hruns
  obtain ⟨hgraph, -, hout⟩ := Run.mk.inj (Except.ok.inj hruns)
  refine ⟨_, _, lowerText_eq_of_run h₁ hrun₁, lowerText_eq_of_run h₂ hrun₂, ?_⟩
  rw [← hout]
  cases hstages : run₁.outcome with
  | error error => exact Or.inr ⟨error, rfl, rfl⟩
  | ok stages =>
    obtain ⟨htypes₁, text, htext₁⟩ := exists_text_of_runs h₁ (runPasses_eq_runs hrun₁ hstages)
    obtain ⟨htypes₂, text₂, htext₂⟩ :=
      exists_text_of_runs h₂ (runPasses_eq_runs hrun₂ (hout.symm.trans hstages))
    -- Passes leave the types as they are, so the text of a lowered graph survives the coding too.
    rw [← htypes₁] at hcovers₁ hgraph
    rw [← htypes₂] at hcovers₂ hgraph
    have hcoded₁ := text_recode (Recoding.faithful_into hcovers₁) htext₁
    have hcoded₂ := text_recode (Recoding.faithful_into hcovers₂) htext₂
    rw [hgraph, hcoded₂] at hcoded₁
    obtain rfl := Except.ok.inj hcoded₁
    exact Or.inl ⟨_, _, _, rfl, rfl, rfl, htext₁, htext₂⟩

/-- A guarded computation with types and an infinity in its attributes, and a dead node. -/
def plainComputation : String :=
  "graph(%c: core.bool, %x: core.t) \x7b %y = if(%c) : core.t \x7b " ++
    "%u = aten.f(%x) \x7bj = [core.v, 1.0e999], k = core.u\x7d : core.t return %u \x7d " ++
    "else \x7b raise() return %x \x7d %d = aten.g(%y) : core.w return %y \x7d"

/-- The same with other names, a comment, another infinity, and attributes in another order, one of them
twice. -/
def ornateComputation : String :=
  "graph(%flag: core.bool,%0:core.t) \x7b // checked below\n%r = if(%flag) : core.t \x7b " ++
    "%0a = aten.f(%0) \x7bk = core.u, j = 1, j = [core.v, 3.5e400]\x7d : core.t return %0a \x7d " ++
    "else \x7b raise() return %0 \x7d %r2 = aten.g(%r) : core.w return %r \x7d"

/-- How the graphs of both are written. -/
def writtenComputation : String :=
  "graph(%0: core.bool, %1: core.t) \x7b\n  %2 = if(%0) : core.t \x7b\n" ++
    "    %3 = aten.f(%1) \x7bj = [core.v, inf], k = core.u\x7d : core.t\n    return %3\n" ++
    "  \x7d else \x7b\n    raise()\n    return %1\n  \x7d\n" ++
    "  %4 = aten.g(%2) : core.w\n  return %2\n\x7d\n"

theorem lowerText_of_text_eq_ornateComputation :
    ∃ g₁ g₂ l₁ l₂ lowered₁ lowered₂, Graph.ofText plainComputation = .ok g₁ ∧
      Graph.ofText ornateComputation = .ok g₂ ∧ g₁.text = g₂.text ∧
      loggingConfig.lowerText plainComputation = .ok l₁ ∧
      loggingConfig.lowerText ornateComputation = .ok l₂ ∧ l₁.outcome = .ok lowered₁ ∧
      l₂.outcome = .ok lowered₂ ∧ lowered₁.stages = lowered₂.stages ∧
      lowered₂.graph.text = .ok ("graph(%0: core.bool, %1: core.t) \x7b\n" ++
        "  %2 = aten.f(%1) \x7bj = [core.v, inf], k = core.u\x7d : core.t\n  return %2\n\x7d\n") := by
  have hread : (Graph.ofText plainComputation).toOption.map (fun g => g.text.toOption) =
      some (some writtenComputation) := by decide +kernel
  have hsame : (Graph.ofText ornateComputation).toOption.map (fun g => g.text.toOption) =
      some (some writtenComputation) := by decide +kernel
  have hlower : (loggingConfig.lowerText plainComputation).toOption.map (fun l =>
      l.outcome.toOption.map fun lowered => lowered.graph.text.toOption) =
      some (some (some ("graph(%0: core.bool, %1: core.t) \x7b\n" ++
        "  %2 = aten.f(%1) \x7bj = [core.v, inf], k = core.u\x7d : core.t\n  return %2\n\x7d\n"))) := by
    decide +kernel
  simp only [Option.map_eq_some_iff, toOption_eq_some_iff] at hread hsame hlower
  obtain ⟨g₁, h₁, htext₁⟩ := hread
  obtain ⟨g₂, h₂, htext₂⟩ := hsame
  obtain ⟨l₁, hlower₁, lowered₁, hout₁, htarget⟩ := hlower
  have hsource : g₁.text = g₂.text := htext₁.trans htext₂.symm
  obtain ⟨l, l₂, hl, hlower₂, h⟩ := lowerText_of_text_eq loggingConfig _ _ g₁ g₂ h₁ h₂ hsource
  obtain rfl := Except.ok.inj (hlower₁.symm.trans hl)
  rcases h with ⟨lowered, lowered₂, text, hout, hout₂, hstages, htext, htext'⟩ | ⟨error, herror, -⟩
  · obtain rfl := Except.ok.inj (hout₁.symm.trans hout)
    rw [← Except.ok.inj (htarget.symm.trans htext)] at htext'
    exact ⟨g₁, g₂, l₁, l₂, lowered₁, lowered₂, h₁, h₂, hsource, hlower₁, hlower₂, hout₁, hout₂,
      hstages, htext'⟩
  · exact nomatch hout₁.symm.trans herror

end Config

end Unguard
