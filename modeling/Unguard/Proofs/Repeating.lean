import Unguard.Proofs.Idle
import Unguard.Proofs.Refusing
import Unguard.Proofs.RoundTrip

/-!
# Lowering the text of a lowered graph

A settled lowering need not leave its passes without work.  They run once each, in order, and a sweep
after a pass can empty an arm, which makes a conditional a guard that the pass for guards does not see
any more (`Config.not_keeps_emptiedArm`).

What is true is that this is the only obstacle.  Lowering the text of a lowered graph again changes
nothing exactly if no pass has a site left in the graph (`Config.lowerText_again`).  The text is read
back as the same tree up to the numbers of its values, and neither what is a site nor what is dead
depends on these.
-/

namespace Unguard

open Text

/-! ### What numbers and attributes have no part in -/

/-- The node without its number and its attributes, where the values are renamed by `σ`. -/
def NodeView.shape (σ : ValueId → ValueId) (x : NodeView) : NodeView :=
  ⟨⟨0⟩, x.kind, x.inputs.map σ, x.outputs.map σ, .empty⟩

/-- The block without its number, where the values are renamed by `σ`. -/
def BlockView.shape (σ : ValueId → ValueId) (b : BlockView) : BlockView :=
  ⟨⟨0⟩, b.params.map σ, b.returns.map σ⟩

/-- Shapes keep what passes look at. -/
theorem faithful_shape (σ : ValueId → ValueId) : Faithful (NodeView.shape σ) (BlockView.shape σ) where
  kind _ := rfl
  outputs _ := List.length_map ..
  params _ := List.length_map ..
  returns _ := List.length_map ..

/-- The tree without numbers and attributes, where the values are renamed by `σ`. -/
def Arms.shape (σ : ValueId → ValueId) (arms : BlockTrees) : BlockTrees :=
  arms.map (NodeView.shape σ) (BlockView.shape σ)

theorem Arms.forall_subtrees_shape {σ : ValueId → ValueId} {arms : BlockTrees}
    {Q : NodeView × BlockTrees → Prop} :
    (∀ p ∈ (arms.shape σ).subtrees, Q p) ↔ ∀ p ∈ arms.subtrees, Q (p.1.shape σ, p.2.shape σ) := by
  rw [Arms.shape, Arms.subtrees_map, List.forall_mem_map]
  rfl

theorem Arms.mentions_shape (σ : ValueId → ValueId) (arms : BlockTrees) :
    (arms.shape σ).mentions = arms.mentions.map σ := by
  rw [Arms.mentions, Arms.mentions, Arms.shape, Arms.collect_map, Arms.map_collect]
  rfl

/-- Balance is a matter of shape. -/
theorem Arms.balanced_shape_iff {σ : ValueId → ValueId} {arms : BlockTrees} :
    (arms.shape σ).Balanced ↔ arms.Balanced := by
  refine Arms.forall_subtrees_shape.trans (forall₂_congr fun p _ => ?_)
  simp only [Arms.shape, Arms.heads_map, List.forall_mem_map, (faithful_shape σ).returns,
    (faithful_shape σ).outputs]

/-- So is being dead, if values are told apart. -/
theorem NodeView.isDead_shape_iff {σ : ValueId → ValueId} (hσ : σ.Injective) {impure : OpSet}
    {head : NodeView} {arms : BlockTrees} :
    (head.shape σ).IsDead impure (arms.shape σ) ↔ head.IsDead impure arms := by
  simp only [NodeView.IsDead, Arms.mentions_shape, NodeView.shape, List.forall_mem_map,
    List.mem_map_of_injective hσ]

/-- Whether a node is a site of a pass. -/
def Config.finds (config : Config) (pass : Pass) (head : NodeView) (arms : BlockTrees) : Bool :=
  match pass with
  | .guardRaise => head.isGuard arms
  | .promote => (head.computingArm? config.promotable arms).isSome

/-- So are the sites of passes. -/
theorem Config.finds_shape (config : Config) (pass : Pass) (σ : ValueId → ValueId) (head : NodeView)
    (arms : BlockTrees) :
    config.finds pass (head.shape σ) (arms.shape σ) = config.finds pass head arms := by
  cases pass with
  | guardRaise => exact NodeView.isGuard_map (faithful_shape σ) head arms
  | promote =>
    rw [Config.finds, Arms.shape, NodeView.computingArm?_map (faithful_shape σ), Option.isSome_map]
    rfl

theorem Arms.sites_eq_nil_iff {α : Type} {site : NodeView → BlockTrees → Option α}
    {arms : BlockTrees} : arms.sites site = [] ↔ ∀ p ∈ arms.subtrees, site p.1 p.2 = none := by
  refine ⟨Arms.site_eq_none, fun h => List.eq_nil_iff_forall_not_mem.2 fun s hs => ?_⟩
  obtain ⟨p, hp, -, -, hsite⟩ := Arms.mem_sites hs
  exact nomatch hsite.symm.trans (h p hp)

/-- A pass has no site in a graph exactly if it finds none in the tree. -/
theorem Graph.Represents.sites_eq_nil_iff {g : Graph} {t : BlockTree} (hg : g.Represents t)
    (config : Config) (pass : Pass) : config.sites pass g = .ok [] ↔
      ∀ p ∈ t.toArms.subtrees, config.finds pass p.1 p.2 = false := by
  cases pass with
  | guardRaise =>
    have hsite : ∀ p ∈ t.toArms.subtrees, guardRemoval.site? g p.1.id = guardSite p.1 p.2 := by
      intro p hp
      change (if Graph.isGuard _ p.1.id then some () else none) = _
      rw [hg.isGuard_eq hp]
      rfl
    rw [Config.sites, map_fst_eq_ok_nil, Reduction.sites_of_represents hg hsite, Except.ok.injEq,
      List.map_eq_nil_iff, Arms.sites_eq_nil_iff]
    exact forall₂_congr fun p _ => guardSite_eq_none_iff
  | promote =>
    have hsite : ∀ p ∈ t.toArms.subtrees,
        (hoisting config.promotable).site? g p.1.id = hoistSite config.promotable p.1 p.2 :=
      fun p hp => hg.computingArm?_eq hp _
    rw [Config.sites, map_fst_eq_ok_nil, Reduction.sites_of_represents hg hsite, Except.ok.injEq,
      List.map_eq_nil_iff, Arms.sites_eq_nil_iff]
    refine forall₂_congr fun p _ => ?_
    rw [hoistSite, Option.map_eq_none_iff, Config.finds, Option.isSome_eq_false_iff,
      Option.isNone_iff_eq_none]

namespace Graph.SameTree

variable {g g' : Graph} {t t' : BlockTree} {σ : ValueId → ValueId}

theorem shape_eq (h : g.SameTree g' σ t t') : t.toArms.shape σ = t'.toArms.shape id := by
  refine Arms.map_eq_map_iff.2 (Arms.Pairs.imp h (fun x _ x' _ hx => ?_) fun b _ b' _ hb => ?_)
  · simp only [NodeView.shape, hx.kind, hx.inputs, hx.outputs, List.map_id]
  · simp only [BlockView.shape, hb.params, hb.returns, List.map_id]

theorem balanced_iff (h : g.SameTree g' σ t t') : t'.toArms.Balanced ↔ t.toArms.Balanced := by
  rw [← Arms.balanced_shape_iff (σ := id), ← h.shape_eq, Arms.balanced_shape_iff]

/-- Graphs of the same tree have sites for the same passes. -/
theorem sites_eq_nil_iff (h : g.SameTree g' σ t t') (hg : g.Represents t) (hg' : g'.Represents t')
    (config : Config) (pass : Pass) :
    config.sites pass g' = .ok [] ↔ config.sites pass g = .ok [] := by
  have hshape : ∀ (arms : BlockTrees) (τ : ValueId → ValueId),
      (∀ p ∈ arms.subtrees, config.finds pass p.1 p.2 = false) ↔
        ∀ p ∈ (arms.shape τ).subtrees, config.finds pass p.1 p.2 = false := by
    intro arms τ
    simp only [Arms.forall_subtrees_shape, config.finds_shape]
  rw [hg.sites_eq_nil_iff, hg'.sites_eq_nil_iff, hshape t.toArms σ, h.shape_eq, ← hshape]

/-- They are swept for the same operators. -/
theorem swept_iff (h : g.SameTree g' σ t t') (hσ : σ.Injective) (hg : g.Represents t)
    (hg' : g'.Represents t') {impure : OpSet} : g'.Swept impure ↔ g.Swept impure := by
  have hshape : ∀ (arms : BlockTrees) {τ : ValueId → ValueId}, τ.Injective →
      ((∀ p ∈ arms.subtrees, ¬p.1.IsDead impure arms) ↔
        ∀ p ∈ (arms.shape τ).subtrees, ¬p.1.IsDead impure (arms.shape τ)) := by
    intro arms τ hτ
    simp only [Arms.forall_subtrees_shape, NodeView.isDead_shape_iff hτ]
  rw [hg.swept_iff, hg'.swept_iff, hshape t.toArms hσ, h.shape_eq, ← hshape _ Function.injective_id]

end Graph.SameTree

/-! ### Reading the text of a graph -/

namespace Graph

/-- A graph whose text is read has finite floats. -/
theorem Printable.finite_of_ofText {g g' : Graph} {t : BlockTree} {text : String}
    (h : Holds Printable g t) (htext : g.text = .ok text) (hread : Graph.ofText text = .ok g') :
    ∀ x ∈ t.toArms.nodes, x.Finite := by
  obtain ⟨draft, hdraft, hnamed, hproper, htext'⟩ := Printable.exists_text h
  obtain rfl := Except.ok.inj (htext.symm.trans htext')
  obtain ⟨draft', hread'⟩ : ∃ draft', GraphDraft.ofText draft.text = .ok draft' := by
    rw [Graph.ofText] at hread
    obtain ⟨draft', hread', -⟩ := bind_eq_ok_iff.1 hread
    exact ⟨draft', hread'⟩
  have hfinite := GraphDraft.finite_of_ofText hnamed hproper hread'
  have hpairs := Arms.traverse_eq_ok_iff.1 (outlineGraph_eq_ok_iff.1 hdraft).1
  intro x hx
  obtain ⟨d, hd, hxd⟩ := exists_of_forall₂_left hpairs.nodes hx
  rw [GraphDraft.toArms, Arms.nodes, Arms.nodes, List.append_nil] at hd
  exact (finite_iff_of_outlineNode hxd).1 (hfinite d hd)

/-- What is read from the text of a graph is the same graph. -/
theorem Printable.sameTree_of_ofText {g g' : Graph} {t : BlockTree} {text : String}
    (h : Holds Printable g t) (htext : g.text = .ok text) (hread : Graph.ofText text = .ok g') :
    ∃ (t' : BlockTree) (σ : Equiv.Perm ValueId), g'.Represents t' ∧ g.SameTree g' σ t t' ∧
      g'.text = .ok text := by
  obtain ⟨text', g'', t', σ, htext', hread', hg', hsame, htext''⟩ :=
    Printable.readsBack h (Printable.finite_of_ofText h htext hread)
  obtain rfl := Except.ok.inj (htext.symm.trans htext')
  obtain rfl := Except.ok.inj (hread.symm.trans hread')
  exact ⟨t', σ, hg', hsame, htext''⟩

end Graph

/-! ### Lowering again -/

namespace Config

open Unguard.Graph

/-- Lowering the text reduces nothing and gives the text. -/
def Keeps (config : Config) (text : String) : Prop :=
  ∃ lowering lowered, config.lowerText text = .ok lowering ∧ lowering.outcome = .ok lowered ∧
    (∀ s ∈ lowered.stages, s.rounds.reduced = 0) ∧ lowered.graph.text = .ok text

/-- Lowering the text of a graph that is swept changes nothing exactly if no pass has a site. -/
theorem keeps_text_iff {config : Config} {g g' : Graph} {t : BlockTree} {text : String}
    (h : Holds Printable g t) (htext : g.text = .ok text) (hread : Graph.ofText text = .ok g')
    (hready : config.passes ≠ [] → t.toArms.Balanced ∧ config.Swept g) :
    config.Keeps text ↔ ∀ pass ∈ config.passes, config.sites pass g = .ok [] := by
  -- The graph that is read has the same tree, up to the numbers of its parts.
  obtain ⟨t', σ, hg', hsame, htext'⟩ := Printable.sameTree_of_ofText h htext hread
  have hswept : config.passes ≠ [] → config.Swept g' := fun hne hon =>
    (hsame.swept_iff σ.injective h.1 hg').2 ((hready hne).2 hon)
  constructor
  · rintro ⟨lowering, lowered, hlower, hout, hidle, -⟩ pass hpass
    obtain ⟨g₁, run, hread₁, hrun, hstages, -⟩ := lowerText_eq_ok hlower hout
    obtain rfl := Except.ok.inj (hread.symm.trans hread₁)
    have hsites := sites_of_runPasses (hswept (List.ne_nil_of_mem hpass)) hrun hstages hidle
    exact (hsame.sites_eq_nil_iff h.1 hg' config pass).1 (hsites pass hpass)
  · intro hidle
    obtain ⟨run, stages, hrun, hout, hgraph, hreduced⟩ : ∃ run stages,
        config.runPasses config.passes g' = .ok run ∧ run.outcome = .ok stages ∧ run.graph = g' ∧
          ∀ s ∈ stages, s.rounds.reduced = 0 := by
      by_cases hne : config.passes = []
      · rw [hne]
        exact ⟨_, [], rfl, rfl, rfl, nofun⟩
      · obtain ⟨s, hs, hwf, hshape⟩ := Graph.ofText_represents hread
        obtain rfl := hg'.unique hs
        have hbal : Holds (fun _ t => t.toArms.Balanced) g' s :=
          ⟨hg', hwf, hshape, hsame.balanced_iff.2 (hready hne).1⟩
        exact runPasses_idle ⟨firstMismatch_of_holds hbal, verify_ok config hbal⟩ (hswept hne)
          fun pass hpass => (hsame.sites_eq_nil_iff h.1 hg' config pass).2 (hidle pass hpass)
    obtain ⟨lowering, hlower, hlowered⟩ := lowerText_ok hread hrun hout
    refine ⟨lowering, _, hlower, hlowered, hreduced, ?_⟩
    rw [hgraph, htext']

/-- A lowered graph can be printed, and is balanced and swept if a pass ran. -/
theorem lowerText_ready {config : Config} {source : String} {lowering : Lowering}
    {lowered : LoweredGraph} (hlower : config.lowerText source = .ok lowering)
    (hok : lowering.outcome = .ok lowered) (hsettled : ∀ s ∈ lowered.stages, s.Settled) :
    ∃ t, Holds Printable lowered.graph t ∧
      (config.passes ≠ [] → t.toArms.Balanced ∧ config.Swept lowered.graph) := by
  obtain ⟨g, run, hread, hrun, hout, hgraph⟩ := lowerText_eq_ok hlower hok
  obtain ⟨t₀, hg, hwf, hshape, hprintable⟩ := printable_ofText hread
  have hruns := runPasses_eq_runs hrun hout
  have hany : ∀ r ∈ config.runs config.passes, r.Sweeps fun _ => True := fun r _ => by
    cases r <;> trivial
  rw [← hgraph]
  cases hpasses : config.passes with
  | nil =>
    obtain ⟨t, hholds⟩ := keptByPasses_printable.of_runs hany ⟨hg, hwf, hshape, hprintable⟩ hruns
    exact ⟨t, hholds, fun hne => absurd rfl hne⟩
  | cons pass passes =>
    rw [hpasses] at hrun
    -- The first pass checked the arms before it began, and later steps keep them balanced.
    obtain ⟨rounds, _, _, _, _, hrounds, -⟩ := runPasses_cons_eq_ok hrun hout
    have hbal := (hg.firstMismatch_eq_ok_none_iff hshape).1 (firstMismatch_of_reduce hrounds)
    obtain ⟨t, hg', hwf', hshape', hbal', hprintable'⟩ :=
      (KeptByPasses.balanced.and keptByPasses_printable).of_runs hany
        ⟨hg, hwf, hshape, hbal, hprintable⟩ hruns
    exact ⟨t, ⟨hg', hwf', hshape', hprintable'⟩, fun _ => ⟨hbal', swept_of_runPasses hrun hout hsettled⟩⟩

/-- **When lowering is idempotent.**  The graph of a settled lowering can be printed.  If its text is
read, then lowering the text again reduces nothing and prints the same text exactly if no scheduled
pass has a site left in the graph.  A pass can have one only if the graph changed after its rounds: if
nothing was swept after them, and no later stage reduced or swept anything, then it has none. -/
theorem lowerText_again (config : Config) (source : String) (lowering : Lowering)
    (lowered : LoweredGraph) (hlower : config.lowerText source = .ok lowering)
    (hok : lowering.outcome = .ok lowered) (hsettled : ∀ s ∈ lowered.stages, s.Settled) :
    ∃ text, lowered.graph.text = .ok text ∧
      (∀ again, Graph.ofText text = .ok again →
        (config.Keeps text ↔ ∀ pass ∈ config.passes, config.sites pass lowered.graph = .ok [])) ∧
      ∀ before s later, lowered.stages = before ++ s :: later → s.SweptNothing →
        (∀ s' ∈ later, s'.rounds.reduced = 0 ∧ s'.SweptNothing) →
        config.sites s.pass lowered.graph = .ok [] := by
  obtain ⟨t, hholds, hready⟩ := lowerText_ready hlower hok hsettled
  obtain ⟨draft, -, -, -, htext⟩ := Printable.exists_text hholds
  refine ⟨draft.text, htext, fun again hread => keeps_text_iff hholds htext hread hready, ?_⟩
  intro before s later hstages hswept hquiet
  obtain ⟨g, run, -, hrun, hout, hgraph⟩ := lowerText_eq_ok hlower hok
  rw [← hgraph]
  rw [hstages] at hout hsettled
  exact sites_of_quiet hrun hout (hsettled s (by simp)).1 hswept hquiet

theorem lowerText_again_loggedComputation : ∃ lowering lowered text again,
    loggingConfig.lowerText loggedComputation = .ok lowering ∧ lowering.outcome = .ok lowered ∧
      (∀ s ∈ lowered.stages, s.Settled) ∧ lowered.graph.text = .ok text ∧
      Graph.ofText text = .ok again ∧
      (∀ pass ∈ loggingConfig.passes, loggingConfig.sites pass lowered.graph = .ok []) ∧
      loggingConfig.Keeps text := by
  have hrun : (loggingConfig.lowerText loggedComputation).toOption.bind (fun lowering =>
      lowering.outcome.toOption.bind fun lowered => lowered.graph.text.toOption.bind fun text =>
        (Graph.ofText text).toOption.map fun _ => decide ((∀ s ∈ lowered.stages, s.Settled) ∧
          ∀ pass ∈ loggingConfig.passes, (loggingConfig.sites pass lowered.graph).toOption = some [])) =
      some true := by decide +kernel
  simp only [Option.bind_eq_some_iff, Option.map_eq_some_iff, toOption_eq_some_iff,
    decide_eq_true_eq] at hrun
  obtain ⟨lowering, hlower, lowered, hok, text, htext, again, hread, hsettled, hsites⟩ := hrun
  obtain ⟨text', htext', hkeeps, -⟩ := lowerText_again loggingConfig loggedComputation lowering lowered
    hlower hok hsettled
  obtain rfl := Except.ok.inj (htext.symm.trans htext')
  exact ⟨lowering, lowered, text, again, hlower, hok, hsettled, htext, hread, hsites,
    (hkeeps again hread).2 hsites⟩

/-- The sweep after the pass for guards empties the first arm. -/
def emptiedArm : String :=
  "graph(%c: core.bool) \x7b if(%c) \x7b %x = aten.f(%c) : core.t \x7d else \x7b raise() \x7d return %c \x7d"

/-- A settled lowering whose text is lowered further: a guard is left. -/
theorem not_keeps_emptiedArm : ∃ lowering lowered text again,
    ({} : Config).lowerText emptiedArm = .ok lowering ∧ lowering.outcome = .ok lowered ∧
      (∀ s ∈ lowered.stages, s.Settled) ∧ lowered.graph.text = .ok text ∧
      Graph.ofText text = .ok again ∧ ¬({} : Config).Keeps text := by
  have hrun : (({} : Config).lowerText emptiedArm).toOption.bind (fun lowering =>
      lowering.outcome.toOption.bind fun lowered => lowered.graph.text.toOption.bind fun text =>
        (({} : Config).lowerText text).toOption.bind fun second =>
          second.outcome.toOption.map fun relowered => decide ((∀ s ∈ lowered.stages, s.Settled) ∧
            ∃ s ∈ relowered.stages, s.rounds.reduced = 1)) = some true := by decide +kernel
  simp only [Option.bind_eq_some_iff, Option.map_eq_some_iff, toOption_eq_some_iff,
    decide_eq_true_eq] at hrun
  obtain ⟨lowering, hlower, lowered, hok, text, htext, second, hlower', relowered, hok', hsettled, s, hs,
    hreduced⟩ := hrun
  obtain ⟨again, -, hread, -⟩ := lowerText_eq_ok hlower' hok'
  refine ⟨lowering, lowered, text, again, hlower, hok, hsettled, htext, hread, ?_⟩
  rintro ⟨third, lowered', hlower'', hok'', hidle, -⟩
  obtain rfl := Except.ok.inj (hlower'.symm.trans hlower'')
  obtain rfl := Except.ok.inj (hok'.symm.trans hok'')
  exact Nat.one_ne_zero (hreduced.symm.trans (hidle s hs))

end Config

end Unguard
