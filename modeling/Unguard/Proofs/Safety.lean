import Unguard.Proofs.Checking
import Unguard.Proofs.Links
import Unguard.Proofs.Lowering

/-!
# Passes are safe

Every step of a pass goes through the checks of the edits it is made of, and the graph passes all checks
afterwards.  So runs of passes on a graph that was read never fault, as long as the arms of its
conditionals return what they should, and they leave valid graphs; and lowering never ends in a fault or
with an invalid graph (`Config.lowerText_safe`).

That passes are made of basic edits needs no knowledge of trees: what one edit keeps, a reduction keeps
(`Reduction.keeps_run`), and sweeps keep (`Graph.keeps_sweepDeadCode`).  The steps of one hoisting are
listed by `Graph.KeptByHoisting`.
-/

namespace Unguard

/-! ### What single steps keep -/

namespace Reduction

variable {α : Type} {r : Reduction α} {P : Graph → Prop}

/-- Sites are reduced one after another. -/
theorem keeps_applyAll (h : ∀ {g n a g'}, P g → r.apply g n a = .ok g' → P g') :
    ∀ {sites : List (NodeId × α)} {g g' : Graph} {reduced : List ReducedSite}, P g →
      r.applyAll g sites = .ok (g', reduced) → P g'
  | [], g, g', reduced, hg, hok => by
    obtain rfl : g = g' := congrArg Prod.fst (Except.ok.inj hok)
    exact hg
  | (n, a) :: sites, g, g', reduced, hg, hok => by
    rw [applyAll] at hok
    obtain ⟨next, hnext, hok⟩ := bind_eq_ok_iff.1 hok
    obtain ⟨⟨last, more⟩, hlast, hok⟩ := bind_eq_ok_iff.1 hok
    obtain rfl : last = g' := congrArg Prod.fst (Except.ok.inj hok)
    exact keeps_applyAll h (h hg hnext) hlast

/-- So are the rounds of a run. -/
theorem keeps_rounds (h : ∀ {g n a g'}, P g → r.apply g n a = .ok g' → P g') :
    ∀ {limit : Nat} {g : Graph} {run : RoundsRun}, P g → r.rounds limit g = .ok run → P run.graph
  | 0, g, run, hg, hok => by
    obtain rfl := Except.ok.inj hok
    exact hg
  | limit + 1, g, run, hg, hok => by
    rw [rounds] at hok
    obtain ⟨sites, -, hok⟩ := bind_eq_ok_iff.1 hok
    split at hok
    · obtain rfl := Except.ok.inj hok
      exact hg
    · obtain ⟨⟨next, reduced⟩, hnext, hok⟩ := bind_eq_ok_iff.1 hok
      obtain ⟨rest, hrest, hok⟩ := bind_eq_ok_iff.1 hok
      obtain rfl := Except.ok.inj hok
      show P rest.graph
      exact keeps_rounds h (keeps_applyAll h hg hnext) hrest

/-- What one reduction keeps is kept by a run. -/
theorem keeps_run (h : ∀ {g n a g'}, P g → r.apply g n a = .ok g' → P g') {limit : Nat} {g : Graph}
    {run : RoundsRun} (hg : P g) (hok : r.run limit g = .ok run) : P run.graph := by
  rw [Reduction.run] at hok
  split at hok
  · cases hok
  · cases hok
  · split at hok
    · cases hok
    · obtain rfl := Except.ok.inj hok
      rename_i hrounds
      exact keeps_rounds h hg hrounds

end Reduction

namespace Graph

variable {P : Graph → Prop} {impure : OpSet}

/-- A sweep through a list of nodes erases some of them and does nothing else. -/
theorem keeps_eraseDead (h : ∀ {g n g'}, P g → g.erase n = .ok g' → P g') :
    ∀ {ns : List NodeId} {g g' : Graph} {count : Nat}, P g →
      g.eraseDead impure ns = .ok (count, g') → P g'
  | [], g, g', count, hg, hok => by
    obtain rfl : g = g' := congrArg Prod.snd (Except.ok.inj hok)
    exact hg
  | n :: ns, g, g', count, hg, hok => by
    rw [eraseDead] at hok
    split at hok
    · obtain ⟨next, hnext, hok⟩ := bind_eq_ok_iff.1 hok
      obtain ⟨⟨rest, last⟩, hlast, hok⟩ := bind_eq_ok_iff.1 hok
      obtain rfl : last = g' := congrArg Prod.snd (Except.ok.inj hok)
      exact keeps_eraseDead h (h hg hnext) hlast
    · exact keeps_eraseDead h hg hok

/-- So do the sweeps of a pass. -/
theorem keeps_sweeps (h : ∀ {g n g'}, P g → g.erase n = .ok g' → P g') :
    ∀ {limit : Nat} {g g' : Graph} {report : SweepReport}, P g →
      sweeps impure limit g = .ok (report, g') → P g'
  | 0, g, g', report, hg, hok => by
    obtain rfl : g = g' := congrArg Prod.snd (Except.ok.inj hok)
    exact hg
  | limit + 1, g, g', report, hg, hok => by
    rw [sweeps] at hok
    obtain ⟨⟨removed, g₁⟩, h₁, hok⟩ := bind_eq_ok_iff.1 hok
    obtain ⟨tree, -, h₁⟩ := bind_eq_ok_iff.1 h₁
    rw [sweepArms_eq] at h₁
    have hg₁ := keeps_eraseDead h hg h₁
    dsimp only at hok
    split at hok
    · obtain rfl : g₁ = g' := congrArg Prod.snd (Except.ok.inj hok)
      exact hg₁
    · obtain ⟨⟨rest, g₂⟩, h₂, hok⟩ := bind_eq_ok_iff.1 hok
      obtain rfl : g₂ = g' := congrArg Prod.snd (Except.ok.inj hok)
      exact keeps_sweeps h hg₁ h₂

/-- What the erasure of one node keeps is kept by sweeps. -/
theorem keeps_sweepDeadCode (h : ∀ {g n g'}, P g → g.erase n = .ok g' → P g') {limit : Nat}
    {g g' : Graph} {report : SweepReport} (hg : P g)
    (hok : g.sweepDeadCode impure limit = .ok (report, g')) : P g' :=
  keeps_sweeps h hg hok

section Runs

variable (herase : ∀ {g n g'}, P g → g.erase n = .ok g' → P g')
  (hhoist : ∀ {g n arm g'}, P g → g.hoist n arm = .ok g' → P g')

include herase hhoist

/-- Every pass consists of reductions or of sweeps. -/
theorem keeps_applyRun (r : PassRun) {g g' : Graph} (hg : P g) (hok : r.apply g = .ok g') : P g' := by
  cases r with
  | guardRemoval limit =>
    obtain ⟨run, hrun, rfl⟩ := map_eq_ok_iff.1 hok
    exact Reduction.keeps_run (P := P) (fun hg hstep => herase hg hstep) hg hrun
  | hoisting ops limit =>
    obtain ⟨run, hrun, rfl⟩ := map_eq_ok_iff.1 hok
    exact Reduction.keeps_run (P := P) (fun hg hstep => hhoist hg hstep) hg hrun
  | sweeping impure limit =>
    rw [PassRun.apply] at hok
    split at hok
    · cases hok
    · rename_i report after hsweep
      obtain rfl := Except.ok.inj hok
      exact keeps_sweepDeadCode herase hg hsweep

/-- What the erasure of one node and one hoisting keep is kept by any sequence of runs. -/
theorem keeps_applyRuns {runs : List PassRun} {g g' : Graph} (hg : P g)
    (hok : g.applyRuns runs = .ok g') : P g' :=
  foldlM_keeps (fun hg hrun => keeps_applyRun herase hhoist _ hg hrun) hg hok

end Runs

/-! ### What hoisting is made of -/

/-- Uses are replaced slot by slot, in the chains and by the holder of the slot. -/
theorem keeps_replaceUses (huses : ∀ {g : Graph} (uses : UseTable), P g → P { g with uses })
    (hhold : ∀ {g : Graph} (values : List ValueId) (holder : Holder), P g → P (g.hold values holder))
    {g g' : Graph} {old new : ValueId} (hg : P g) (hok : g.replaceUses old new = .ok g') : P g' := by
  rw [replaceUses] at hok
  split at hok
  · exact Except.ok.inj hok ▸ hg
  · refine foldlM_keeps (P := P) (fun {h slot h'} hh hstep => ?_) (huses _ hg) hok
    obtain ⟨values, -, hstep⟩ := bind_eq_ok_iff.1 hstep
    split at hstep
    · cases hstep
    split at hstep
    · exact Except.ok.inj hstep ▸ hhold _ _ (huses _ hh)
    · cases hstep

/-- Outputs are replaced one by one. -/
theorem keeps_replaceOutputs
    (h : ∀ {g g' : Graph} {old new : ValueId}, P g → g.replaceUses old new = .ok g' → P g')
    {n : NodeId} : ∀ {values : List ValueId} {g g' : Graph} {position : Nat}, P g →
    g.replaceOutputs n position values = .ok g' → P g'
  | [], g, g', position, hg, hok => Except.ok.inj hok ▸ hg
  | v :: values, g, g', position, hg, hok => by
    rw [replaceOutputs] at hok
    obtain ⟨old, -, hok⟩ := bind_eq_ok_iff.1 hok
    obtain ⟨g₁, h₁, hok⟩ := bind_eq_ok_iff.1 hok
    exact keeps_replaceOutputs h (h hg h₁) hok

/-- A property that the steps of hoisting keep. -/
structure KeptByHoisting (P : List BlockId → Graph → Prop) : Prop extends KeptByCopying P where
  insertNew : ∀ {bs : List BlockId} {g g' : Graph} {anchor : NodeId} (spec : NodeSpec),
    P (spec.blocks ++ bs) g → (g.allocNode spec).2.insertBefore anchor ⟨g.nodes.size⟩ = .ok g' → P bs g'
  withUses : ∀ {bs : List BlockId} {g : Graph} (uses : UseTable), P bs g → P bs { g with uses }
  hold : ∀ {bs : List BlockId} {g : Graph} (values : List ValueId) (holder : Holder), P bs g →
    P bs (g.hold values holder)
  erasing : ∀ bs : List BlockId, KeptByErasing (P bs)

namespace KeptByHoisting

variable {P : List BlockId → Graph → Prop}

theorem copyBefore (k : KeptByHoisting P) {anchor : NodeId} (bs : List BlockId) : ∀ {body : NodeTrees}
    {c c' : Copying}, P bs c.graph → Graph.copyBefore anchor c body = .ok c' → P bs c'.graph
  | .done, c, c', h, hok => Except.ok.inj hok ▸ h
  | .node _ arms rest, c, c', h, hok => by
    rw [Graph.copyBefore] at hok
    obtain ⟨g₁, h₁, hok⟩ := bind_eq_ok_iff.1 hok
    exact k.copyBefore bs (c := ⟨g₁, _⟩) (k.insertNew _ (k.copyArms arms bs h) h₁) hok

/-- A hoist copies the arm in front of the conditional, replaces its outputs and erases it. -/
theorem hoist (k : KeptByHoisting P) (bs : List BlockId) {g g' : Graph} {n : NodeId} {arm : BlockId}
    (h : P bs g) (hok : g.hoist n arm = .ok g') : P bs g' := by
  rw [Graph.hoist] at hok
  obtain ⟨tree, -, hok⟩ := bind_eq_ok_iff.1 hok
  obtain ⟨c, hcopy, hok⟩ := bind_eq_ok_iff.1 hok
  obtain ⟨g₁, hreplace, hok⟩ := bind_eq_ok_iff.1 hok
  have hcopied := k.copyBefore bs (c := ⟨g, .empty⟩) h hcopy
  have hreplaced := keeps_replaceOutputs (P := P bs)
    (fun hg hstep => keeps_replaceUses k.withUses k.hold hg hstep) hcopied hreplace
  exact (k.erasing bs).erase hreplaced hok

end KeptByHoisting

/-! ### Passes are made of basic edits -/

variable {g₀ g g' : Graph}

theorem EditedTo.erase (h : g₀.EditedTo g) {n : NodeId} (hok : g.erase n = .ok g') : g₀.EditedTo g' :=
  Relation.ReflTransGen.trans h (editedTo_erase hok)

section Hoist

variable (hc : g₀.Consistent) (hm : g₀.Mirrored)

include hc hm

theorem EditedTo.copyBefore {anchor : NodeId} : ∀ {body : NodeTrees} {c c' : Copying},
    g₀.EditedTo c.graph → copyBefore anchor c body = .ok c' → g₀.EditedTo c'.graph
  | .done, c, c', h, hok => Except.ok.inj hok ▸ h
  | .node head arms rest, c, c', h, hok => by
    rw [Graph.copyBefore] at hok
    obtain ⟨g₁, h₁, hok⟩ := bind_eq_ok_iff.1 hok
    have hpos := (Consistent.of_editedTo h hc hm).1.blocks_pos
    have hcopied := Copying.copyNode_edited h hpos head arms
    exact EditedTo.copyBefore (c := ⟨g₁, _⟩) (hcopied.edit (.insertBefore anchor _) trivial h₁) hok

/-- All three parts of a hoist are made of basic edits. -/
theorem EditedTo.hoist {n : NodeId} {arm : BlockId} (h : g₀.EditedTo g)
    (hok : g.hoist n arm = .ok g') : g₀.EditedTo g' := by
  rw [Graph.hoist] at hok
  obtain ⟨tree, -, hok⟩ := bind_eq_ok_iff.1 hok
  obtain ⟨c, hcopy, hok⟩ := bind_eq_ok_iff.1 hok
  obtain ⟨g₁, hreplace, hok⟩ := bind_eq_ok_iff.1 hok
  have hcopied := EditedTo.copyBefore hc hm (c := ⟨g, .empty⟩) h hcopy
  have hreplaced := keeps_replaceOutputs (P := g₀.EditedTo)
    (fun hg hstep => hg.edit (.replaceUses _ _) trivial hstep) hcopied hreplace
  exact hreplaced.erase hok

/-- Every sequence of runs is made of basic edits. -/
theorem EditedTo.applyRuns {runs : List PassRun} {g : Graph} (h : g₀.EditedTo g)
    (hok : g.applyRuns runs = .ok g') : g₀.EditedTo g' :=
  keeps_applyRuns (P := g₀.EditedTo) (fun hg hstep => EditedTo.erase hg hstep)
    (fun hg hstep => EditedTo.hoist hc hm hg hstep) h hok

end Hoist

/-- There is always an answer to whether arities match. -/
theorem Represents.firstMismatch_ok {t : BlockTree} (h : g.Represents t) :
    ∃ mismatch, g.firstMismatch = .ok mismatch := by
  rw [firstMismatch, h.walk_eq, ok_bind]
  exact ⟨_, rfl⟩

/-- Passes leave a graph that was read with a well-formed tree. -/
theorem represents_of_runs {source : String} {runs : List PassRun} (hread : Graph.ofText source = .ok g₀)
    (hruns : g₀.applyRuns runs = .ok g) :
    ∃ t, g.Represents t ∧ t.toArms.WellFormed [] ∧ t.toArms.Shaped := by
  obtain ⟨t₀, hg₀, hwf₀, hshape₀⟩ := ofText_represents hread
  have hkept : KeptByPasses (fun _ => True) fun _ t => t.toArms.Shaped := KeptByPasses.shaped
  obtain ⟨t, hg, hwf, hshape, -⟩ := hkept.of_runs (fun r _ => by cases r <;> trivial)
    ⟨hg₀, hwf₀, hshape₀, hshape₀⟩ hruns
  exact ⟨t, hg, hwf, hshape⟩

/-- Passes go through on a graph that was read, if its arms return what they should, and leave a graph
whose arms do. -/
theorem balanced_of_runs {source : String} (hread : Graph.ofText source = .ok g₀)
    (harity : g₀.firstMismatch = .ok none) (runs : List PassRun) :
    ∃ g t, g₀.applyRuns runs = .ok g ∧ Holds (fun _ t => t.toArms.Balanced) g t := by
  obtain ⟨t₀, hg₀, hwf₀, hshape₀⟩ := ofText_represents hread
  have hkept : KeptByPasses (fun _ => True) fun _ t => t.toArms.Balanced := KeptByPasses.balanced
  have hholds : Holds (fun _ t => t.toArms.Balanced) g₀ t₀ :=
    ⟨hg₀, hwf₀, hshape₀, (hg₀.firstMismatch_eq_ok_none_iff hshape₀).1 harity⟩
  have hruns : ∀ r ∈ runs, r.Sweeps fun _ => True := fun r _ => by
    cases r <;> trivial
  obtain ⟨g, hok⟩ := hkept.runs_ok runs hruns hholds harity
  obtain ⟨t, h⟩ := hkept.of_runs hruns hholds hok
  exact ⟨g, t, hok, h⟩

/-- All tables agree after passes over a graph that was read. -/
theorem consistent_of_runs {source : String} {runs : List PassRun} (hread : Graph.ofText source = .ok g₀)
    (hruns : g₀.applyRuns runs = .ok g) : g.Consistent := by
  have hedited := EditedTo.applyRuns consistent_empty mirrored_empty (editedTo_ofText hread) hruns
  exact (Consistent.of_editedTo hedited consistent_empty mirrored_empty).1

end Graph

/-! ### Lowering -/

namespace Config

open Unguard.Graph

variable (config : Config) {g : Graph} {t : BlockTree}

/-- A graph that represents a tree in which arms return what they should. -/
theorem check_of_holds (h : Holds (fun _ t => t.toArms.Balanced) g t) : g.check = .ok ⟨[]⟩ := by
  obtain ⟨hg, hwf, hshape, hbal⟩ := h
  exact hg.check_eq_nil_iff.2 ⟨hshape, hbal, hwf.scope⟩

/-- In a balanced tree no arity is wrong. -/
theorem firstMismatch_of_holds (h : Holds (fun _ t => t.toArms.Balanced) g t) :
    g.firstMismatch = .ok none :=
  (h.1.firstMismatch_eq_ok_none_iff h.2.2.1).2 h.2.2.2

/-- A reduction goes through and leaves the tree balanced. -/
theorem reduce_ok (pass : Pass) (h : Holds (fun _ t => t.toArms.Balanced) g t) :
    ∃ run t', config.reduce pass g = .ok run ∧ Holds (fun _ t => t.toArms.Balanced) run.graph t' := by
  have hkept : KeptByPasses (fun _ => True) fun _ t => t.toArms.Balanced := KeptByPasses.balanced
  have harity := firstMismatch_of_holds h
  cases pass with
  | guardRaise =>
    obtain ⟨run, t', hrun, h', -⟩ := hkept.guardRemoval_ok config.passLimit h harity
    exact ⟨run, t', hrun, h'⟩
  | promote =>
    obtain ⟨run, t', hrun, h', -⟩ := hkept.hoisting_ok config.promotable config.passLimit h harity
    exact ⟨run, t', hrun, h'⟩

/-- So does a sweep. -/
theorem sweep_ok (h : Holds (fun _ t => t.toArms.Balanced) g t) :
    ∃ report after t', config.sweep g = .ok (report, after) ∧
      Holds (fun _ t => t.toArms.Balanced) after t' := by
  have hkept : KeptByPasses (fun _ => True) fun _ t => t.toArms.Balanced := KeptByPasses.balanced
  rw [Config.sweep]
  split
  · obtain ⟨report, after, t', hsweep, h'⟩ := (hkept.dead trivial).sweepDeadCode_ok config.sweepLimit h
    refine ⟨some report, after, t', ?_, h'⟩
    rw [hsweep]
    rfl
  · exact ⟨none, g, t, rfl, h⟩

/-- The check between passes finds nothing. -/
theorem verify_ok (h : Holds (fun _ t => t.toArms.Balanced) g t) : config.verify g = .ok ⟨[]⟩ := by
  rw [Config.verify]
  split
  · exact check_of_holds h
  · rfl

/-- Passes go through, if the arms of conditionals return what they should. -/
theorem runPasses_ok : ∀ (passes : List Pass) {g : Graph} {t : BlockTree},
    Holds (fun _ t => t.toArms.Balanced) g t →
    ∃ run stages, config.runPasses passes g = .ok run ∧ run.outcome = .ok stages
  | [], g, _, _ => ⟨⟨g, [], .ok []⟩, [], rfl, rfl⟩
  | pass :: passes, g, t, h => by
    obtain ⟨rounds, t₁, hrounds, h₁⟩ := reduce_ok config pass h
    obtain ⟨report, after, t₂, hsweep, h₂⟩ := sweep_ok config h₁
    obtain ⟨rest, stages, hrest, hstages⟩ := runPasses_ok passes h₂
    obtain ⟨run, hrun, -, hout⟩ := runPasses_cons_ok hrounds hsweep (verify_ok config h₂) hrest hstages
    exact ⟨run, _, hrun, hout⟩

/-- Passes that are scheduled refuse a graph in which an arm returns the wrong number of values. -/
theorem runPasses_mismatch (pass : Pass) (passes : List Pass) {mismatch : ArmMismatch}
    (h : g.firstMismatch = .ok (some mismatch)) : ∃ run,
    config.runPasses (pass :: passes) g = .ok run ∧ run.outcome = .error (.arity mismatch) ∧
      run.graph = g := by
  have hreduce : config.reduce pass g = .error (.mismatch mismatch) := by
    cases pass <;> simp only [Config.reduce, Reduction.run, h]
  rw [runPasses, hreduce]
  exact ⟨_, rfl, rfl, rfl⟩

/-- **Passes keep graphs valid and never fault.**  A graph that was read is made by basic edits, whose
preconditions are all met.  If the arms of its conditionals return what they should, then passes run on
it in any order, with any settings, go through; they too are made of basic edits, and the graph passes
all checks afterwards.  Consequently lowering a text ends without a fault: either the text cannot be
read, or an arm returns the wrong number of values, or the lowering succeeds. -/
theorem lowerText_safe :
    (∀ source g, Graph.ofText source = .ok g → Graph.empty.EditedTo g ∧
      (g.firstMismatch = .ok none → ∀ runs, ∃ g', g.applyRuns runs = .ok g' ∧ g.EditedTo g' ∧
        g'.check = .ok ⟨[]⟩)) ∧
    ∀ (source : String) (config : Config), ∃ lowering, config.lowerText source = .ok lowering ∧
      ((∃ error, Graph.ofText source = .error error ∧ lowering.outcome = .error (.text error)) ∨
        (∃ mismatch, lowering.outcome = .error (.arity mismatch)) ∨
        ∃ lowered, lowering.outcome = .ok lowered) := by
  constructor
  · intro source g hread
    -- Building is made of edits, and so are the passes after it.
    have hmade := Graph.editedTo_ofText hread
    refine ⟨hmade, fun harity runs => ?_⟩
    obtain ⟨t, hg, hwf, hshape⟩ := Graph.ofText_represents hread
    have hkept : KeptByPasses (fun _ => True) fun _ t => t.toArms.Balanced := KeptByPasses.balanced
    have hholds : Holds (fun _ t => t.toArms.Balanced) g t :=
      ⟨hg, hwf, hshape, (hg.firstMismatch_eq_ok_none_iff hshape).1 harity⟩
    have hruns : ∀ r ∈ runs, r.Sweeps fun _ => True := fun r _ => by
      cases r <;> trivial
    obtain ⟨g', hok⟩ := hkept.runs_ok runs hruns hholds harity
    obtain ⟨t', h'⟩ := hkept.of_runs hruns hholds hok
    obtain ⟨hc, hm⟩ := Consistent.of_editedTo hmade consistent_empty mirrored_empty
    exact ⟨g', hok, EditedTo.applyRuns hc hm (EditedTo.refl g) hok, check_of_holds h'⟩
  · intro source config
    rw [lowerText]
    cases hread : Graph.ofText source with
    | error error => exact ⟨_, rfl, Or.inl ⟨error, rfl, rfl⟩⟩
    | ok g =>
      obtain ⟨t, hg, hwf, hshape⟩ := Graph.ofText_represents hread
      -- What comes out is settled by the arities of the graph that is read.
      obtain ⟨found, harity⟩ := hg.firstMismatch_ok
      dsimp only
      rw [Config.run]
      cases found with
      | none =>
        have hbal := (hg.firstMismatch_eq_ok_none_iff hshape).1 harity
        obtain ⟨run, stages, hrun, hout⟩ := runPasses_ok config config.passes
          ⟨hg, hwf, hshape, hbal⟩
        rw [hrun]
        exact ⟨_, rfl, Or.inr (Or.inr ⟨⟨run.graph, stages⟩, map_eq_ok_iff.2 ⟨stages, hout, rfl⟩⟩)⟩
      | some mismatch =>
        cases config.passes with
        | nil =>
          -- Nothing looks at arities if no pass is made.
          exact ⟨_, rfl, Or.inr (Or.inr ⟨⟨g, []⟩, rfl⟩)⟩
        | cons pass passes =>
          obtain ⟨run, hrun, hout, -⟩ := runPasses_mismatch config pass passes harity
          rw [hrun]
          refine ⟨_, rfl, Or.inr (Or.inl ⟨mismatch, ?_⟩)⟩
          show run.outcome.map _ = _
          rw [hout]
          rfl

theorem lowerText_safe_loggedComputation : ∃ (g g' : Graph) (edits : List Edit),
    Graph.ofText loggedComputation = .ok g ∧ g.firstMismatch = .ok none ∧
    g.applyRuns [.guardRemoval 0, .hoisting (.ofList [⟨"aten", "f"⟩]) 1, .sweeping .empty 0] = .ok g' ∧
    g'.check = .ok ⟨[]⟩ ∧ (∀ e ∈ edits, e.IsBasic) ∧ edits.foldlM Edit.apply g = .ok g' := by
  have harity : (Graph.ofText loggedComputation).toOption.map (fun g => g.firstMismatch.toOption) =
      some (some none) := by decide +kernel
  simp only [Option.map_eq_some_iff, toOption_eq_some_iff] at harity
  obtain ⟨g, hread, harity⟩ := harity
  obtain ⟨g', hok, hedited, hcheck⟩ := (lowerText_safe.1 loggedComputation g hread).2 harity
    [.guardRemoval 0, .hoisting (.ofList [⟨"aten", "f"⟩]) 1, .sweeping .empty 0]
  obtain ⟨edits, hbasic, hedits⟩ := hedited.exists_edits
  exact ⟨g, g', edits, hread, harity, hok, hcheck, hbasic, hedits⟩

end Config

end Unguard
