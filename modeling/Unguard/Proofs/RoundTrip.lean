import Unguard.Proofs.Printable

/-!
# Printing is undone by reading

The text of a graph is read back as the same graph, up to the numbers of its values (`ofText_text`).
This takes floats that are finite: the text of any other one is not a text of the grammar.

The two directions meet in the draft.  What is read from the text is the draft that was written, places
in the text apart.  It can be built, since a well-formed tree looks like it; and what is built looks
like it as well, under the names by place.  Trees that look the same are the same.
-/

namespace Unguard

open Text

/-! ### Floats -/

mutual

/-- The floats in an attribute. -/
def Attribute.floats : Attribute → List UInt64
  | .float bits => [bits]
  | .list items => Attribute.allFloats items
  | .unit | .bool _ | .int _ | .string _ | .type _ => []

@[inherit_doc Attribute.floats]
def Attribute.allFloats : List Attribute → List UInt64
  | [] => []
  | item :: items => item.floats ++ Attribute.allFloats items

end

/-- The floats in the attributes of the node are finite. -/
def NodeView.Finite (x : NodeView) : Prop :=
  ∀ e ∈ x.attributes.toList, ∀ bits ∈ e.2.floats, Binary64.IsFinite bits

instance (bits : UInt64) : Decidable (Binary64.IsFinite bits) :=
  inferInstanceAs (Decidable (_ < _))

-- Through `List.all`: the floats are looked through one by one, whatever else may decide the statement.
instance (x : NodeView) : Decidable x.Finite :=
  decidable_of_iff (x.attributes.toList.all fun e => e.2.floats.all fun bits =>
    decide (Binary64.IsFinite bits)) (by simp [NodeView.Finite])

mutual

theorem floats_outlineAttribute {t : TypeTable} : ∀ {a : Attribute} {l : Literal},
    outlineAttribute t a = .ok l → l.floats = a.floats
  | .unit, _, h | .bool _, _, h | .int _, _, h | .float _, _, h | .string _, _, h => by
    obtain rfl := Except.ok.inj h
    rfl
  | .type _, _, h => by
    obtain ⟨tree, -, h⟩ := bind_eq_ok_iff.1 h
    obtain rfl := Except.ok.inj h
    rfl
  | .list items, _, h => by
    obtain ⟨ls, hls, h⟩ := bind_eq_ok_iff.1 h
    obtain rfl := Except.ok.inj h
    exact floats_outlineAttributes hls

theorem floats_outlineAttributes {t : TypeTable} : ∀ {as : List Attribute} {ls : List Literal},
    outlineAttributes t as = .ok ls → Literal.allFloats ls = Attribute.allFloats as
  | [], _, h => by
    obtain rfl := Except.ok.inj h
    rfl
  | a :: as, _, h => by
    obtain ⟨first, hfirst, h⟩ := bind_eq_ok_iff.1 h
    obtain ⟨rest, hrest, h⟩ := bind_eq_ok_iff.1 h
    obtain rfl := Except.ok.inj h
    rw [Literal.allFloats, Attribute.allFloats, floats_outlineAttribute hfirst,
      floats_outlineAttributes hrest]

end

/-- A draft has the floats of the node that it is the draft of. -/
theorem finite_iff_of_outlineNode {g : Graph} {order : List ValueId} {x : NodeView} {d : NodeDraft}
    (h : outlineNode g order x = .ok d) : d.Finite ↔ x.Finite := by
  obtain ⟨hwritten, hascending⟩ := Graph.nodeWritten_of_outlineNode h
  have hpairs := traverse_eq_ok_iff.1 (hwritten.toList_attributes hascending)
  constructor
  · intro hd e he
    obtain ⟨l, hl, hel⟩ := exists_of_forall₂_left hpairs he
    rw [← floats_outlineAttribute (writtenEntry_eq_ok_iff.1 hel).1]
    exact hd l hl
  · intro hx l hl
    obtain ⟨e, he, hel⟩ := exists_of_forall₂ hpairs hl
    rw [Literal.Finite, floats_outlineAttribute (writtenEntry_eq_ok_iff.1 hel).1]
    exact hx e he

/-! ### Reading a text back -/

/-- A permutation that takes one list to another. -/
theorem exists_perm_map {ι : Type} [DecidableEq ι] {xs ys : List ι} (hlength : xs.length = ys.length)
    (hxs : xs.Nodup) (hys : ys.Nodup) : ∃ π : Equiv.Perm ι, xs.map π = ys := by
  induction xs generalizing ys with
  | nil => exact ⟨1, (List.eq_nil_of_length_eq_zero hlength.symm).symm⟩
  | cons x xs ih =>
    obtain ⟨y, ys, rfl⟩ := List.exists_cons_of_length_eq_add_one hlength.symm
    rw [List.nodup_cons] at hxs hys
    obtain ⟨π, hπ⟩ := ih (Nat.succ.inj hlength) hxs.2 hys.2
    refine ⟨Equiv.swap (π x) y * π, ?_⟩
    rw [List.map_cons, Equiv.Perm.mul_apply, Equiv.swap_apply_left]
    refine congrArg (y :: ·) ((List.map_congr_left fun z hz => ?_).trans hπ)
    -- The swap leaves the others alone: they go to `ys`, and `x` is not one of them.
    have hy : π z ≠ y := fun h => hys.1 (hπ ▸ h ▸ List.mem_map_of_mem hz)
    have hx : π z ≠ π x := fun h => hxs.1 (π.injective h ▸ hz)
    rw [Equiv.Perm.mul_apply, Equiv.swap_apply_of_ne_of_ne hx hy]

namespace Graph

/-- What is built from the draft of a tree, wherever its names stand in a text, is the same tree. -/
theorem exists_build {g : Graph} {t : BlockTree} {draft draft' : GraphDraft}
    (hwf : t.toArms.WellFormed []) (hraise : ∀ x ∈ t.toArms.nodes, x.kind = .raise → x.outputs = [])
    (hdraft : outlineGraph g t.definitions t = .ok draft) (hbare : draft'.bare = draft.bare) :
    ∃ (g' : Graph) (t' : BlockTree) (σ : Equiv.Perm ValueId), draft'.build = .ok g' ∧
      g'.Represents t' ∧ g.SameTree g' σ t t' ∧ outlineGraph g' t'.definitions t' = .ok draft := by
  rw [t.definitions_eq] at hdraft
  obtain ⟨hwritten, hascending⟩ := treeWritten_of_outlineGraph hdraft
  have hself := outlineGraph_of_treeWritten hwritten hascending (outlineGraph_eq_ok_iff.1 hdraft).2
  have hwritten := hwritten.of_bare hbare
  have hascending := ascending_of_bare hascending hbare
  obtain ⟨g', hbuild⟩ := GraphDraft.build_ok hwritten hwf (placeName_injOn _) hraise
  obtain ⟨t', hg', hwf', hcount, hbuilt⟩ := GraphDraft.build_written hbuild
  have hnames := hwritten.names_eq
  have hlength : (BlockTrees.definitions t.toArms).length =
      (BlockTrees.definitions t'.toArms).length := by
    rw [hcount, ← hnames, List.length_map]
  -- Both trees name their values by the numbers from zero on.
  have hnames' : (BlockTrees.definitions t'.toArms).map
      (placeName (BlockTrees.definitions t'.toArms)) = ArmsDraft.names draft'.toArms := by
    rw [← hnames, map_placeName hwf.definitions, map_placeName hwf'.definitions, hlength]
  have hwritten' := hbuilt _ hnames'
  obtain ⟨σ, hσ⟩ := exists_perm_map hlength hwf.definitions hwf'.definitions
  have hrename : ∀ v ∈ BlockTrees.definitions t.toArms, σ v ∈ BlockTrees.definitions t'.toArms ∧
      placeName (BlockTrees.definitions t'.toArms) (σ v) =
        placeName (BlockTrees.definitions t.toArms) v := by
    intro v hv
    rw [← hσ]
    exact ⟨List.mem_map_of_mem hv, congrArg Mention.name (numbered_map _ v)⟩
  refine ⟨g', t', σ, hbuild, hg', ?_, ?_⟩
  · exact hwritten.sameTree hwritten' hascending hwf hwf' (placeName_injOn _) hrename
  · have hblock : draft'.block.params = [] := by
      have hparams := congrArg (fun d : GraphDraft => d.block.params) hbare
      rw [show draft.bare.block.params = [] from (outlineGraph_eq_ok_iff.1 hself).2] at hparams
      exact List.map_eq_nil_iff.1 hparams
    rw [t'.definitions_eq, outlineGraph_of_treeWritten hwritten' hascending hblock, hbare, ← hself,
      hdraft]

/-- The text of a printable graph with finite floats is read back. -/
theorem Printable.readsBack {g : Graph} {t : BlockTree} (h : Holds Printable g t)
    (hfinite : ∀ x ∈ t.toArms.nodes, x.Finite) :
    ∃ (text : String) (g' : Graph) (t' : BlockTree) (σ : Equiv.Perm ValueId), g.text = .ok text ∧
      Graph.ofText text = .ok g' ∧ g'.Represents t' ∧ g.SameTree g' σ t t' ∧ g'.text = .ok text := by
  obtain ⟨hg, hwf, hshape, hprintable⟩ := h
  obtain ⟨draft, hdraft, hnamed, hproper⟩ := hprintable.exists_draft hg hwf hshape
  obtain ⟨harms, hblock⟩ := outlineGraph_eq_ok_iff.1 hdraft
  have hdraftFinite : ∀ d ∈ draft.body.nodes, d.Finite := by
    intro d hd
    have hpairs := Arms.traverse_eq_ok_iff.1 harms
    obtain ⟨x, hx, hxd⟩ := exists_of_forall₂ hpairs.nodes (List.mem_append_left _ hd)
    exact (finite_iff_of_outlineNode hxd).2 (hfinite x hx)
  -- The text is read to a draft that differs from the printed one in its positions only, and that is
  -- built to the same tree.
  obtain ⟨draft', hread, hbare⟩ := GraphDraft.exists_ofText hnamed hblock hproper hdraftFinite
  obtain ⟨g', t', σ, hbuild, hg', hsame, hdraft'⟩ :=
    exists_build hwf (fun x hx => (hprintable.nodes x hx).raise) hdraft hbare
  have hofText : Graph.ofText draft.text = .ok g' := by
    rw [Graph.ofText, hread]
    exact hbuild
  obtain ⟨s, hs, -, hshape'⟩ := Graph.ofText_represents hofText
  obtain rfl := hg'.unique hs
  refine ⟨draft.text, g', s, σ, ?_, hofText, hg', hsame, ?_⟩
  · rw [hg.text_eq hshape, textOf, hdraft]
    rfl
  · rw [hg'.text_eq hshape', textOf, hdraft']
    rfl

/-- **Printing is undone by reading.**  If a graph was read from a text and then went through any
sequence of passes, and its floats are finite, its text is read back.  The tree that is read has the
same blocks and nodes with the same kinds, attributes, types, inputs and returned values, up to the
numbers of values, and its text is the same. -/
theorem ofText_text (source : String) (g₀ g : Graph) (runs : List PassRun) (t : BlockTree)
    (hread : Graph.ofText source = .ok g₀) (hruns : g₀.applyRuns runs = .ok g)
    (htree : g.tree = .ok t) (hfinite : ∀ x ∈ t.toArms.nodes, x.Finite) :
    ∃ (text : String) (g' : Graph) (t' : BlockTree) (σ : Equiv.Perm ValueId), g.text = .ok text ∧
      Graph.ofText text = .ok g' ∧ g'.tree = .ok t' ∧ g.SameTree g' σ t t' ∧ g'.text = .ok text := by
  obtain ⟨t₀, hholds⟩ := printable_ofText hread
  have hkept : KeptByPasses (fun _ => True) Printable := keptByPasses_printable
  obtain ⟨t₁, hholds₁⟩ := hkept.of_runs (fun r _ => by cases r <;> trivial) hholds hruns
  obtain rfl := Except.ok.inj (htree.symm.trans hholds₁.1.tree_eq)
  obtain ⟨text, g', t', σ, htext, hofText, hg', hsame, htext'⟩ := Printable.readsBack hholds₁ hfinite
  exact ⟨text, g', t', σ, htext, hofText, hg'.tree_eq, hsame, htext'⟩

/-- A guard, a guarded computation with attributes, and a dead node. -/
def attributedComputation : String :=
  "graph(%c: core.bool, %x: core.t(core.i64)) \x7b if(%c) \x7b\x7d else \x7b raise() \x7d " ++
    "%y = if(%c) : core.t \x7b %u = aten.f(%x) \x7bt = core.t(core.u), s = [\"a\\nb\", 0.1, -3]\x7d " ++
    ": core.t return %u \x7d else \x7b raise() return %x \x7d %d = aten.g(%y) : core.u return %y \x7d"

theorem ofText_text_attributedComputation :
    ∃ g₀ g t, Graph.ofText attributedComputation = .ok g₀ ∧
      g₀.applyRuns [.guardRemoval 10, .hoisting (.ofList [⟨"aten", "f"⟩]) 10, .sweeping .empty 10] =
        .ok g ∧
      g.tree = .ok t ∧ (∀ x ∈ t.toArms.nodes, x.Finite) ∧
      ∃ (text : String) (g' : Graph) (t' : BlockTree) (σ : Equiv.Perm ValueId), g.text = .ok text ∧
        Graph.ofText text = .ok g' ∧ g'.tree = .ok t' ∧ g.SameTree g' σ t t' ∧ g'.text = .ok text := by
  have hrun : (Graph.ofText attributedComputation).toOption.bind (fun g₀ =>
      (g₀.applyRuns [.guardRemoval 10, .hoisting (.ofList [⟨"aten", "f"⟩]) 10,
        .sweeping .empty 10]).toOption.bind fun g => g.tree.toOption.map fun t =>
          decide (∀ x ∈ t.toArms.nodes, x.Finite)) = some true := by
    decide +kernel
  simp only [Option.bind_eq_some_iff, Option.map_eq_some_iff, toOption_eq_some_iff,
    decide_eq_true_eq] at hrun
  obtain ⟨g₀, hread, g, hruns, t, htree, hfinite⟩ := hrun
  exact ⟨g₀, g, t, hread, hruns, htree, hfinite, ofText_text attributedComputation g₀ g _ t hread hruns
    htree hfinite⟩

end Graph

end Unguard
