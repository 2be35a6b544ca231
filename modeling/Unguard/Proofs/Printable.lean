import Unguard.Proofs.Passes
import Unguard.Proofs.Rebuilding

/-!
# Graphs that can be written and read

A graph is printable if its names are names of the grammar and its nodes have the form that the grammar
gives them (`Graph.Printable`).  A graph that was read is printable (`Graph.printable_ofText`), and
passes keep it so (`keptByPasses_printable`): they write no names of their own.

The draft of a printable graph follows the grammar (`Graph.Printable.exists_draft`).
-/

namespace Unguard

open Text

section Traverse

variable {ε α β : Type} {f : α → Except ε β} {P : β → Prop} {as : List α} {bs : List β}

theorem exists_of_traverse (h : traverse f as = .ok bs) {a : α} (ha : a ∈ as) :
    ∃ b ∈ bs, f a = .ok b :=
  exists_of_forall₂_left (traverse_eq_ok_iff.1 h) ha

theorem exists_traverse (h : ∀ a ∈ as, ∃ b, f a = .ok b ∧ P b) :
    ∃ bs, traverse f as = .ok bs ∧ ∀ b ∈ bs, P b := by
  obtain ⟨bs, hbs⟩ := traverse_ok_of_forall fun a ha => (h a ha).imp fun _ hb => hb.1
  refine ⟨bs, hbs, fun b hb => ?_⟩
  obtain ⟨a, ha, hab⟩ := exists_of_forall₂ (traverse_eq_ok_iff.1 hbs) hb
  obtain ⟨b', hab', hP⟩ := h a ha
  obtain rfl := Except.ok.inj (hab.symm.trans hab')
  exact hP

variable {ν β' ν' β'' : Type} {f : ν → Except ε ν'} {k : β' → Except ε β''} {P : ν' → Prop}
  {Q : β'' → Prop}

/-- A traversal succeeds if it does so at every node and every block. -/
theorem Arms.exists_traverse {arms : Arms ν β'} (hf : ∀ x ∈ arms.nodes, ∃ y, f x = .ok y ∧ P y)
    (hk : ∀ b ∈ arms.blocks, ∃ c, k b = .ok c ∧ Q c) :
    ∃ arms', arms.traverse f k = .ok arms' ∧ (∀ y ∈ arms'.nodes, P y) ∧ ∀ c ∈ arms'.blocks, Q c := by
  obtain ⟨arms', harms⟩ := Arms.traverse_ok_of_forall (fun x hx => (hf x hx).imp fun _ h => h.1)
    fun b hb => (hk b hb).imp fun _ h => h.1
  have hpairs := Arms.traverse_eq_ok_iff.1 harms
  refine ⟨arms', harms, fun y hy => ?_, fun c hc => ?_⟩
  · obtain ⟨x, hx, hxy⟩ := exists_of_forall₂ hpairs.nodes hy
    obtain ⟨y', hxy', hP⟩ := hf x hx
    obtain rfl := Except.ok.inj (hxy.symm.trans hxy')
    exact hP
  · obtain ⟨b, hb, hbc⟩ := exists_of_forall₂ hpairs.blocks hc
    obtain ⟨c', hbc', hQ⟩ := hk b hb
    obtain rfl := Except.ok.inj (hbc.symm.trans hbc')
    exact hQ

end Traverse

/-- Collecting attributes adds none. -/
theorem Attributes.mem_of_mem_ofList {es : List (String × Attribute)} {e : String × Attribute}
    (h : e ∈ (ofList es).toList) : e ∈ es := by
  have hfold : ∀ (es : List (String × Attribute)) (a : Attributes),
      e ∈ (es.foldl (fun a e => a.insert e.1 e.2) a).toList → e ∈ a.toList ∨ e ∈ es := by
    intro es
    induction es with
    | nil => exact fun a h => Or.inl h
    | cons e' es ih =>
      intro a h
      rcases ih _ h with h | h
      · rcases mem_insertInto h with rfl | h
        · exact Or.inr List.mem_cons_self
        · exact Or.inl h
      · exact Or.inr (List.mem_cons_of_mem _ h)
  exact (hfold es empty h).resolve_left List.not_mem_nil

/-! ### What can be written -/

/-- The names of the node are names of the grammar, and it has the form that the grammar gives it. -/
structure NodeView.Printable (t : TypeTable) (x : NodeView) : Prop where
  kind : Text.Kind.Named x.kind
  attributes : ∀ e ∈ x.attributes.toList, ∃ l, writtenEntry t e = .ok l ∧ IsName l.1 ∧ l.2.Named
  conditional : x.kind = .conditional → x.attributes.toList = []
  raise : x.kind = .raise → x.outputs = []

namespace Graph

/-- The names in the type of the value are names of the grammar. -/
def PrintableValue (g : Graph) (v : ValueId) : Prop :=
  ∃ ty, g.types.expand (g.labelOf v).ty = .ok ty ∧ ty.Writable

/-- What the tree holds and defines can be written. -/
structure Printable (g : Graph) (t : BlockTree) : Prop where
  nodes : ∀ x ∈ t.toArms.nodes, x.Printable g.types
  values : ∀ v ∈ BlockTrees.definitions t.toArms, g.PrintableValue v

theorem expand_labelOf {g : Graph} {v : ValueId} {ty : TypeTree} (h : g.typeOf v = .ok ty) :
    g.types.expand (g.labelOf v).ty = .ok ty := by
  obtain ⟨value, hvalue, -⟩ := bind_eq_ok_iff.1 h
  rw [← typeOf_eq (index_lt_of_value? _ ((value_eq_ok_iff g).1 hvalue))]
  exact h

/-! ### Graphs that were read -/

section Written

variable {g : Graph} {nm : ValueId → String}

/-- A node that was read can be written again. -/
theorem NodeWritten.printable {x : NodeView} {d : NodeDraft} (h : g.NodeWritten nm x d)
    (hd : d.Named) : x.Printable g.types := by
  obtain ⟨entries, hentries, hwritten⟩ := h.attributes
  refine ⟨h.kind ▸ hd.kind, fun e he => ?_, fun hkind => ?_, fun hkind => ?_⟩
  · rw [hentries] at he
    obtain ⟨l, hl, hel⟩ := exists_of_traverse hwritten (Attributes.mem_of_mem_ofList he)
    exact ⟨l, hel, hd.attributes l hl⟩
  · rw [hd.conditional (h.kind ▸ hkind), traverse_eq_ok_iff, List.forall₂_nil_right_iff] at hwritten
    rw [hentries, hwritten]
    rfl
  · have htypes := h.types
    rwa [hd.raise (h.kind ▸ hkind), traverse_eq_ok_iff, List.forall₂_nil_right_iff] at htypes

theorem printableValue_of_traverse {vs : List ValueId} {types : List TypeTree}
    (h : traverse g.typeOf vs = .ok types) (htypes : ∀ ty ∈ types, ty.Writable) {v : ValueId}
    (hv : v ∈ vs) : g.PrintableValue v := by
  obtain ⟨ty, hty, hvty⟩ := exists_of_traverse h hv
  exact ⟨ty, expand_labelOf hvty, htypes ty hty⟩

/-- So can a tree, because everything in the draft is named and typed. -/
theorem TreeWritten.printable {t : BlockTree} {draft : GraphDraft} (h : g.TreeWritten nm t draft)
    (hnamed : draft.Named) : g.Printable t := by
  have harms : ArmsDraft.Named draft.toArms :=
    ArmsDraft.named_arm.2 ⟨⟨hnamed.params, hnamed.returns⟩, hnamed.body, ArmsDraft.named_done⟩
  -- The tree and the draft have nodes and blocks in the same places.
  have hnodes : ∀ x ∈ t.toArms.nodes, ∃ d, g.NodeWritten nm x d ∧ d.Named := by
    intro x hx
    obtain ⟨d, hd, hwritten⟩ := exists_of_forall₂_left (Arms.Pairs.nodes h) hx
    exact ⟨d, hwritten, harms.nodes d hd⟩
  have hblocks : ∀ b ∈ t.toArms.blocks, ∃ d, g.BlockWritten nm b d ∧ d.Named := by
    intro b hb
    obtain ⟨d, hd, hwritten⟩ := exists_of_forall₂_left (Arms.Pairs.blocks h) hb
    exact ⟨d, hwritten, harms.blocks d hd⟩
  constructor
  · intro x hx
    obtain ⟨d, hwritten, hd⟩ := hnodes x hx
    exact hwritten.printable hd
  · intro v hv
    rw [BlockTrees.definitions_eq_collect, Arms.mem_collect] at hv
    rcases hv with ⟨x, hx, hv⟩ | ⟨b, hb, hv⟩
    · obtain ⟨d, hwritten, hd⟩ := hnodes x hx
      exact printableValue_of_traverse hwritten.types hd.types hv
    · obtain ⟨d, hwritten, hd⟩ := hblocks b hb
      refine printableValue_of_traverse hwritten.types (fun ty hty => ?_) hv
      obtain ⟨p, hp, rfl⟩ := List.mem_map.1 hty
      exact (hd.params p hp).2

end Written

/-- Distinct values can have any names. -/
theorem exists_names {vs : List ValueId} {names : List String} (hnodup : vs.Nodup)
    (hlength : vs.length = names.length) : ∃ nm : ValueId → String, vs.map nm = names := by
  refine ⟨fun v => names.getD (vs.idxOf v) "", List.ext_getElem (by simpa using hlength) ?_⟩
  intro i hi hi'
  rw [List.length_map] at hi
  rw [List.getElem_map, hnodup.idxOf_getElem i hi]
  simp [hi']

/-- A graph that was read can be printed. -/
theorem printable_ofText {source : String} {g : Graph} (h : Graph.ofText source = .ok g) :
    ∃ t, Holds Printable g t := by
  obtain ⟨t, hg, hwf, hshape⟩ := Graph.ofText_represents h
  obtain ⟨draft, hdraft, hbuild⟩ := bind_eq_ok_iff.1 h
  obtain ⟨t', hg', hwf', hcount, hwritten⟩ := GraphDraft.build_written hbuild
  obtain rfl := hg.unique hg'
  obtain ⟨nm, hnm⟩ := exists_names hwf.definitions hcount
  exact ⟨t', hg, hwf, hshape, (hwritten nm hnm).printable (GraphDraft.named_of_ofText hdraft)⟩

/-! ### Passes -/

variable {g g' : Graph} {t : BlockTree}

/-- Taking out a node leaves a graph printable. -/
theorem Printable.replace_done (h : g.Printable t) {head : NodeView} {arms : BlockTrees}
    (hwf : t.toArms.WellFormed []) (hmem : (head, arms) ∈ t.toArms.subtrees)
    (hlabels : g'.values = g.values ∧ g'.types = g.types) :
    g'.Printable (t.replace head.id .done) := by
  have hsub : ∀ {γ : Type} (f : NodeView → List γ) (k : BlockView → List γ),
      (t.replace head.id .done).toArms.collect f k ⊆ t.toArms.collect f k := fun f k =>
    fun x hx => (Arms.collect_perm f k hwf.ids hmem).symm.subset (List.mem_append_right _ hx)
  constructor
  · intro x hx
    rw [Arms.nodes_eq_collect] at hx
    rw [hlabels.2]
    exact h.nodes x (Arms.nodes_eq_collect _ ▸ hsub _ _ hx)
  · intro v hv
    rw [BlockTrees.definitions_eq_collect] at hv
    obtain ⟨ty, hty, hwritable⟩ := h.values v (BlockTrees.definitions_eq_collect _ ▸ hsub _ _ hv)
    refine ⟨ty, ?_, hwritable⟩
    rw [labelOf, value?, hlabels.1, hlabels.2]
    exact hty

/-- A hoist leaves a graph printable: the copy has the labels and the attributes of the arm. -/
theorem Printable.hoisted {head : NodeView} {arms : BlockTrees} {m : BlockTree} {π : Relabeling}
    (h : g.Printable t) (hg : g.Represents t) (hwf : t.toArms.WellFormed [])
    (hh : Hoistable t head arms m) (hmoved : Hoisted g t head m π g') :
    g'.Printable ((t.hoisted head m).relabel π) := by
  -- Whatever is found in the hoisted tree was in the tree before.
  have hsub : ∀ {γ : Type} (f : NodeView → List γ) (k : BlockView → List γ),
      (t.toArms.replace head.id m.body).collect f k ⊆ t.toArms.collect f k := fun f k =>
    (hh.collect_subperm f k hwf.ids).subset
  constructor
  · intro x hx
    rw [BlockTree.toArms_relabel, Arms.relabel, Arms.rename, Arms.nodes_map, BlockTree.hoisted,
      BlockTree.toArms_subst, Arms.subst, Arms.nodes_map, BlockTree.toArms_replace, List.mem_map] at hx
    obtain ⟨_, hy, rfl⟩ := hx
    obtain ⟨x, hx, rfl⟩ := List.mem_map.1 hy
    rw [Arms.nodes_eq_collect] at hx
    obtain ⟨hkind, hattributes, hconditional, hraise⟩ :=
      h.nodes x (Arms.nodes_eq_collect t.toArms ▸ hsub _ _ hx)
    rw [hmoved.types]
    refine ⟨hkind, hattributes, hconditional, fun hk => ?_⟩
    show x.outputs.map π.values = []
    rw [hraise hk]
    rfl
  · intro v hv
    rw [BlockTree.toArms_relabel, Arms.relabel, Arms.definitions_rename, BlockTree.hoisted,
      BlockTree.toArms_subst, Arms.definitions_subst, BlockTree.toArms_replace] at hv
    obtain ⟨v, hin, rfl⟩ := List.mem_map.1 hv
    rw [BlockTrees.definitions_eq_collect] at hin
    have hold : v ∈ BlockTrees.definitions t.toArms := by
      rw [BlockTrees.definitions_eq_collect]
      exact hsub _ _ hin
    obtain ⟨ty, hty, hwritable⟩ := h.values v hold
    refine ⟨ty, ?_, hwritable⟩
    rw [hmoved.types, hmoved.label v (hg.defined v hold)]
    exact hty

end Graph

/-- Passes leave a graph printable. -/
theorem keptByPasses_printable {swept : OpSet → Prop} : KeptByPasses swept Graph.Printable where
  guard hwf hmem _ hlabels h := h.replace_done hwf hmem hlabels
  dead _ := ⟨fun hwf hmem _ hlabels h => h.replace_done hwf hmem hlabels⟩
  hoist hg hwf hh _ hmoved h := h.hoisted hg hwf hh hmoved

/-! ### Drafts of printable graphs -/

mutual

theorem Body.proper_of_allNodes : ∀ {body : NodeTrees},
    (body.AllNodes fun head blocks =>
      if head.kind = .conditional then blocks.length = 2 else blocks = []) → body.Proper NodeView.kind
  | .done, _ => trivial
  | .node head arms rest, h => by
    simp only [Body.AllNodes, Body.subtrees, List.forall_mem_cons, List.forall_mem_append] at h
    exact ⟨h.1, Arms.Shaped.proper h.2.1, Body.proper_of_allNodes h.2.2⟩

/-- In a tree of the right shape, conditionals have two arms and other nodes none. -/
theorem Arms.Shaped.proper : ∀ {arms : BlockTrees}, arms.Shaped → arms.Proper NodeView.kind
  | .done, _ => trivial
  | .arm head body rest, h => by
    simp only [Arms.Shaped, Arms.AllNodes, Arms.subtrees, List.forall_mem_append] at h
    exact ⟨Body.proper_of_allNodes h.1, Arms.Shaped.proper h.2⟩

end

theorem BlockTree.definitions_eq (t : BlockTree) :
    t.definitions = BlockTrees.definitions t.toArms := by
  rw [BlockTree.definitions, BlockTree.toArms, BlockTrees.definitions_arm, BlockTrees.definitions_done,
    List.append_nil]

namespace Graph

variable {g : Graph} {t : BlockTree} {order : List ValueId}

theorem forall_isValueName {vs : List ValueId} (h : vs ⊆ order) :
    ∀ m ∈ vs.map (numbered order), IsValueName m.name := by
  intro m hm
  obtain ⟨v, hv, rfl⟩ := List.mem_map.1 hm
  exact isValueName_placeName (h hv)

/-- A printable value in the table has a type that can be written. -/
theorem PrintableValue.typeOf {v : ValueId} (h : g.PrintableValue v) (hv : v.index < g.values.size) :
    ∃ ty, g.typeOf v = .ok ty ∧ ty.Writable := by
  rw [typeOf_eq hv]
  exact h

/-- A printable node whose values are all numbered can be outlined. -/
theorem exists_outlineNode {x : NodeView} (hx : x.Printable g.types) (hinputs : x.inputs ⊆ order)
    (houtputs : x.outputs ⊆ order) (htypes : ∀ v ∈ x.outputs, ∃ ty, g.typeOf v = .ok ty ∧ ty.Writable) :
    ∃ d, outlineNode g order x = .ok d ∧ d.Named := by
  obtain ⟨attributes, hattributes, hnames⟩ := exists_traverse hx.attributes
  obtain ⟨types, htypes, hwritable⟩ := exists_traverse htypes
  refine ⟨⟨x.outputs.map (numbered order), x.kind, x.inputs.map (numbered order), attributes, types⟩,
    ?_, hx.kind, forall_isValueName houtputs, forall_isValueName hinputs, hnames, hwritable, ?_, ?_⟩
  · exact bind_eq_ok_iff.2 ⟨attributes, hattributes, bind_eq_ok_iff.2 ⟨types, htypes, rfl⟩⟩
  · intro hkind
    rw [hx.conditional hkind] at hattributes
    exact (Except.ok.inj hattributes).symm
  · intro hkind
    rw [hx.raise hkind] at htypes
    exact (Except.ok.inj htypes).symm

/-- So can a block. -/
theorem exists_outlineBlock {b : BlockView} (hparams : b.params ⊆ order) (hreturns : b.returns ⊆ order)
    (htypes : ∀ v ∈ b.params, ∃ ty, g.typeOf v = .ok ty ∧ ty.Writable) :
    ∃ d, outlineBlock g order b = .ok d ∧ d.Named := by
  obtain ⟨params, hok, hnamed⟩ : ∃ params, outlineParams g order b.params = .ok params ∧
      ∀ p ∈ params, IsValueName p.1.name ∧ p.2.Writable := by
    refine exists_traverse fun v hv => ?_
    obtain ⟨ty, hty, hwritable⟩ := htypes v hv
    refine ⟨(numbered order v, ty), ?_, isValueName_placeName (hparams hv), hwritable⟩
    rw [hty]
    rfl
  refine ⟨⟨params, b.returns.map (numbered order)⟩, ?_, hnamed, forall_isValueName hreturns⟩
  exact bind_eq_ok_iff.2 ⟨params, hok, rfl⟩

/-- The draft of a printable graph follows the grammar. -/
theorem Printable.exists_draft (h : g.Printable t) (hg : g.Represents t)
    (hwf : t.toArms.WellFormed []) (hshape : t.toArms.Shaped) :
    ∃ draft, outlineGraph g t.definitions t = .ok draft ∧ draft.Named ∧
      draft.body.Proper NodeDraft.kind := by
  obtain ⟨hnodes, hblocks⟩ := hwf.subset_definitions
  rw [← t.definitions_eq] at hnodes hblocks
  have htypes : ∀ vs : List ValueId, vs ⊆ t.definitions →
      ∀ v ∈ vs, ∃ ty, g.typeOf v = .ok ty ∧ ty.Writable := by
    intro vs hvs v hv
    have hdef := hvs hv
    rw [t.definitions_eq] at hdef
    exact (h.values v hdef).typeOf (hg.defined v hdef)
  have hnode : ∀ x ∈ t.toArms.nodes, ∃ d, outlineNode g t.definitions x = .ok d ∧ d.Named :=
    fun x hx => exists_outlineNode (h.nodes x hx) (hnodes x hx).1 (hnodes x hx).2
      (htypes _ (hnodes x hx).2)
  have hblock : ∀ b ∈ t.toArms.blocks, ∃ d, outlineBlock g t.definitions b = .ok d ∧ d.Named :=
    fun b hb => exists_outlineBlock (hblocks b hb).1 (hblocks b hb).2 (htypes _ (hblocks b hb).1)
  obtain ⟨arms, harms, hnodesNamed, hblocksNamed⟩ := Arms.exists_traverse hnode hblock
  have hpairs := Arms.traverse_eq_ok_iff.1 harms
  match arms, harms, hpairs with
  | .arm d body .done, harms, hpairs =>
    have hnamed : ArmsDraft.Named (.arm d body .done) := ⟨hnodesNamed, hblocksNamed⟩
    obtain ⟨hd, hbody, -⟩ := ArmsDraft.named_arm.1 hnamed
    refine ⟨⟨d.params, ⟨[], d.returns⟩, body⟩, outlineGraph_eq_ok_iff.2 ⟨harms, rfl⟩,
      ⟨hd.params, hd.returns, hbody⟩, ?_⟩
    -- The draft has the shape of the tree, kind by kind.
    have hkinds : t.body.map NodeView.kind (fun _ => ()) = body.map NodeDraft.kind fun _ => () := by
      refine Body.map_eq_map_iff.2 (hpairs.2.1.imp (fun x _ d _ hx => ?_) fun _ _ _ _ _ => rfl)
      exact (nodeWritten_of_outlineNode hx).1.kind
    exact Body.proper_of_map_eq hkinds (Arms.Shaped.proper hshape).1

/-- A printable graph has a text, and it is the text of its draft. -/
theorem Printable.exists_text {g : Graph} {t : BlockTree} (h : Holds Printable g t) :
    ∃ draft, outlineGraph g t.definitions t = .ok draft ∧ draft.Named ∧
      draft.body.Proper NodeDraft.kind ∧ g.text = .ok draft.text := by
  obtain ⟨hg, hwf, hshape, hprintable⟩ := h
  obtain ⟨draft, hdraft, hnamed, hproper⟩ := hprintable.exists_draft hg hwf hshape
  refine ⟨draft, hdraft, hnamed, hproper, ?_⟩
  rw [hg.text_eq hshape, textOf, hdraft]
  rfl

end Graph

end Unguard
