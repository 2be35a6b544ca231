import Unguard.Proofs.Interning
import Unguard.Proofs.ReadingBack

/-!
# Trees and their drafts

`Graph.TreeWritten g nm t draft` says that the draft is what the tree `t` of the graph `g` looks like
when its values have the names `nm`.  The draft by which a graph is written stands in this relation to
its tree (`treeWritten_of_outlineGraph`), and the relation determines the draft up to places in a text
(`outlineGraph_of_treeWritten`).

Two trees that have the same draft are the same up to the names of their values
(`TreeWritten.sameTree`): `Body.Pairs` compares trees place by place.
-/

namespace Unguard

/-! ### Trees of the same shape -/

section Pairs

variable {ν β ν' β' ν'' β'' γ ε : Type} {R R' : ν → ν' → Prop} {S S' : β → β' → Prop}

mutual

/-- The trees have the same shape, and their data are related place by place. -/
def Body.Pairs (R : ν → ν' → Prop) (S : β → β' → Prop) : Body ν β → Body ν' β' → Prop
  | .done, .done => True
  | .node x arms rest, .node y arms' rest' =>
    R x y ∧ Arms.Pairs R S arms arms' ∧ Body.Pairs R S rest rest'
  | .done, .node .. | .node .., .done => False

@[inherit_doc Body.Pairs]
def Arms.Pairs (R : ν → ν' → Prop) (S : β → β' → Prop) : Arms ν β → Arms ν' β' → Prop
  | .done, .done => True
  | .arm b body rest, .arm c body' rest' =>
    S b c ∧ Body.Pairs R S body body' ∧ Arms.Pairs R S rest rest'
  | .done, .arm .. | .arm .., .done => False

end

mutual

/-- Relations may be weakened on the data that occur in the trees. -/
theorem Body.Pairs.imp : ∀ {a : Body ν β} {b : Body ν' β'}, a.Pairs R S b →
    (∀ x ∈ a.nodes, ∀ y ∈ b.nodes, R x y → R' x y) →
    (∀ x ∈ a.blocks, ∀ y ∈ b.blocks, S x y → S' x y) → a.Pairs R' S' b
  | .done, .done, _, _, _ => trivial
  | .node x arms rest, .node y arms' rest', ⟨hx, harms, hrest⟩, hR, hS => by
    simp only [Body.nodes, Body.blocks, List.mem_cons, List.mem_append] at hR hS
    refine ⟨hR x (Or.inl rfl) y (Or.inl rfl) hx, harms.imp ?_ ?_, hrest.imp ?_ ?_⟩
    · exact fun v hv w hw => hR v (Or.inr (Or.inl hv)) w (Or.inr (Or.inl hw))
    · exact fun v hv w hw => hS v (Or.inl hv) w (Or.inl hw)
    · exact fun v hv w hw => hR v (Or.inr (Or.inr hv)) w (Or.inr (Or.inr hw))
    · exact fun v hv w hw => hS v (Or.inr hv) w (Or.inr hw)

theorem Arms.Pairs.imp : ∀ {a : Arms ν β} {b : Arms ν' β'}, a.Pairs R S b →
    (∀ x ∈ a.nodes, ∀ y ∈ b.nodes, R x y → R' x y) →
    (∀ x ∈ a.blocks, ∀ y ∈ b.blocks, S x y → S' x y) → a.Pairs R' S' b
  | .done, .done, _, _, _ => trivial
  | .arm x body rest, .arm y body' rest', ⟨hx, hbody, hrest⟩, hR, hS => by
    simp only [Arms.nodes, Arms.blocks, List.mem_cons, List.mem_append] at hR hS
    refine ⟨hS x (Or.inl rfl) y (Or.inl rfl) hx, hbody.imp ?_ ?_, hrest.imp ?_ ?_⟩
    · exact fun v hv w hw => hR v (Or.inl hv) w (Or.inl hw)
    · exact fun v hv w hw => hS v (Or.inr (Or.inl hv)) w (Or.inr (Or.inl hw))
    · exact fun v hv w hw => hR v (Or.inr hv) w (Or.inr hw)
    · exact fun v hv w hw => hS v (Or.inr (Or.inr hv)) w (Or.inr (Or.inr hw))

end

mutual

/-- Trees that pair with one tree pair with one another. -/
theorem Body.Pairs.join {R' : ν'' → ν' → Prop} {S' : β'' → β' → Prop} : ∀ {a : Body ν β}
    {b : Body ν' β'} {c : Body ν'' β''}, a.Pairs R S b → c.Pairs R' S' b →
    a.Pairs (fun x z => ∃ y, R x y ∧ R' z y) (fun x z => ∃ y, S x y ∧ S' z y) c
  | .done, .done, .done, _, _ => trivial
  | .node _ _ _, .node y _ _, .node _ _ _, ⟨hx, harms, hrest⟩, ⟨hz, harms', hrest'⟩ =>
    ⟨⟨y, hx, hz⟩, harms.join harms', hrest.join hrest'⟩

@[inherit_doc Body.Pairs.join]
theorem Arms.Pairs.join {R' : ν'' → ν' → Prop} {S' : β'' → β' → Prop} : ∀ {a : Arms ν β}
    {b : Arms ν' β'} {c : Arms ν'' β''}, a.Pairs R S b → c.Pairs R' S' b →
    a.Pairs (fun x z => ∃ y, R x y ∧ R' z y) (fun x z => ∃ y, S x y ∧ S' z y) c
  | .done, .done, .done, _, _ => trivial
  | .arm _ _ _, .arm y _ _, .arm _ _ _, ⟨hx, hbody, hrest⟩, ⟨hz, hbody', hrest'⟩ =>
    ⟨⟨y, hx, hz⟩, hbody.join hbody', hrest.join hrest'⟩

end

mutual

/-- Going through a tree succeeds exactly if it does so in every place, and the result has the same
shape. -/
theorem Body.traverse_eq_ok_iff {f : ν → Except ε ν'} {k : β → Except ε β'} : ∀ {a : Body ν β}
    {b : Body ν' β'}, a.traverse f k = .ok b ↔
      a.Pairs (fun x y => f x = .ok y) (fun x y => k x = .ok y) b
  | .done, .done => iff_of_true rfl trivial
  | .done, .node .. => iff_of_false nofun id
  | .node x arms rest, .done => by
    refine iff_of_false (fun h => ?_) id
    obtain ⟨_, -, h⟩ := bind_eq_ok_iff.1 h
    obtain ⟨_, -, h⟩ := bind_eq_ok_iff.1 h
    obtain ⟨_, -, h⟩ := bind_eq_ok_iff.1 h
    exact nomatch h
  | .node x arms rest, .node y arms' rest' => by
    rw [Body.Pairs, ← Arms.traverse_eq_ok_iff, ← Body.traverse_eq_ok_iff, Body.traverse]
    constructor
    · intro h
      obtain ⟨_, hx, h⟩ := bind_eq_ok_iff.1 h
      obtain ⟨_, harms, h⟩ := bind_eq_ok_iff.1 h
      obtain ⟨_, hrest, h⟩ := bind_eq_ok_iff.1 h
      cases h
      exact ⟨hx, harms, hrest⟩
    · rintro ⟨hx, harms, hrest⟩
      rw [hx, ok_bind, harms, ok_bind, hrest]
      rfl

theorem Arms.traverse_eq_ok_iff {f : ν → Except ε ν'} {k : β → Except ε β'} : ∀ {a : Arms ν β}
    {b : Arms ν' β'}, a.traverse f k = .ok b ↔
      a.Pairs (fun x y => f x = .ok y) (fun x y => k x = .ok y) b
  | .done, .done => iff_of_true rfl trivial
  | .done, .arm .. => iff_of_false nofun id
  | .arm x body rest, .done => by
    refine iff_of_false (fun h => ?_) id
    obtain ⟨_, -, h⟩ := bind_eq_ok_iff.1 h
    obtain ⟨_, -, h⟩ := bind_eq_ok_iff.1 h
    obtain ⟨_, -, h⟩ := bind_eq_ok_iff.1 h
    exact nomatch h
  | .arm x body rest, .arm y body' rest' => by
    rw [Arms.Pairs, ← Arms.traverse_eq_ok_iff, ← Body.traverse_eq_ok_iff, Arms.traverse]
    constructor
    · intro h
      obtain ⟨_, hx, h⟩ := bind_eq_ok_iff.1 h
      obtain ⟨_, hbody, h⟩ := bind_eq_ok_iff.1 h
      obtain ⟨_, hrest, h⟩ := bind_eq_ok_iff.1 h
      cases h
      exact ⟨hx, hbody, hrest⟩
    · rintro ⟨hx, hbody, hrest⟩
      rw [hx, ok_bind, hbody, ok_bind, hrest]
      rfl

end

mutual

/-- Trees have a common image exactly if their data have, place by place. -/
theorem Body.map_eq_map_iff {f : ν → ν''} {k : β → β''} {f' : ν' → ν''} {k' : β' → β''} :
    ∀ {a : Body ν β} {b : Body ν' β'}, a.map f k = b.map f' k' ↔
      a.Pairs (fun x y => f x = f' y) (fun x y => k x = k' y) b
  | .done, .done => iff_of_true rfl trivial
  | .done, .node .. | .node .., .done => iff_of_false nofun id
  | .node x arms rest, .node y arms' rest' => by
    rw [Body.map, Body.map, Body.node.injEq, Arms.map_eq_map_iff, Body.map_eq_map_iff, Body.Pairs]

theorem Arms.map_eq_map_iff {f : ν → ν''} {k : β → β''} {f' : ν' → ν''} {k' : β' → β''} :
    ∀ {a : Arms ν β} {b : Arms ν' β'}, a.map f k = b.map f' k' ↔
      a.Pairs (fun x y => f x = f' y) (fun x y => k x = k' y) b
  | .done, .done => iff_of_true rfl trivial
  | .done, .arm .. | .arm .., .done => iff_of_false nofun id
  | .arm x body rest, .arm y body' rest' => by
    rw [Arms.map, Arms.map, Arms.arm.injEq, Arms.map_eq_map_iff, Body.map_eq_map_iff, Arms.Pairs]

end

mutual

/-- What is collected from related trees is the same if it is the same in every place. -/
theorem Body.Pairs.collect_eq {f : ν → List γ} {k : β → List γ} {f' : ν' → List γ}
    {k' : β' → List γ} (hf : ∀ x y, R x y → f x = f' y) (hk : ∀ x y, S x y → k x = k' y) :
    ∀ {a : Body ν β} {b : Body ν' β'}, a.Pairs R S b → a.collect f k = b.collect f' k'
  | .done, .done, _ => rfl
  | .node _ _ _, .node _ _ _, ⟨hx, harms, hrest⟩ => by
    rw [Body.collect, Body.collect, hf _ _ hx, harms.collect_eq hf hk, hrest.collect_eq hf hk]

theorem Arms.Pairs.collect_eq {f : ν → List γ} {k : β → List γ} {f' : ν' → List γ}
    {k' : β' → List γ} (hf : ∀ x y, R x y → f x = f' y) (hk : ∀ x y, S x y → k x = k' y) :
    ∀ {a : Arms ν β} {b : Arms ν' β'}, a.Pairs R S b → a.collect f k = b.collect f' k'
  | .done, .done, _ => rfl
  | .arm _ _ _, .arm _ _ _, ⟨hx, hbody, hrest⟩ => by
    rw [Arms.collect, Arms.collect, hk _ _ hx, hbody.collect_eq hf hk, hrest.collect_eq hf hk]

end

mutual

theorem Body.pairs_map_right {f : ν' → ν''} {k : β' → β''} {R : ν → ν'' → Prop} {S : β → β'' → Prop} :
    ∀ {a : Body ν β} {b : Body ν' β'},
    a.Pairs R S (b.map f k) ↔ a.Pairs (fun x y => R x (f y)) (fun x y => S x (k y)) b
  | .done, .done => Iff.rfl
  | .done, .node .. | .node .., .done => Iff.rfl
  | .node .., .node .. => by
    rw [Body.map, Body.Pairs, Body.Pairs, Arms.pairs_map_right, Body.pairs_map_right]

theorem Arms.pairs_map_right {f : ν' → ν''} {k : β' → β''} {R : ν → ν'' → Prop} {S : β → β'' → Prop} :
    ∀ {a : Arms ν β} {b : Arms ν' β'},
    a.Pairs R S (b.map f k) ↔ a.Pairs (fun x y => R x (f y)) (fun x y => S x (k y)) b
  | .done, .done => Iff.rfl
  | .done, .arm .. | .arm .., .done => Iff.rfl
  | .arm .., .arm .. => by
    rw [Arms.map, Arms.Pairs, Arms.Pairs, Arms.pairs_map_right, Body.pairs_map_right]

end

theorem exists_of_forall₂ {R : ν → ν' → Prop} {xs : List ν} {ys : List ν'}
    (h : List.Forall₂ R xs ys) {y : ν'} (hy : y ∈ ys) : ∃ x ∈ xs, R x y := by
  induction h with
  | nil => exact nomatch hy
  | cons hx _ ih =>
    rcases List.mem_cons.1 hy with rfl | hy
    · exact ⟨_, List.mem_cons_self, hx⟩
    · obtain ⟨x, hmem, hx⟩ := ih hy
      exact ⟨x, List.mem_cons_of_mem _ hmem, hx⟩

theorem exists_of_forall₂_left {R : ν → ν' → Prop} {xs : List ν} {ys : List ν'}
    (h : List.Forall₂ R xs ys) {x : ν} (hx : x ∈ xs) : ∃ y ∈ ys, R x y :=
  exists_of_forall₂ (List.Forall₂.flip (R := flip R) h) hx

mutual

/-- The nodes of related trees are related one by one, in the order of the text. -/
theorem Body.Pairs.nodes : ∀ {a : Body ν β} {b : Body ν' β'}, a.Pairs R S b →
    List.Forall₂ R a.nodes b.nodes
  | .done, .done, _ => .nil
  | .node _ _ _, .node _ _ _, ⟨hx, harms, hrest⟩ => .cons hx (List.rel_append harms.nodes hrest.nodes)

theorem Arms.Pairs.nodes : ∀ {a : Arms ν β} {b : Arms ν' β'}, a.Pairs R S b →
    List.Forall₂ R a.nodes b.nodes
  | .done, .done, _ => .nil
  | .arm _ _ _, .arm _ _ _, ⟨_, hbody, hrest⟩ => List.rel_append hbody.nodes hrest.nodes

end

mutual

theorem Body.Pairs.blocks : ∀ {a : Body ν β} {b : Body ν' β'}, a.Pairs R S b →
    List.Forall₂ S a.blocks b.blocks
  | .done, .done, _ => .nil
  | .node _ _ _, .node _ _ _, ⟨_, harms, hrest⟩ => List.rel_append harms.blocks hrest.blocks

theorem Arms.Pairs.blocks : ∀ {a : Arms ν β} {b : Arms ν' β'}, a.Pairs R S b →
    List.Forall₂ S a.blocks b.blocks
  | .done, .done, _ => .nil
  | .arm _ _ _, .arm _ _ _, ⟨hx, hbody, hrest⟩ => .cons hx (List.rel_append hbody.blocks hrest.blocks)

end

end Pairs

/-- The values at a node or a block of a whole tree are defined in the tree. -/
theorem Arms.WellFormed.subset_definitions {arms : BlockTrees} (h : arms.WellFormed []) :
    (∀ x ∈ arms.nodes, x.inputs ⊆ BlockTrees.definitions arms ∧
      x.outputs ⊆ BlockTrees.definitions arms) ∧
    ∀ b ∈ arms.blocks, b.params ⊆ BlockTrees.definitions arms ∧
      b.returns ⊆ BlockTrees.definitions arms := by
  have hmentions : ∀ v ∈ arms.mentions, v ∈ BlockTrees.definitions arms := fun v hv =>
    (h.scope.mem_of_mentions hv).resolve_left List.not_mem_nil
  simp only [Arms.mentions, BlockTrees.definitions_eq_collect, Arms.mem_collect] at hmentions
  simp only [BlockTrees.definitions_eq_collect]
  refine ⟨fun x hx => ⟨fun v hv => ?_, fun v hv => ?_⟩, fun b hb => ⟨fun v hv => ?_, fun v hv => ?_⟩⟩
  · exact Arms.mem_collect.2 (hmentions v (Or.inl ⟨x, hx, hv⟩))
  · exact Arms.mem_collect.2 (Or.inl ⟨x, hx, hv⟩)
  · exact Arms.mem_collect.2 (Or.inr ⟨b, hb, hv⟩)
  · exact Arms.mem_collect.2 (hmentions v (Or.inr ⟨b, hb, hv⟩))

/-! ### Names by place -/

namespace Text

/-- The name of a value by its place among `order`. -/
def placeName (order : List ValueId) (v : ValueId) : String :=
  (numbered order v).name

theorem numbered_eq (order : List ValueId) (v : ValueId) :
    numbered order v = ⟨placeName order v, 0⟩ := by
  rw [placeName, numbered]
  split <;> rfl

/-- The name of a value is its place in the order, written in digits. -/
theorem exists_placeName {order : List ValueId} {v : ValueId} (hv : v ∈ order) :
    ∃ i, order[i]? = some v ∧ order.idxOf v = i ∧ placeName order v = i.repr := by
  have hidx : order.idxOf? v = some (order.idxOf v) :=
    List.findIdx?_eq_some_iff_findIdx_eq.2 ⟨List.idxOf_lt_length_of_mem hv, rfl⟩
  refine ⟨order.idxOf v, ?_, rfl, ?_⟩
  · rw [List.getElem?_eq_getElem (List.idxOf_lt_length_of_mem hv), List.getElem_idxOf]
  · rw [placeName, numbered, hidx]

theorem isValueName_placeName {order : List ValueId} {v : ValueId} (hv : v ∈ order) :
    IsValueName (placeName order v) := by
  obtain ⟨i, -, -, hname⟩ := exists_placeName hv
  rw [hname]
  exact isValueName_repr i

theorem repr_injective : Function.Injective Nat.repr := by
  intro m n h
  rw [Nat.repr_eq_ofList_toDigits, Nat.repr_eq_ofList_toDigits] at h
  have hdigits := congrArg String.toList h
  rw [String.toList_ofList, String.toList_ofList] at hdigits
  rw [← Decimal.ofDigitList_toDigits m, hdigits, Decimal.ofDigitList_toDigits]

/-- Values in different places have different names. -/
theorem placeName_injOn (order : List ValueId) : Set.InjOn (placeName order) {v | v ∈ order} := by
  intro v hv w hw h
  obtain ⟨i, hi, -, hname⟩ := exists_placeName hv
  obtain ⟨j, hj, -, hname'⟩ := exists_placeName hw
  rw [hname, hname'] at h
  rw [repr_injective h, hj] at hi
  exact (Option.some.inj hi).symm

/-- Distinct values are named by the numbers from zero on. -/
theorem map_placeName {order : List ValueId} (h : order.Nodup) :
    order.map (placeName order) = (List.range order.length).map Nat.repr := by
  refine List.ext_getElem (by simp) fun i hi _ => ?_
  rw [List.length_map] at hi
  obtain ⟨j, -, hj, hname⟩ := exists_placeName (List.getElem_mem hi)
  rw [List.getElem_map, List.getElem_map, List.getElem_range, hname, ← hj, h.idxOf_getElem i hi]

/-- Mentions by place are what is left of mentions in a text without their offsets. -/
theorem map_numbered_eq {order vs : List ValueId} {ms : List Mention}
    (h : vs.map (placeName order) = ms.map Mention.name) :
    vs.map (numbered order) = ms.map Mention.bare := by
  have hmap := congrArg (List.map fun name => Mention.mk name 0) h
  rw [List.map_map, List.map_map] at hmap
  rw [List.map_congr_left fun v _ => numbered_eq order v]
  exact hmap

/-- Writing the attributes does not change their keys. -/
theorem keys_eq_of_written {t : TypeTable} {es : List (String × Attribute)}
    {ls : List (String × Literal)} (h : traverse (writtenEntry t) es = .ok ls) :
    es.map Prod.fst = ls.map Prod.fst := by
  have hpairs := traverse_eq_ok_iff.1 h
  clear h
  induction hpairs with
  | nil => rfl
  | cons he _ ih => rw [List.map_cons, List.map_cons, (writtenEntry_eq_ok_iff.1 he).2, ih]

/-! ### A draft as a tree -/

theorem GraphDraft.toArms_bare (draft : GraphDraft) :
    draft.bare.toArms = draft.toArms.map NodeDraft.bare BlockDraft.bare :=
  rfl

/-- The keys of the attributes stand in ascending order, at every node. -/
def ArmsDraft.Ascending (arms : ArmsDraft) : Prop :=
  ∀ d ∈ arms.nodes, d.attributes.Pairwise fun a b => a.1 < b.1

/-- The names that are defined, in the order of the text. -/
def BodyDraft.names (body : BodyDraft) : List String :=
  body.collect (fun d => d.results.map Mention.name) fun b => b.params.map fun p => p.1.name

@[inherit_doc BodyDraft.names]
def ArmsDraft.names (arms : ArmsDraft) : List String :=
  arms.collect (fun d => d.results.map Mention.name) fun b => b.params.map fun p => p.1.name

/-- The draft of a graph comes from its tree, taken as a single block without parameters. -/
theorem outlineGraph_eq_ok_iff {g : Graph} {order : List ValueId} {t : BlockTree}
    {draft : GraphDraft} : outlineGraph g order t = .ok draft ↔
      t.toArms.traverse (outlineNode g order) (outlineBlock g order) = .ok draft.toArms ∧
        draft.block.params = [] := by
  rw [Arms.traverse_eq_ok_iff, BlockTree.toArms, GraphDraft.toArms, Arms.Pairs, Arms.Pairs,
    ← Body.traverse_eq_ok_iff, outlineGraph, outlineNodes]
  constructor
  · -- The parameters of the top block are outlined as those of the graph.
    intro h
    obtain ⟨params, hparams, h⟩ := bind_eq_ok_iff.1 h
    obtain ⟨body, hbody, h⟩ := bind_eq_ok_iff.1 h
    obtain rfl := Except.ok.inj h
    refine ⟨⟨?_, hbody, trivial⟩, rfl⟩
    rw [outlineBlock, hparams]
    rfl
  · rintro ⟨⟨hblock, hbody, -⟩, hnone⟩
    obtain ⟨params, hparams, h⟩ := bind_eq_ok_iff.1 hblock
    rw [hparams, ok_bind, hbody, ok_bind]
    obtain ⟨ps, ⟨qs, returns⟩, body⟩ := draft
    cases h
    cases hnone
    rfl

end Text

namespace Graph

open Text

/-! ### What a tree looks like -/

/-- The node is written as the draft, where values have the names `nm`. -/
structure NodeWritten (g : Graph) (nm : ValueId → String) (x : NodeView) (d : NodeDraft) : Prop where
  kind : x.kind = d.kind
  inputs : x.inputs.map nm = d.operands.map Mention.name
  outputs : x.outputs.map nm = d.results.map Mention.name
  attributes : ∃ entries, x.attributes = .ofList entries ∧
    traverse (writtenEntry g.types) entries = .ok d.attributes
  types : traverse g.typeOf x.outputs = .ok d.types

/-- The block is written as the draft, where values have the names `nm`. -/
structure BlockWritten (g : Graph) (nm : ValueId → String) (b : BlockView) (d : BlockDraft) :
    Prop where
  params : b.params.map nm = d.params.map fun p => p.1.name
  types : traverse g.typeOf b.params = .ok (d.params.map Prod.snd)
  returns : b.returns.map nm = d.returns.map Mention.name

/-- The tree is written as the draft, where values have the names `nm`. -/
def TreeWritten (g : Graph) (nm : ValueId → String) (t : BlockTree) (draft : GraphDraft) : Prop :=
  t.toArms.Pairs (g.NodeWritten nm) (g.BlockWritten nm) draft.toArms

section Written

variable {g : Graph} {order : List ValueId}

/-- The attributes of a node are written in the order of their keys. -/
theorem nodeWritten_of_outlineNode {x : NodeView} {d : NodeDraft} (h : outlineNode g order x = .ok d) :
    g.NodeWritten (placeName order) x d ∧ d.attributes.Pairwise fun a b => a.1 < b.1 := by
  obtain ⟨attributes, hattributes, h⟩ := bind_eq_ok_iff.1 h
  obtain ⟨types, htypes, h⟩ := bind_eq_ok_iff.1 h
  obtain rfl := Except.ok.inj h
  refine ⟨⟨rfl, ?_, ?_, ⟨_, (Attributes.ofList_toList _).symm, hattributes⟩, htypes⟩, ?_⟩
  · rw [List.map_map]
    rfl
  · rw [List.map_map]
    rfl
  · have hkeys := keys_eq_of_written hattributes
    have hascending := List.pairwise_map.2 x.attributes.ascending
    rw [hkeys] at hascending
    exact List.pairwise_map.1 hascending

/-- Attributes that are written in the order of their keys are written in the order of the table. -/
theorem NodeWritten.toList_attributes {nm : ValueId → String} {x : NodeView} {d : NodeDraft}
    (h : g.NodeWritten nm x d) (hascending : d.attributes.Pairwise fun a b => a.1 < b.1) :
    traverse (writtenEntry g.types) x.attributes.toList = .ok d.attributes := by
  obtain ⟨entries, hentries, hwritten⟩ := h.attributes
  have hkeys := List.pairwise_map.2 hascending
  rw [← keys_eq_of_written hwritten] at hkeys
  rw [hentries, Attributes.toList_ofList (List.pairwise_map.1 hkeys)]
  exact hwritten

/-- How a node is written is determined by what it looks like, up to places in a text. -/
theorem outlineNode_of_nodeWritten {x : NodeView} {d : NodeDraft}
    (h : g.NodeWritten (placeName order) x d)
    (hascending : d.attributes.Pairwise fun a b => a.1 < b.1) :
    outlineNode g order x = .ok d.bare := by
  have hattributes : traverse (fun (e : String × Attribute) => do
      let value ← outlineAttribute g.types e.2
      return (e.1, value)) x.attributes.toList = .ok d.attributes := h.toList_attributes hascending
  rw [outlineNode, hattributes, ok_bind, h.types, ok_bind, map_numbered_eq h.inputs,
    map_numbered_eq h.outputs, h.kind]
  rfl

/-- Parameters are written with their names and their types. -/
theorem outlineParams_eq_ok {params : List ValueId} {ps : List (Mention × TypeTree)}
    (h : outlineParams g order params = .ok ps) :
    params.map (placeName order) = ps.map (fun p => p.1.name) ∧
      traverse g.typeOf params = .ok (ps.map Prod.snd) := by
  have hpairs := traverse_eq_ok_iff.1 h
  clear h
  induction hpairs with
  | nil => exact ⟨rfl, rfl⟩
  | cons hv _ ih =>
    obtain ⟨ty, hty, hv⟩ := bind_eq_ok_iff.1 hv
    obtain rfl := Except.ok.inj hv
    exact ⟨congrArg (_ :: ·) ih.1, traverse_cons hty ih.2⟩

theorem outlineParams_of_names {params : List ValueId} {ps : List (Mention × TypeTree)}
    (hnames : params.map (placeName order) = ps.map fun p => p.1.name)
    (htypes : traverse g.typeOf params = .ok (ps.map Prod.snd)) :
    outlineParams g order params = .ok (bareParams ps) := by
  induction ps generalizing params with
  | nil =>
    obtain rfl := List.map_eq_nil_iff.1 hnames
    rfl
  | cons p ps ih =>
    obtain ⟨v, vs, rfl, hv, hvs⟩ := List.map_eq_cons_iff.1 hnames
    obtain ⟨hty, htys⟩ := List.forall₂_cons.1 (traverse_eq_ok_iff.1 htypes)
    refine traverse_cons ?_ (ih hvs (traverse_eq_ok_iff.2 htys))
    rw [hty, numbered_eq, hv]
    rfl

theorem blockWritten_of_outlineBlock {b : BlockView} {d : BlockDraft}
    (h : outlineBlock g order b = .ok d) : g.BlockWritten (placeName order) b d := by
  obtain ⟨params, hparams, h⟩ := bind_eq_ok_iff.1 h
  obtain rfl := Except.ok.inj h
  obtain ⟨hnames, htypes⟩ := outlineParams_eq_ok hparams
  refine ⟨hnames, htypes, ?_⟩
  rw [List.map_map]
  rfl

/-- How a block is written is determined by what it looks like, up to places in a text. -/
theorem outlineBlock_of_blockWritten {b : BlockView} {d : BlockDraft}
    (h : g.BlockWritten (placeName order) b d) : outlineBlock g order b = .ok d.bare := by
  rw [outlineBlock, outlineParams_of_names h.params h.types, ok_bind, map_numbered_eq h.returns]
  rfl

/-- The draft by which a graph is written is what its tree looks like. -/
theorem treeWritten_of_outlineGraph {t : BlockTree} {draft : GraphDraft}
    (h : outlineGraph g order t = .ok draft) :
    g.TreeWritten (placeName order) t draft ∧ ArmsDraft.Ascending draft.toArms := by
  have hpairs := Arms.traverse_eq_ok_iff.1 (outlineGraph_eq_ok_iff.1 h).1
  constructor
  · exact hpairs.imp (fun x _ d _ hd => (nodeWritten_of_outlineNode hd).1)
      fun b _ d _ hd => blockWritten_of_outlineBlock hd
  · intro d hd
    obtain ⟨x, -, hx⟩ := exists_of_forall₂ hpairs.nodes hd
    exact (nodeWritten_of_outlineNode hx).2

/-- What a tree looks like is the draft by which it is written, places in a text apart. -/
theorem outlineGraph_of_treeWritten {t : BlockTree} {draft : GraphDraft}
    (h : g.TreeWritten (placeName order) t draft) (hascending : ArmsDraft.Ascending draft.toArms)
    (hblock : draft.block.params = []) : outlineGraph g order t = .ok draft.bare := by
  refine outlineGraph_eq_ok_iff.2 ⟨?_, ?_⟩
  · rw [GraphDraft.toArms_bare, Arms.traverse_eq_ok_iff, Arms.pairs_map_right]
    exact h.imp (fun x _ d hd hx => outlineNode_of_nodeWritten hx (hascending d hd))
      fun b _ d _ hb => outlineBlock_of_blockWritten hb
  · rw [GraphDraft.bare, BlockDraft.bare, hblock]
    rfl

/-- The draft by which a tree is written has no places in a text. -/
theorem bare_of_outlineGraph {t : BlockTree} {draft : GraphDraft}
    (h : outlineGraph g order t = .ok draft) : draft.bare = draft := by
  obtain ⟨hwritten, hascending⟩ := treeWritten_of_outlineGraph h
  have hself := outlineGraph_of_treeWritten hwritten hascending (outlineGraph_eq_ok_iff.1 h).2
  exact Except.ok.inj (hself.symm.trans h)

/-! ### Other places in a text -/

theorem map_name_of_bare {ms ms' : List Mention} (h : ms.map Mention.bare = ms'.map Mention.bare) :
    ms.map Mention.name = ms'.map Mention.name := by
  have hnames := congrArg (List.map Mention.name) h
  rwa [List.map_map, List.map_map] at hnames

theorem map_params_of_bare {ps ps' : List (Mention × TypeTree)} (h : bareParams ps = bareParams ps') :
    (ps.map fun p => p.1.name) = (ps'.map fun p => p.1.name) ∧
      ps.map Prod.snd = ps'.map Prod.snd := by
  have hnames := congrArg (List.map fun p : Mention × TypeTree => p.1.name) h
  have htypes := congrArg (List.map Prod.snd) h
  rw [bareParams, bareParams, List.map_map, List.map_map] at hnames htypes
  exact ⟨hnames, htypes⟩

/-- What a node looks like has nothing to do with places in a text. -/
theorem NodeWritten.of_bare {nm : ValueId → String} {x : NodeView} {d d' : NodeDraft}
    (h : g.NodeWritten nm x d) (hbare : d'.bare = d.bare) : g.NodeWritten nm x d' := by
  simp only [NodeDraft.bare, NodeDraft.mk.injEq] at hbare
  obtain ⟨hresults, hkind, hoperands, hattributes, htypes⟩ := hbare
  refine ⟨h.kind.trans hkind.symm, ?_, ?_, hattributes ▸ h.attributes, htypes ▸ h.types⟩
  · rw [h.inputs, map_name_of_bare hoperands]
  · rw [h.outputs, map_name_of_bare hresults]

theorem BlockWritten.of_bare {nm : ValueId → String} {b : BlockView} {d d' : BlockDraft}
    (h : g.BlockWritten nm b d) (hbare : d'.bare = d.bare) : g.BlockWritten nm b d' := by
  simp only [BlockDraft.bare, BlockDraft.mk.injEq] at hbare
  obtain ⟨hnames, htypes⟩ := map_params_of_bare hbare.1
  refine ⟨?_, ?_, ?_⟩
  · rw [h.params, hnames]
  · rw [h.types, htypes]
  · rw [h.returns, map_name_of_bare hbare.2]

/-- Places in a text do not matter to what a tree looks like. -/
theorem TreeWritten.of_bare {nm : ValueId → String} {t : BlockTree} {draft draft' : GraphDraft}
    (h : g.TreeWritten nm t draft) (hbare : draft'.bare = draft.bare) : g.TreeWritten nm t draft' := by
  have harms := congrArg GraphDraft.toArms hbare
  rw [GraphDraft.toArms_bare, GraphDraft.toArms_bare, Arms.map_eq_map_iff] at harms
  refine (Arms.Pairs.join h harms).imp ?_ ?_
  · rintro x - d' - ⟨d, hx, hd⟩
    exact hx.of_bare hd
  · rintro b - d' - ⟨d, hb, hd⟩
    exact hb.of_bare hd

/-- The order of keys has nothing to do with places in a text. -/
theorem ascending_of_bare {draft draft' : GraphDraft} (h : ArmsDraft.Ascending draft.toArms)
    (hbare : draft'.bare = draft.bare) : ArmsDraft.Ascending draft'.toArms := by
  have harms := congrArg GraphDraft.toArms hbare.symm
  rw [GraphDraft.toArms_bare, GraphDraft.toArms_bare, Arms.map_eq_map_iff] at harms
  intro d' hd'
  obtain ⟨d, hd, hsame⟩ := exists_of_forall₂ harms.nodes hd'
  have hattributes : d.bare.attributes = d'.bare.attributes := congrArg NodeDraft.attributes hsame
  have hascending := h d hd
  rw [show d.attributes = d'.attributes from hattributes] at hascending
  exact hascending

/-- The names in a draft are those of the values of the tree, in order. -/
theorem TreeWritten.names_eq {nm : ValueId → String} {t : BlockTree} {draft : GraphDraft}
    (h : g.TreeWritten nm t draft) :
    (BlockTrees.definitions t.toArms).map nm = ArmsDraft.names draft.toArms := by
  rw [BlockTrees.definitions_eq_collect, Arms.map_collect]
  exact Arms.Pairs.collect_eq (fun x d hx => hx.outputs) (fun b d hb => hb.params) h

end Written

/-! ### Trees with the same draft -/

/-- The attributes of a node with their types written out. -/
def writtenAttributes (g : Graph) (x : NodeView) : Except Fault (List (String × Literal)) :=
  traverse (writtenEntry g.types) x.attributes.toList

/-- Node `x` of `g` and node `x'` of `g'` are the same, where the values are renamed by `σ`. -/
structure SameNode (g g' : Graph) (σ : ValueId → ValueId) (x x' : NodeView) : Prop where
  kind : x'.kind = x.kind
  inputs : x'.inputs = x.inputs.map σ
  outputs : x'.outputs = x.outputs.map σ
  attributes : ∃ entries, g.writtenAttributes x = .ok entries ∧ g'.writtenAttributes x' = .ok entries
  types : ∃ types, traverse g.typeOf x.outputs = .ok types ∧ traverse g'.typeOf x'.outputs = .ok types

/-- Block `b` of `g` and block `b'` of `g'` are the same, where the values are renamed by `σ`. -/
structure SameBlock (g g' : Graph) (σ : ValueId → ValueId) (b b' : BlockView) : Prop where
  params : b'.params = b.params.map σ
  returns : b'.returns = b.returns.map σ
  types : ∃ types, traverse g.typeOf b.params = .ok types ∧ traverse g'.typeOf b'.params = .ok types

/-- The trees are the same, where the values are renamed by `σ`. -/
def SameTree (g g' : Graph) (σ : ValueId → ValueId) (t t' : BlockTree) : Prop :=
  t.toArms.Pairs (g.SameNode g' σ) (g.SameBlock g' σ) t'.toArms

/-- Lists of values are recognised by their names. -/
theorem eq_map_of_names {nm nm' : ValueId → String} {σ : ValueId → ValueId}
    {defs defs' vs vs' : List ValueId} (hinj : Set.InjOn nm' {v | v ∈ defs'})
    (hσ : ∀ v ∈ defs, σ v ∈ defs' ∧ nm' (σ v) = nm v) (hvs : vs ⊆ defs) (hvs' : vs' ⊆ defs')
    (h : vs'.map nm' = vs.map nm) : vs' = vs.map σ := by
  induction vs generalizing vs' with
  | nil => exact List.map_eq_nil_iff.1 h
  | cons v vs ih =>
    obtain ⟨w, ws, rfl, hw, hws⟩ := List.map_eq_cons_iff.1 h
    rw [List.cons_subset] at hvs hvs'
    obtain ⟨hmem, hname⟩ := hσ v hvs.1
    rw [List.map_cons, ih hvs.2 hvs'.2 hws, hinj hvs'.1 hmem (hw.trans hname.symm)]

/-- Nodes that look the same are the same up to the names of their values. -/
theorem NodeWritten.sameNode {g g' : Graph} {nm nm' : ValueId → String} {σ : ValueId → ValueId}
    {defs defs' : List ValueId} {x x' : NodeView} {d : NodeDraft}
    (hinj : Set.InjOn nm' {v | v ∈ defs'}) (hσ : ∀ v ∈ defs, σ v ∈ defs' ∧ nm' (σ v) = nm v)
    (h : g.NodeWritten nm x d) (h' : g'.NodeWritten nm' x' d)
    (hascending : d.attributes.Pairwise fun a b => a.1 < b.1)
    (hinputs : x.inputs ⊆ defs) (hinputs' : x'.inputs ⊆ defs')
    (houtputs : x.outputs ⊆ defs) (houtputs' : x'.outputs ⊆ defs') : g.SameNode g' σ x x' where
  kind := h'.kind.trans h.kind.symm
  inputs := eq_map_of_names hinj hσ hinputs hinputs' (h'.inputs.trans h.inputs.symm)
  outputs := eq_map_of_names hinj hσ houtputs houtputs' (h'.outputs.trans h.outputs.symm)
  attributes := ⟨_, h.toList_attributes hascending, h'.toList_attributes hascending⟩
  types := ⟨_, h.types, h'.types⟩

/-- Blocks that look the same are the same up to the names of their values. -/
theorem BlockWritten.sameBlock {g g' : Graph} {nm nm' : ValueId → String} {σ : ValueId → ValueId}
    {defs defs' : List ValueId} {b b' : BlockView} {d : BlockDraft}
    (hinj : Set.InjOn nm' {v | v ∈ defs'}) (hσ : ∀ v ∈ defs, σ v ∈ defs' ∧ nm' (σ v) = nm v)
    (h : g.BlockWritten nm b d) (h' : g'.BlockWritten nm' b' d)
    (hparams : b.params ⊆ defs) (hparams' : b'.params ⊆ defs')
    (hreturns : b.returns ⊆ defs) (hreturns' : b'.returns ⊆ defs') : g.SameBlock g' σ b b' where
  params := eq_map_of_names hinj hσ hparams hparams' (h'.params.trans h.params.symm)
  returns := eq_map_of_names hinj hσ hreturns hreturns' (h'.returns.trans h.returns.symm)
  types := ⟨_, h.types, h'.types⟩

/-- Trees that look the same are the same, up to the names of their values. -/
theorem TreeWritten.sameTree {g g' : Graph} {nm nm' : ValueId → String} {t t' : BlockTree}
    {draft : GraphDraft} {σ : ValueId → ValueId} (h : g.TreeWritten nm t draft)
    (h' : g'.TreeWritten nm' t' draft) (hascending : ArmsDraft.Ascending draft.toArms)
    (hwf : t.toArms.WellFormed []) (hwf' : t'.toArms.WellFormed [])
    (hinj : Set.InjOn nm' {v | v ∈ BlockTrees.definitions t'.toArms})
    (hσ : ∀ v ∈ BlockTrees.definitions t.toArms,
      σ v ∈ BlockTrees.definitions t'.toArms ∧ nm' (σ v) = nm v) : g.SameTree g' σ t t' := by
  have hordered : t.toArms.Pairs (fun x d => g.NodeWritten nm x d ∧
      d.attributes.Pairwise fun a b => a.1 < b.1) (g.BlockWritten nm) draft.toArms :=
    Arms.Pairs.imp h (fun x _ d hd hx => ⟨hx, hascending d hd⟩) fun _ _ _ _ hb => hb
  obtain ⟨hnodes, hblocks⟩ := hwf.subset_definitions
  obtain ⟨hnodes', hblocks'⟩ := hwf'.subset_definitions
  -- Both trees are paired with one draft, so they are paired with each other through it.
  refine (hordered.join h').imp ?_ ?_
  · rintro x hx x' hx' ⟨d, ⟨hwritten, hd⟩, hwritten'⟩
    obtain ⟨hinputs, houtputs⟩ := hnodes x hx
    obtain ⟨hinputs', houtputs'⟩ := hnodes' x' hx'
    exact hwritten.sameNode hinj hσ hwritten' hd hinputs hinputs' houtputs houtputs'
  · rintro b hb b' hb' ⟨d, hwritten, hwritten'⟩
    obtain ⟨hparams, hreturns⟩ := hblocks b hb
    obtain ⟨hparams', hreturns'⟩ := hblocks' b' hb'
    exact hwritten.sameBlock hinj hσ hwritten' hparams hparams' hreturns hreturns'

end Graph

end Unguard
