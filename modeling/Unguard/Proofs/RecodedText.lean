import Unguard.Proofs.Printable
import Unguard.Proofs.Recoding

/-!
# Recodings that leave the text alone

A recoding is faithful to a table of types if labels and attributes are written as before once they
are recoded.  A graph under a faithful recoding has the same text (`Graph.text_recode`).

Labels and attributes of two tables can be recoded into one table, which has the types of both
(`TypeTable.exists_union`), such that what is written alike becomes the same (`Recoding.into`).  That is
how graphs with different tables are compared.
-/

namespace Unguard

open Text

/-! ### Faithful recodings -/

/-- What is recoded is written as it was with the types of `t`. -/
structure Recoding.Faithful (ρ : Recoding) (t : TypeTable) : Prop where
  label : ∀ {l : Label} {tree : TypeTree}, t.expand l.ty = .ok tree →
    ρ.types.expand (ρ.label l).ty = .ok tree
  attributes : ∀ {a : Attributes} {entries : List (String × Literal)},
    traverse (writtenEntry t) a.toList = .ok entries →
    traverse (writtenEntry ρ.types) (ρ.attributes a).toList = .ok entries

mutual

theorem Body.pairs_map_left {ν β ν' β' ν'' β'' : Type} {f : ν → ν''} {k : β → β''}
    {R : ν'' → ν' → Prop} {S : β'' → β' → Prop} : ∀ {a : Body ν β} {b : Body ν' β'},
    (a.map f k).Pairs R S b ↔ a.Pairs (fun x y => R (f x) y) (fun x y => S (k x) y) b
  | .done, .done => Iff.rfl
  | .done, .node .. | .node .., .done => Iff.rfl
  | .node .., .node .. => by
    rw [Body.map, Body.Pairs, Body.Pairs, Arms.pairs_map_left, Body.pairs_map_left]

theorem Arms.pairs_map_left {ν β ν' β' ν'' β'' : Type} {f : ν → ν''} {k : β → β''}
    {R : ν'' → ν' → Prop} {S : β'' → β' → Prop} : ∀ {a : Arms ν β} {b : Arms ν' β'},
    (a.map f k).Pairs R S b ↔ a.Pairs (fun x y => R (f x) y) (fun x y => S (k x) y) b
  | .done, .done => Iff.rfl
  | .done, .arm .. | .arm .., .done => Iff.rfl
  | .arm .., .arm .. => by
    rw [Arms.map, Arms.Pairs, Arms.Pairs, Body.pairs_map_left, Arms.pairs_map_left]

end

theorem Recoding.definitions_tree (ρ : Recoding) (t : BlockTree) :
    (ρ.tree t).definitions = t.definitions := by
  unfold BlockTree.definitions
  refine congrArg (t.head.params ++ ·) ?_
  show NodeTrees.definitions (t.body.map ρ.view id) = _
  rw [NodeTrees.definitions_eq_collect, NodeTrees.definitions_eq_collect, Body.collect_map]
  rfl

namespace Graph

variable {g : Graph} {ρ : Recoding}

/-- A faithful recoding keeps the types as they are written. -/
theorem typeOf_recode (h : ρ.Faithful g.types) {v : ValueId} {tree : TypeTree}
    (hv : g.typeOf v = .ok tree) : (g.recode ρ).typeOf v = .ok tree := by
  obtain ⟨value, hvalue, hv⟩ := bind_eq_ok_iff.1 hv
  have hvalue' : (g.recode ρ).value? v = some (ρ.value value) := by
    rw [value?_recode, (g.value_eq_ok_iff).1 hvalue]
    rfl
  rw [typeOf, ((g.recode ρ).value_eq_ok_iff).2 hvalue', ok_bind]
  exact h.label hv

/-- A node is written the same when its attributes are recoded, because their keys are in order. -/
theorem nodeWritten_recode (h : ρ.Faithful g.types) {nm : ValueId → String} {x : NodeView}
    {d : NodeDraft} (hx : g.NodeWritten nm x d)
    (hascending : d.attributes.Pairwise fun a b => a.1 < b.1) :
    (g.recode ρ).NodeWritten nm (ρ.view x) d where
  kind := hx.kind
  inputs := hx.inputs
  outputs := hx.outputs
  attributes := ⟨(ρ.attributes x.attributes).toList, (Attributes.ofList_toList _).symm,
    h.attributes (hx.toList_attributes hascending)⟩
  types := traverse_mono (fun _ _ hv => typeOf_recode h hv) hx.types

theorem blockWritten_recode (h : ρ.Faithful g.types) {nm : ValueId → String} {b : BlockView}
    {d : BlockDraft} (hb : g.BlockWritten nm b d) : (g.recode ρ).BlockWritten nm b d :=
  ⟨hb.params, traverse_mono (fun _ _ hv => typeOf_recode h hv) hb.types, hb.returns⟩

/-- The outline of a recoded graph is that of the graph. -/
theorem outlineGraph_recode (h : ρ.Faithful g.types) {order : List ValueId} {t : BlockTree}
    {draft : GraphDraft} (hdraft : outlineGraph g order t = .ok draft) :
    outlineGraph (g.recode ρ) order (ρ.tree t) = .ok draft := by
  obtain ⟨hwritten, hascending⟩ := treeWritten_of_outlineGraph hdraft
  have hblock := (outlineGraph_eq_ok_iff.1 hdraft).2
  have hwritten' : (g.recode ρ).TreeWritten (placeName order) (ρ.tree t) draft := by
    have hpairs : t.toArms.Pairs
        (fun x d => (g.recode ρ).NodeWritten (placeName order) (ρ.view x) d)
        (fun b d => (g.recode ρ).BlockWritten (placeName order) (id b) d) draft.toArms :=
      Arms.Pairs.imp hwritten (fun x _ d hd hx => nodeWritten_recode h hx (hascending d hd))
        fun b _ d _ hb => blockWritten_recode h hb
    exact Arms.pairs_map_left.2 hpairs
  rw [outlineGraph_of_treeWritten hwritten' hascending hblock, bare_of_outlineGraph hdraft]

/-- A faithful recoding does not change the draft. -/
theorem draft_recode (h : ρ.Faithful g.types) {draft : GraphDraft} (hdraft : g.draft = .ok draft) :
    (g.recode ρ).draft = .ok draft := by
  obtain ⟨order, horder, hdraft⟩ := bind_eq_ok_iff.1 hdraft
  obtain ⟨t, ht, hdraft⟩ := bind_eq_ok_iff.1 hdraft
  have horder' : (g.recode ρ).numbering = .ok order := by
    rw [← horder]
    unfold numbering
    rw [tree_recode, bind_map]
    exact bind_congr fun t => congrArg Except.ok (ρ.definitions_tree t)
  have ht' : (g.recode ρ).writtenBlock top = .ok (ρ.tree t) := by
    unfold writtenBlock at ht ⊢
    rw [unfoldBlock_recode fun _ => rfl]
    show (g.unfoldBlock writesBlocks g.blocks.size top).map ρ.tree = _
    rw [ht]
    rfl
  rw [Graph.draft, horder', ok_bind, ht', ok_bind]
  exact outlineGraph_recode h hdraft

/-- Nor the text. -/
theorem text_recode (h : ρ.Faithful g.types) {text : String} (htext : g.text = .ok text) :
    (g.recode ρ).text = .ok text := by
  obtain ⟨draft, hdraft, htext⟩ := bind_eq_ok_iff.1 htext
  rw [Graph.text, draft_recode h hdraft]
  exact htext

end Graph

/-! ### One table for two -/

namespace TypeTable

/-- The types of `t` can be written with `T`. -/
def Covers (T t : TypeTable) : Prop :=
  ∀ ty tree, t.expand ty = .ok tree → ∃ ty', T.expand ty' = .ok tree

/-- A table with the types of two. -/
theorem exists_union {t : TypeTable} (h : t.Closed) (t' : TypeTable) :
    ∃ T : TypeTable, T.Covers t ∧ T.Covers t' := by
  let trees := t'.ids.filterMap fun ty => (t'.expand ty).toOption
  -- `t`, with the types of `t'` interned on top of it
  refine ⟨(t.internTrees trees).2, fun ty tree hty => ?_, fun ty tree hty => ?_⟩
  · exact ⟨ty, (kept_internTrees t trees).expand hty⟩
  · have hmem : tree ∈ trees := by
      refine List.mem_filterMap.2 ⟨ty, ?_, toOption_eq_some_iff.2 hty⟩
      exact List.mem_map.2 ⟨ty.index, List.mem_range.2 (index_lt_of_expand hty), rfl⟩
    have hread := traverse_eq_ok_iff.1 (h.traverse_expand_internTrees trees)
    obtain ⟨ty', -, hty'⟩ := exists_of_forall₂ hread hmem
    exact ⟨ty', hty'⟩

/-- A type that is written like this, if there is one. -/
noncomputable def find (T : TypeTable) (tree : Except Fault TypeTree) : TypeId :=
  open Classical in if h : ∃ ty, T.expand ty = tree then h.choose else ⟨0⟩

theorem expand_find {T : TypeTable} {tree : Except Fault TypeTree} (h : ∃ ty, T.expand ty = tree) :
    T.expand (T.find tree) = tree := by
  rw [find, dif_pos h]
  exact h.choose_spec

/-- Attributes that are written like this, if there are any. -/
noncomputable def findAttributes (T : TypeTable)
    (entries : Except Fault (List (String × Literal))) : Attributes :=
  open Classical in
  if h : ∃ a : Attributes, traverse (writtenEntry T) a.toList = entries then h.choose else .empty

theorem written_findAttributes {T : TypeTable} {entries : Except Fault (List (String × Literal))}
    (h : ∃ a : Attributes, traverse (writtenEntry T) a.toList = entries) :
    traverse (writtenEntry T) (T.findAttributes entries).toList = entries := by
  rw [findAttributes, dif_pos h]
  exact h.choose_spec

mutual

/-- What can be written with a table can be written with one that covers it. -/
theorem Covers.exists_attribute {T t : TypeTable} (h : T.Covers t) : ∀ {a : Attribute} {l : Literal},
    outlineAttribute t a = .ok l → ∃ a', outlineAttribute T a' = .ok l
  | .unit, _, hl => ⟨.unit, hl⟩
  | .bool value, _, hl => ⟨.bool value, hl⟩
  | .int bits, _, hl => ⟨.int bits, hl⟩
  | .float bits, _, hl => ⟨.float bits, hl⟩
  | .string text, _, hl => ⟨.string text, hl⟩
  | .type ty, _, hl => by
    obtain ⟨tree, htree, hl⟩ := bind_eq_ok_iff.1 hl
    obtain ⟨ty', hty'⟩ := h ty tree htree
    exact ⟨.type ty', bind_eq_ok_iff.2 ⟨tree, hty', hl⟩⟩
  | .list items, _, hl => by
    obtain ⟨ls, hls, hl⟩ := bind_eq_ok_iff.1 hl
    obtain ⟨items', hitems'⟩ := h.exists_attributes hls
    exact ⟨.list items', bind_eq_ok_iff.2 ⟨ls, hitems', hl⟩⟩

theorem Covers.exists_attributes {T t : TypeTable} (h : T.Covers t) :
    ∀ {as : List Attribute} {ls : List Literal}, outlineAttributes t as = .ok ls →
    ∃ as', outlineAttributes T as' = .ok ls
  | [], _, hls => ⟨[], hls⟩
  | a :: as, _, hls => by
    obtain ⟨first, hfirst, hls⟩ := bind_eq_ok_iff.1 hls
    obtain ⟨rest, hrest, hls⟩ := bind_eq_ok_iff.1 hls
    obtain ⟨a', ha'⟩ := h.exists_attribute hfirst
    obtain ⟨as', has'⟩ := h.exists_attributes hrest
    exact ⟨a' :: as', bind_eq_ok_iff.2 ⟨first, ha', bind_eq_ok_iff.2 ⟨rest, has', hls⟩⟩⟩

end

theorem Covers.exists_entries {T t : TypeTable} (h : T.Covers t) :
    ∀ {es : List (String × Attribute)} {ls : List (String × Literal)},
    traverse (writtenEntry t) es = .ok ls → ∃ es', traverse (writtenEntry T) es' = .ok ls
  | [], _, hls => ⟨[], hls⟩
  | e :: es, _, hls => by
    obtain ⟨first, hfirst, hls⟩ := bind_eq_ok_iff.1 hls
    obtain ⟨rest, hrest, hls⟩ := bind_eq_ok_iff.1 hls
    obtain ⟨hvalue, hkey⟩ := writtenEntry_eq_ok_iff.1 hfirst
    obtain ⟨a, ha⟩ := h.exists_attribute hvalue
    obtain ⟨es', hes'⟩ := h.exists_entries hrest
    have hentry : writtenEntry T (e.1, a) = .ok first := writtenEntry_eq_ok_iff.2 ⟨ha, hkey⟩
    exact ⟨(e.1, a) :: es', bind_eq_ok_iff.2 ⟨first, hentry, bind_eq_ok_iff.2 ⟨rest, hes', hls⟩⟩⟩

end TypeTable

/-- Labels and attributes with the types of `t`, recoded with those of `T`.  Debug names are dropped. -/
noncomputable def Recoding.into (T t : TypeTable) : Recoding where
  attributes a := T.findAttributes (traverse (writtenEntry t) a.toList)
  label l := ⟨T.find (t.expand l.ty), none⟩
  types := T

/-- Coding a table into one that covers it is faithful. -/
theorem Recoding.faithful_into {T t : TypeTable} (h : T.Covers t) : (into T t).Faithful t where
  label {l tree} hl := by
    obtain ⟨ty, hty⟩ := h l.ty tree hl
    exact (TypeTable.expand_find ⟨ty, hty.trans hl.symm⟩).trans hl
  attributes {a entries} ha := by
    obtain ⟨es, hes⟩ := h.exists_entries ha
    -- The entries that were found have the keys of the old ones, and so they are in order.
    have hkeys : es.Pairwise fun a b => a.1 < b.1 := by
      have hold := List.pairwise_map.2 a.ascending
      rw [keys_eq_of_written ha, ← keys_eq_of_written hes] at hold
      exact List.pairwise_map.1 hold
    exact (TypeTable.written_findAttributes ⟨⟨es, hkeys⟩, hes.trans ha.symm⟩).trans ha

end Unguard
