import Unguard.Proofs.Building

/-!
# Types that can be written out

A type table keeps its entries twice, and the two sides mirror each other: an entry is found under
exactly the identifier that holds it (`TypeTable.Mirrored`).  Interning enters a new entry on both sides,
so it keeps the mirror (`TypeTable.Mirrored.intern`).

The parameters of an entry stand before it (`TypeTable.Closed`), so every type of the table can be
written out (`TypeTable.Closed.expand_ok`).  Interning only ever adds entries whose parameters are there.
A graph that was read from a text therefore names no type that is not in its table, neither in labels nor
in attributes (`Graph.typed_ofText`).
-/

namespace Unguard

/-- Steps that all succeed one by one succeed in a row. -/
theorem traverse_ok_of_forall {ε α β : Type} {f : α → Except ε β} : ∀ {as : List α},
    (∀ a ∈ as, ∃ b, f a = .ok b) → ∃ bs, traverse f as = .ok bs
  | [], _ => ⟨[], rfl⟩
  | a :: as, h => by
    rw [List.forall_mem_cons] at h
    obtain ⟨b, hb⟩ := h.1
    obtain ⟨bs, hbs⟩ := traverse_ok_of_forall h.2
    exact ⟨b :: bs, by rw [traverse, hb, ok_bind, hbs]; rfl⟩

namespace TypeTable

/-! ### The two sides of a table -/

/-- All that interning an entry can do: find it, or add it because it is not known. -/
theorem intern_cases (t : TypeTable) (entry : TypeEntry) :
    (∃ ty, t.find? entry = some ty ∧ t.intern entry = (ty, t)) ∨
      t.find? entry = none ∧ t.intern entry = (⟨t.size⟩, t.push entry) := by
  rw [intern]
  cases hfind : t.find? entry with
  | some ty => exact Or.inl ⟨ty, rfl, rfl⟩
  | none => exact Or.inr ⟨rfl, rfl⟩

/-- An entry is found under exactly the identifier that holds it. -/
def Mirrored (t : TypeTable) : Prop :=
  ∀ entry ty, t.find? entry = some ty ↔ t.get? ty = some entry

theorem mirrored_empty : empty.Mirrored := by
  intro entry ty
  simp [find?, get?, empty]

/-- A new entry is entered on both sides under one identifier, and the old ones stay as they are. -/
theorem Mirrored.push {t : TypeTable} (h : t.Mirrored) {entry : TypeEntry}
    (hnew : t.find? entry = none) : (t.push entry).Mirrored := by
  intro key ty
  rw [find?_push, get?_push]
  by_cases hkey : key = entry
  · subst hkey
    rw [if_pos rfl]
    -- Nothing before the end holds the entry, for it would have been found.
    have hold : t.get? ty ≠ some key := fun hty => nomatch hnew.symm.trans ((h key ty).2 hty)
    by_cases hty : ty.index = t.size
    · rw [if_pos hty, ← hty]
      exact iff_of_true rfl rfl
    · rw [if_neg hty]
      refine iff_of_false (fun hsize => hty ?_) hold
      rw [← Option.some.inj hsize]
  · rw [if_neg hkey, h key ty]
    by_cases hty : ty.index = t.size
    · rw [if_pos hty]
      refine iff_of_false (fun hold => ?_) fun hsame => hkey (Option.some.inj hsame).symm
      exact absurd (index_lt_of_get? hold) (hty ▸ Nat.lt_irrefl _)
    · rw [if_neg hty]

/-- Interning keeps the mirror. -/
theorem Mirrored.intern {t : TypeTable} (h : t.Mirrored) (entry : TypeEntry) :
    (t.intern entry).2.Mirrored := by
  obtain ⟨_, -, hintern⟩ | ⟨hnew, hintern⟩ := t.intern_cases entry
  · rw [hintern]
    exact h
  · rw [hintern]
    exact h.push hnew

/-- What was interned is held by its identifier. -/
theorem Mirrored.get?_intern {t : TypeTable} (h : t.Mirrored) (entry : TypeEntry) :
    (t.intern entry).2.get? (t.intern entry).1 = some entry := by
  obtain ⟨ty, hty, hintern⟩ | ⟨-, hintern⟩ := t.intern_cases entry
  · rw [hintern]
    exact (h entry ty).1 hty
  · rw [hintern, get?_push, if_pos rfl]

/-! ### Parameters -/

/-- The parameters of every entry stand before it, and the table mirrors its entries. -/
structure Closed (t : TypeTable) : Prop where
  before : ∀ ty entry, t.get? ty = some entry → ∀ p ∈ entry.params, p.index < ty.index
  mirrored : t.Mirrored

theorem closed_empty : empty.Closed :=
  ⟨fun ty entry h => by simp [get?, empty] at h, mirrored_empty⟩

/-- Parameters come before their type, so its own index is enough depth for writing it out. -/
theorem Closed.expandTo_ok {t : TypeTable} (h : t.Closed) : ∀ {depth : Nat} {ty : TypeId},
    ty.index < depth → ty.index < t.size → ∃ tree, t.expandTo depth ty = .ok tree
  | depth + 1, ty, hdepth, hsize => by
    obtain ⟨entry, hentry⟩ : ∃ entry, t.get? ty = some entry :=
      ⟨_, Array.getElem?_eq_getElem hsize⟩
    obtain ⟨params, hparams⟩ : ∃ trees, traverse (t.expandTo depth) entry.params = .ok trees := by
      refine traverse_ok_of_forall fun p hp => ?_
      have hlt := h.before ty entry hentry p hp
      exact h.expandTo_ok (Nat.lt_of_lt_of_le hlt (Nat.le_of_lt_succ hdepth))
        (Nat.lt_trans hlt hsize)
    refine ⟨.mk entry.dialect entry.name params, ?_⟩
    simp only [expandTo, hentry, hparams]
    rfl

/-- A type of the table can be written out. -/
theorem Closed.expand_ok {t : TypeTable} (h : t.Closed) {ty : TypeId} (hty : ty.index < t.size) :
    ∃ tree, t.expand ty = .ok tree :=
  h.expandTo_ok (Nat.lt_succ_of_lt hty) hty

/-! ### Interning -/

/-- A table with the entries of another and maybe more. -/
structure Grown (t t' : TypeTable) : Prop where
  closed : t'.Closed
  le : t.size ≤ t'.size

theorem Grown.trans {t t' t'' : TypeTable} (h : Grown t t') (h' : Grown t' t'') : Grown t t'' :=
  ⟨h'.closed, Nat.le_trans h.le h'.le⟩

/-- A type whose parameters are in the table may be put into it. -/
theorem Closed.intern {t : TypeTable} (h : t.Closed) (entry : TypeEntry)
    (hparams : ∀ p ∈ entry.params, p.index < t.size) :
    Grown t (t.intern entry).2 ∧ (t.intern entry).1.index < (t.intern entry).2.size := by
  obtain ⟨ty, hty, hintern⟩ | ⟨hnew, hintern⟩ := t.intern_cases entry
  · rw [hintern]
    exact ⟨⟨h, Nat.le_refl _⟩, index_lt_of_get? ((h.mirrored entry ty).1 hty)⟩
  · have hsize : t.size < (t.push entry).size := by simp
    rw [hintern]
    refine ⟨⟨⟨?_, h.mirrored.push hnew⟩, Nat.le_of_lt hsize⟩, hsize⟩
    intro ty found hfound p hp
    rw [get?_push] at hfound
    split at hfound
    · rename_i heq
      obtain rfl := Option.some.inj hfound
      exact heq ▸ hparams p hp
    · exact h.before ty found hfound p hp

mutual

/-- Parameters are interned before their type, so they are in the table when it is. -/
theorem Closed.internTree : ∀ {t : TypeTable} (_ : t.Closed) (tree : TypeTree),
    Grown t (t.internTree tree).2 ∧ (t.internTree tree).1.index < (t.internTree tree).2.size
  | t, h, .mk dialect name params => by
    obtain ⟨hgrown, hids⟩ := Closed.internTrees h params
    obtain ⟨hgrown', hid⟩ := hgrown.closed.intern ⟨dialect, name, (t.internTrees params).1⟩ hids
    exact ⟨hgrown.trans hgrown', hid⟩

theorem Closed.internTrees : ∀ {t : TypeTable} (_ : t.Closed) (trees : List TypeTree),
    Grown t (t.internTrees trees).2 ∧
      ∀ ty ∈ (t.internTrees trees).1, ty.index < (t.internTrees trees).2.size
  | t, h, [] => ⟨⟨h, Nat.le_refl _⟩, fun _ hty => nomatch hty⟩
  | t, h, tree :: trees => by
    obtain ⟨hgrown, hid⟩ := Closed.internTree h tree
    obtain ⟨hgrown', hids⟩ := Closed.internTrees hgrown.closed trees
    exact ⟨hgrown.trans hgrown', List.forall_mem_cons.2 ⟨Nat.lt_of_lt_of_le hid hgrown'.le, hids⟩⟩

end

end TypeTable

/-! ### Attributes -/

mutual

/-- Every type in an attribute is one of the first `size`. -/
def Attribute.Within (size : Nat) : Attribute → Prop
  | .type ty => ty.index < size
  | .list items => Attribute.AllWithin size items
  | .unit | .bool _ | .int _ | .float _ | .string _ => True

@[inherit_doc Attribute.Within]
def Attribute.AllWithin (size : Nat) : List Attribute → Prop
  | [] => True
  | item :: items => item.Within size ∧ Attribute.AllWithin size items

end

mutual

theorem Attribute.Within.mono {size size' : Nat} (hle : size ≤ size') : ∀ {a : Attribute},
    a.Within size → a.Within size'
  | .type _, h => Nat.lt_of_lt_of_le h hle
  | .list _, h => Attribute.AllWithin.mono hle h
  | .unit, _ | .bool _, _ | .int _, _ | .float _, _ | .string _, _ => trivial

theorem Attribute.AllWithin.mono {size size' : Nat} (hle : size ≤ size') : ∀ {as : List Attribute},
    Attribute.AllWithin size as → Attribute.AllWithin size' as
  | [], _ => trivial
  | _ :: _, ⟨h, hs⟩ => ⟨h.mono hle, Attribute.AllWithin.mono hle hs⟩

end

/-- Every type in the attributes is one of the first `size`. -/
def Attributes.Within (size : Nat) (a : Attributes) : Prop :=
  ∀ e ∈ a.toList, e.2.Within size

/-- Nothing is in the list but what was there and the new entry. -/
theorem Attributes.mem_insertInto {key : String} {value : Attribute} {x : String × Attribute} :
    ∀ {es : List (String × Attribute)}, x ∈ insertInto key value es → x = (key, value) ∨ x ∈ es
  | [], h => Or.inl (List.mem_singleton.1 h)
  | e :: es, h => by
    rw [insertInto] at h
    split at h
    · exact List.mem_cons.1 h
    · split at h
      · rcases List.mem_cons.1 h with rfl | h
        · exact Or.inr List.mem_cons_self
        · exact (mem_insertInto h).imp_right (List.mem_cons_of_mem _)
      · exact (List.mem_cons.1 h).imp_right (List.mem_cons_of_mem _)

/-- A table of attributes has no types but those of its entries. -/
theorem Attributes.within_ofList {size : Nat} {es : List (String × Attribute)}
    (h : ∀ e ∈ es, e.2.Within size) : (Attributes.ofList es).Within size := by
  have hfold : ∀ (es : List (String × Attribute)) (a : Attributes), a.Within size →
      (∀ e ∈ es, e.2.Within size) →
      (es.foldl (fun a e => a.insert e.1 e.2) a).Within size := by
    intro es
    induction es with
    | nil => exact fun a ha _ => ha
    | cons e es ih =>
      intro a ha hes
      rw [List.forall_mem_cons] at hes
      refine ih _ (fun x hx => ?_) hes.2
      rcases Attributes.mem_insertInto hx with rfl | hx
      · exact hes.1
      · exact ha x hx
  exact hfold es .empty (fun _ hx => nomatch hx) h

/-! ### What a text names -/

namespace Text

open TypeTable

mutual

/-- The types of an attribute are in the table that interning leaves. -/
theorem Literal.grown_intern : ∀ {t : TypeTable} (_ : t.Closed) (l : Literal),
    Grown t (l.intern t).2 ∧ (l.intern t).1.Within (l.intern t).2.size
  | _, h, .unit | _, h, .bool _ | _, h, .int _ | _, h, .float _ | _, h, .string _ =>
    ⟨⟨h, Nat.le_refl _⟩, trivial⟩
  | _, h, .type ty => h.internTree ty
  | _, h, .list items => Literal.grown_internAll h items

theorem Literal.grown_internAll : ∀ {t : TypeTable} (_ : t.Closed) (ls : List Literal),
    Grown t (Literal.internAll t ls).2 ∧
      Attribute.AllWithin (Literal.internAll t ls).2.size (Literal.internAll t ls).1
  | t, h, [] => ⟨⟨h, Nat.le_refl _⟩, trivial⟩
  | t, h, l :: ls => by
    obtain ⟨hgrown, hfirst⟩ := Literal.grown_intern h l
    obtain ⟨hgrown', hrest⟩ := Literal.grown_internAll hgrown.closed ls
    exact ⟨hgrown.trans hgrown', hfirst.mono hgrown'.le, hrest⟩

end

theorem grown_internAttributes : ∀ {t : TypeTable} (_ : t.Closed) (es : List (String × Literal)),
    Grown t (internAttributes t es).2 ∧
      ∀ e ∈ (internAttributes t es).1, e.2.Within (internAttributes t es).2.size
  | t, h, [] => ⟨⟨h, Nat.le_refl _⟩, fun _ he => nomatch he⟩
  | t, h, (key, value) :: es => by
    obtain ⟨hgrown, hfirst⟩ := Literal.grown_intern h value
    obtain ⟨hgrown', hrest⟩ := grown_internAttributes hgrown.closed es
    exact ⟨hgrown.trans hgrown', List.forall_mem_cons.2 ⟨hfirst.mono hgrown'.le, hrest⟩⟩

theorem grown_internLabels : ∀ {t : TypeTable} (_ : t.Closed) (ms : List Mention)
    (tys : List TypeTree), Grown t (internLabels t ms tys).2 ∧
      ∀ l ∈ (internLabels t ms tys).1, l.ty.index < (internLabels t ms tys).2.size
  | t, h, [], _ | t, h, _ :: _, [] => ⟨⟨h, Nat.le_refl _⟩, fun _ hl => nomatch hl⟩
  | t, h, m :: ms, ty :: tys => by
    obtain ⟨hgrown, hfirst⟩ := h.internTree ty
    obtain ⟨hgrown', hrest⟩ := grown_internLabels hgrown.closed ms tys
    exact ⟨hgrown.trans hgrown',
      List.forall_mem_cons.2 ⟨Nat.lt_of_lt_of_le hfirst hgrown'.le, hrest⟩⟩

end Text

namespace Graph

open TypeTable

/-- Labels and attributes name types of the graph's table only. -/
structure Typed (g : Graph) : Prop where
  closed : g.types.Closed
  label : ∀ v value, g.value? v = some value → value.label.ty.index < g.types.size
  attributes : ∀ n node, g.node? n = some node → node.attributes.Within g.types.size

theorem typed_empty : empty.Typed where
  closed := TypeTable.closed_empty
  label := fun _ _ h => nomatch h
  attributes := fun _ _ h => nomatch h

theorem typed_void : void.Typed :=
  ⟨typed_empty.closed, typed_empty.label, typed_empty.attributes⟩

namespace Typed

variable {g : Graph}

/-- A larger table has all types that a smaller one has. -/
theorem withTypes (h : g.Typed) {types : TypeTable} (hgrown : Grown g.types types) :
    { g with types }.Typed where
  closed := hgrown.closed
  label v value hv := Nat.lt_of_lt_of_le (h.label v value hv) hgrown.le
  attributes n node hn e he := (h.attributes n node hn e he).mono hgrown.le

theorem newBlock (h : g.Typed) : g.newBlock.2.Typed :=
  ⟨h.closed, h.label, h.attributes⟩

theorem allocParam (h : g.Typed) (b : BlockId) {label : Label}
    (hlabel : label.ty.index < g.types.size) : (g.allocParam b label).2.Typed where
  closed := h.closed
  label v value hv := by
    rw [value?_allocParam] at hv
    split at hv
    · obtain rfl := Option.some.inj hv
      exact hlabel
    · exact h.label v value hv
  attributes := h.attributes

/-- The types of new values, and those in the attributes of the node, have to be in the table. -/
theorem allocNode (h : g.Typed) (spec : NodeSpec)
    (hlabels : ∀ l ∈ spec.outputs, l.ty.index < g.types.size)
    (hattributes : spec.attributes.Within g.types.size) : (g.allocNode spec).2.Typed where
  closed := h.closed
  label v value hv := by
    by_cases hlt : v.index < g.values.size
    · rw [value?_allocNode_of_lt _ _ hlt] at hv
      exact h.label v value hv
    · have hsize := index_lt_of_value? _ hv
      rw [size_values_allocNode] at hsize
      obtain ⟨i, hi⟩ := Nat.exists_eq_add_of_le (Nat.not_lt.1 hlt)
      have hv' := value?_allocNode_output g spec (i := i) (by omega)
      rw [← hi] at hv'
      obtain rfl := Option.some.inj (hv.symm.trans hv')
      exact hlabels _ (List.getElem_mem _)
  attributes n node hn := by
    rw [node?_allocNode] at hn
    split at hn
    · obtain rfl := Option.some.inj hn
      exact hattributes
    · exact h.attributes n node hn

theorem attachLast (h : g.Typed) (b : BlockId) (n : NodeId) : (g.attachLast b n).Typed where
  closed := h.closed
  label := h.label
  attributes m node hm := by
    rw [node?_attachLast] at hm
    split at hm
    · obtain ⟨before, hbefore, rfl⟩ := Option.map_eq_some_iff.1 hm
      exact h.attributes m before hbefore
    · exact h.attributes m node hm

theorem assignReturns (h : g.Typed) (b : BlockId) (values : List ValueId) :
    (g.assignReturns b values).Typed where
  closed := by
    rw [types_assignReturns]
    exact h.closed
  label v value hv := by
    rw [value?_assignReturns] at hv
    rw [types_assignReturns]
    exact h.label v value hv
  attributes n node hn := by
    rw [node?_assignReturns] at hn
    rw [types_assignReturns]
    exact h.attributes n node hn

end Typed

end Graph

namespace Text

open Unguard.Graph

theorem NodeDraft.grown_interned {g : Graph} (ht : g.Typed) (d : NodeDraft) :
    g.types.Grown (d.interned g.types) := by
  have hgrown := (grown_internAttributes ht.closed d.attributes).1
  exact hgrown.trans (grown_internLabels hgrown.closed d.results d.types).1

theorem NodeDraft.typed_interned {g : Graph} (ht : g.Typed) (d : NodeDraft) :
    Graph.Typed { g with types := d.interned g.types } :=
  ht.withTypes (d.grown_interned ht)

/-- A node that is made from a draft is typed, once the types of the draft are interned. -/
theorem typed_withNode {g g₁ : Graph} (ht : g.Typed) (ht₁ : g₁.Typed) {d : NodeDraft}
    (hle : (d.interned g.types).size ≤ g₁.types.size) (inputs : List ValueId) (blocks : List BlockId)
    (b : BlockId) : (withNode g₁ (d.spec g.types inputs blocks) b).Typed := by
  obtain ⟨hgrown, hattributes⟩ := grown_internAttributes ht.closed d.attributes
  obtain ⟨hgrown', hlabels⟩ := grown_internLabels hgrown.closed d.results d.types
  refine Typed.attachLast (ht₁.allocNode _ ?_ ?_) _ _
  · exact fun l hl => Nat.lt_of_lt_of_le (hlabels l hl) hle
  · refine Attributes.within_ofList fun e he => ?_
    exact (hattributes e he).mono (Nat.le_trans hgrown'.le hle)

/-- Every parameter interns its type first, then gets its label. -/
theorem typed_buildParams : ∀ {params : List (Mention × TypeTree)} {g g' : Graph}
    {scope scope' : Scope} {b : BlockId}, g.Typed →
    buildParams g scope b params = .ok (g', scope') → g'.Typed ∧ g.types.size ≤ g'.types.size
  | [], g, g', scope, scope', b, ht, h => by
    cases h
    exact ⟨ht, Nat.le_refl _⟩
  | (m, ty) :: params, g, g', scope, scope', b, ht, h => by
    rw [buildParams] at h
    obtain ⟨scope₁, -, h⟩ := bind_eq_ok_iff.1 h
    obtain ⟨hgrown, hlabel⟩ := ht.closed.internTree ty
    obtain ⟨ht', hle⟩ := typed_buildParams ((ht.withTypes hgrown).allocParam b hlabel) h
    exact ⟨ht', Nat.le_trans hgrown.le hle⟩

mutual

/-- Whatever is built, the table has the types of all that is there. -/
theorem typed_buildNodes : ∀ {draft : BodyDraft} {g g' : Graph} {scope scope' : Scope} {b : BlockId},
    g.Typed → buildNodes g scope b draft = .ok (g', scope') → g'.Typed ∧ g.types.size ≤ g'.types.size
  | .done, g, g', scope, scope', b, ht, h => by
    cases h
    exact ⟨ht, Nat.le_refl _⟩
  | .node head arms rest, g, g', scope, scope', b, ht, h => by
    obtain ⟨-, inputs, -, blocks, g₁, harms, scope₁, -, h⟩ := buildNodes_node_iff.1 h
    obtain ⟨ht₁, hle₁⟩ := typed_buildArms (head.typed_interned ht) harms
    obtain ⟨ht₂, hle₂⟩ := typed_buildNodes (typed_withNode ht ht₁ hle₁ _ _ b) h
    exact ⟨ht₂, Nat.le_trans (Nat.le_trans (head.grown_interned ht).le hle₁) hle₂⟩

theorem typed_buildArms : ∀ {draft : ArmsDraft} {g g' : Graph} {scope : Scope}
    {blocks : List BlockId}, g.Typed → buildArms g scope draft = .ok (blocks, g') →
    g'.Typed ∧ g.types.size ≤ g'.types.size
  | .done, g, g', scope, blocks, ht, h => by
    cases h
    exact ⟨ht, Nat.le_refl _⟩
  | .arm head body rest, g, g', scope, blocks, ht, h => by
    obtain ⟨g₁, scope₁, hparams, g₂, scope₂, hbody, returns, -, more, hrest, -⟩ :=
      buildArms_arm_iff.1 h
    obtain ⟨ht₁, hle₁⟩ := typed_buildParams ht.newBlock hparams
    obtain ⟨ht₂, hle₂⟩ := typed_buildNodes ht₁ hbody
    obtain ⟨ht₃, hle₃⟩ := typed_buildArms (ht₂.assignReturns _ _) hrest
    rw [types_assignReturns] at hle₃
    exact ⟨ht₃, Nat.le_trans (Nat.le_trans hle₁ hle₂) hle₃⟩

end

end Text

/-- A graph that was read names types of its table only. -/
theorem Graph.typed_ofText {source : String} {g : Graph} (h : Graph.ofText source = .ok g) :
    g.Typed := by
  rw [Graph.ofText] at h
  obtain ⟨draft, -, h⟩ := bind_eq_ok_iff.1 h
  exact (Text.typed_buildArms typed_void (Text.GraphDraft.build_eq_ok_iff.1 h)).1

end Unguard
