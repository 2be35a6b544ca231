import Mathlib.Data.List.Forall2
import Unguard.Proofs.Printing

/-!
# Interning is undone by writing out

A type table only ever grows: interning keeps the entries that are there (`TypeTable.Kept`), and what
could be written out before is written out the same afterwards.  A type that was interned is written
out as the tree it was (`Closed.expand_internTree`), and so are constants (`outlineAttribute_intern`)
and the labels of values (`traverse_expand_internLabels`).  What is interned again is found, and the
table stays as it is (`Prolonged.internTree_eq`).
-/

namespace Unguard

section Traverse

variable {ε α β : Type} {f f' : α → Except ε β} {as : List α} {bs : List β}

/-- A traversal that succeeds relates the items to the results one by one. -/
theorem traverse_eq_ok_iff :
    traverse f as = .ok bs ↔ List.Forall₂ (fun a b => f a = .ok b) as bs := by
  induction as generalizing bs with
  | nil =>
    rw [List.forall₂_nil_left_iff]
    exact ⟨fun h => (Except.ok.inj h).symm, fun h => h ▸ rfl⟩
  | cons a as ih =>
    rw [traverse, List.forall₂_cons_left_iff]
    constructor
    · intro h
      obtain ⟨b, hb, h⟩ := bind_eq_ok_iff.1 h
      obtain ⟨bs', hbs, h⟩ := bind_eq_ok_iff.1 h
      exact ⟨b, bs', hb, ih.1 hbs, (Except.ok.inj h).symm⟩
    · rintro ⟨b, bs', hb, hbs, rfl⟩
      rw [hb, ok_bind, ih.2 hbs]
      rfl

theorem traverse_mono (h : ∀ a b, f a = .ok b → f' a = .ok b) (has : traverse f as = .ok bs) :
    traverse f' as = .ok bs :=
  traverse_eq_ok_iff.2 ((traverse_eq_ok_iff.1 has).imp h)

theorem traverse_cons {a : α} {b : β} (ha : f a = .ok b) (has : traverse f as = .ok bs) :
    traverse f (a :: as) = .ok (b :: bs) :=
  traverse_eq_ok_iff.2 (.cons ha (traverse_eq_ok_iff.1 has))

end Traverse

namespace TypeTable

variable {t t' t'' : TypeTable}

/-- The entries of `t` are entries of `t'`. -/
def Kept (t t' : TypeTable) : Prop :=
  ∀ ty entry, t.get? ty = some entry → t'.get? ty = some entry

theorem Kept.refl (t : TypeTable) : Kept t t :=
  fun _ _ h => h

theorem Kept.trans (h : Kept t t') (h' : Kept t' t'') : Kept t t'' :=
  fun ty entry hty => h' ty entry (h ty entry hty)

/-- A table that keeps the entries of another one is no smaller. -/
theorem Kept.size_le (h : Kept t t') : t.size ≤ t'.size := by
  by_contra hlt
  have hlast : t'.size < t.entries.size := Nat.lt_of_not_le hlt
  -- The entry of `t` at the end of `t'` would have to be there in `t'` as well.
  have hget := h ⟨t'.size⟩ _ (Array.getElem?_eq_getElem hlast)
  have hnone : t'.get? ⟨t'.size⟩ = none := Array.getElem?_eq_none (Nat.le_refl _)
  rw [hnone] at hget
  exact nomatch hget

/-! ### Writing out in a larger table -/

/-- A type that can be written out is written the same in a larger table, and with more depth. -/
theorem expandTo_mono (h : Kept t t') {depth depth' : Nat} (hle : depth ≤ depth') {ty : TypeId}
    {tree : TypeTree} (hty : t.expandTo depth ty = .ok tree) : t'.expandTo depth' ty = .ok tree := by
  induction depth generalizing depth' ty tree with
  | zero => cases hty
  | succ depth ih =>
    obtain ⟨depth', rfl⟩ := Nat.exists_eq_add_of_le' (Nat.le_trans (Nat.le_add_left 1 depth) hle)
    cases hentry : t.get? ty with
    | none =>
      simp only [expandTo, hentry] at hty
      cases hty
    | some entry =>
      simp only [expandTo, hentry] at hty
      obtain ⟨params, hparams, hty⟩ := bind_eq_ok_iff.1 hty
      have hparams' : traverse (t'.expandTo depth') entry.params = .ok params := by
        refine traverse_mono (fun p tree hp => ?_) hparams
        exact ih (Nat.le_of_succ_le_succ hle) hp
      simp only [expandTo, h ty entry hentry, hparams']
      exact hty

theorem Kept.expand (h : Kept t t') {ty : TypeId} {tree : TypeTree} (hty : t.expand ty = .ok tree) :
    t'.expand ty = .ok tree :=
  expandTo_mono h (Nat.succ_le_succ h.size_le) hty

/-- Only what is in the table can be written out. -/
theorem index_lt_of_expand {ty : TypeId} {tree : TypeTree} (h : t.expand ty = .ok tree) :
    ty.index < t.size := by
  unfold expand at h
  rw [expandTo] at h
  split at h
  · cases h
  · rename_i entry hentry
    exact index_lt_of_get? hentry

/-- A type is written out by its entry. -/
theorem Closed.expand_of_get? (h : t.Closed) {ty : TypeId} {entry : TypeEntry}
    (hentry : t.get? ty = some entry) {params : List TypeTree}
    (hparams : traverse t.expand entry.params = .ok params) :
    t.expand ty = .ok (.mk entry.dialect entry.name params) := by
  have hsize : ty.index < t.size := index_lt_of_get? hentry
  -- A parameter stands before its type, so one level less is enough for it.
  have hless : traverse (t.expandTo t.size) entry.params = .ok params := by
    rw [← hparams]
    refine traverse_congr fun p hp => ?_
    have hlt := Nat.lt_trans (h.before ty entry hentry p hp) hsize
    obtain ⟨tree, htree⟩ := h.expandTo_ok hlt hlt
    rw [htree]
    exact (expandTo_mono (Kept.refl t) (Nat.le_succ _) htree).symm
  rw [expand, expandTo]
  simp only [hentry, hless]
  rfl

/-! ### Interning -/

/-- Interning changes no entry that is there. -/
theorem kept_intern (t : TypeTable) (entry : TypeEntry) : Kept t (t.intern entry).2 := by
  obtain ⟨_, -, hintern⟩ | ⟨-, hintern⟩ := t.intern_cases entry
  · rw [hintern]
    exact Kept.refl t
  · rw [hintern]
    intro ty found hfound
    have hlt : ty.index < t.size := index_lt_of_get? hfound
    rw [get?_push, if_neg (Nat.ne_of_lt hlt)]
    exact hfound

mutual

theorem kept_internTree : ∀ (t : TypeTable) (tree : TypeTree), Kept t (t.internTree tree).2
  | t, .mk dialect name params =>
    (kept_internTrees t params).trans (kept_intern _ ⟨dialect, name, (t.internTrees params).1⟩)

theorem kept_internTrees : ∀ (t : TypeTable) (trees : List TypeTree), Kept t (t.internTrees trees).2
  | t, [] => Kept.refl t
  | t, tree :: trees => (kept_internTree t tree).trans (kept_internTrees _ trees)

end

mutual

/-- A type that was interned is written out as it was. -/
theorem Closed.expand_internTree : ∀ {t : TypeTable} (_ : t.Closed) (tree : TypeTree),
    (t.internTree tree).2.expand (t.internTree tree).1 = .ok tree
  | t, h, .mk dialect name params => by
    obtain ⟨hgrown, hids⟩ := h.internTrees params
    have hentry := hgrown.closed.mirrored.get?_intern ⟨dialect, name, (t.internTrees params).1⟩
    have hkept := kept_intern (t.internTrees params).2 ⟨dialect, name, (t.internTrees params).1⟩
    refine (hgrown.closed.intern ⟨dialect, name, (t.internTrees params).1⟩ hids).1.closed.expand_of_get?
      hentry ?_
    exact traverse_mono (fun _ _ hp => hkept.expand hp) (h.traverse_expand_internTrees params)

/-- What was interned first is still written the same when the others have been interned. -/
theorem Closed.traverse_expand_internTrees : ∀ {t : TypeTable} (_ : t.Closed) (trees : List TypeTree),
    traverse (t.internTrees trees).2.expand (t.internTrees trees).1 = .ok trees
  | t, h, [] => rfl
  | t, h, tree :: trees => by
    have hclosed := (h.internTree tree).1.closed
    have hkept := kept_internTrees (t.internTree tree).2 trees
    exact traverse_cons (hkept.expand (h.expand_internTree tree))
      (hclosed.traverse_expand_internTrees trees)

end

/-! ### Interning again -/

/-- What is known in `t` is known in `t'` under the same identifier. -/
def Prolonged (t t' : TypeTable) : Prop :=
  ∀ entry ty, t.find? entry = some ty → t'.find? entry = some ty

theorem Prolonged.refl (t : TypeTable) : Prolonged t t :=
  fun _ _ h => h

theorem Prolonged.trans (h : Prolonged t t') (h' : Prolonged t' t'') : Prolonged t t'' :=
  fun entry ty hty => h' entry ty (h entry ty hty)

/-- What is found in the index is found there with the same id after any call. -/
theorem prolonged_intern (t : TypeTable) (entry : TypeEntry) : Prolonged t (t.intern entry).2 := by
  obtain ⟨_, -, hintern⟩ | ⟨hnew, hintern⟩ := t.intern_cases entry
  · rw [hintern]
    exact Prolonged.refl t
  · rw [hintern]
    intro key ty hty
    -- The entry that is added was not known, so it is not the key.
    have hne : key ≠ entry := by
      rintro rfl
      exact nomatch hnew.symm.trans hty
    rw [find?_push, if_neg hne]
    exact hty

/-- What was interned is found again. -/
theorem find?_intern (t : TypeTable) (entry : TypeEntry) :
    (t.intern entry).2.find? entry = some (t.intern entry).1 := by
  obtain ⟨_, hty, hintern⟩ | ⟨-, hintern⟩ := t.intern_cases entry
  · rw [hintern]
    exact hty
  · rw [hintern, find?_push, if_pos rfl]

/-- An entry that was interned is found again, and nothing is added. -/
theorem Prolonged.intern_eq {entry : TypeEntry} (h : Prolonged (t.intern entry).2 t') :
    t'.intern entry = ((t.intern entry).1, t') := by
  rw [TypeTable.intern, h _ _ (t.find?_intern entry)]

mutual

theorem prolonged_internTree : ∀ (t : TypeTable) (tree : TypeTree), Prolonged t (t.internTree tree).2
  | t, .mk dialect name params =>
    (prolonged_internTrees t params).trans
      (prolonged_intern _ ⟨dialect, name, (t.internTrees params).1⟩)

theorem prolonged_internTrees : ∀ (t : TypeTable) (trees : List TypeTree),
    Prolonged t (t.internTrees trees).2
  | t, [] => Prolonged.refl t
  | t, tree :: trees => (prolonged_internTree t tree).trans (prolonged_internTrees _ trees)

end

mutual

/-- A type that was interned is found again, whatever was interned since. -/
theorem Prolonged.internTree_eq : ∀ {t t' : TypeTable} {tree : TypeTree},
    Prolonged (t.internTree tree).2 t' → t'.internTree tree = ((t.internTree tree).1, t')
  | t, t', .mk dialect name params, h => by
    have hparams : t'.internTrees params = ((t.internTrees params).1, t') :=
      Prolonged.internTrees_eq ((prolonged_intern _ _).trans h)
    rw [TypeTable.internTree, hparams]
    exact Prolonged.intern_eq h

/-- Interning several types again gives the ids they have, as long as the table has only grown since. -/
theorem Prolonged.internTrees_eq : ∀ {t t' : TypeTable} {trees : List TypeTree},
    Prolonged (t.internTrees trees).2 t' → t'.internTrees trees = ((t.internTrees trees).1, t')
  | t, t', [], _ => rfl
  | t, t', tree :: trees, h => by
    have htree : t'.internTree tree = ((t.internTree tree).1, t') :=
      Prolonged.internTree_eq ((prolonged_internTrees _ trees).trans h)
    have htrees : t'.internTrees trees = (((t.internTree tree).2.internTrees trees).1, t') :=
      Prolonged.internTrees_eq h
    rw [TypeTable.internTrees, htree]
    dsimp only
    rw [htrees]
    rfl

end

end TypeTable

namespace Text

open TypeTable

/-! ### Constants -/

mutual

/-- A constant is written the same in a larger table. -/
theorem Kept.outlineAttribute {t t' : TypeTable} (h : Kept t t') : ∀ {a : Attribute} {l : Literal},
    outlineAttribute t a = .ok l → outlineAttribute t' a = .ok l
  | .unit, _, ha | .bool _, _, ha | .int _, _, ha | .float _, _, ha | .string _, _, ha => ha
  | .type ty, l, ha => by
    rw [Text.outlineAttribute] at ha ⊢
    obtain ⟨tree, htree, ha⟩ := bind_eq_ok_iff.1 ha
    rw [h.expand htree]
    exact ha
  | .list items, l, ha => by
    rw [Text.outlineAttribute] at ha ⊢
    obtain ⟨ls, hls, ha⟩ := bind_eq_ok_iff.1 ha
    rw [Kept.outlineAttributes h hls]
    exact ha

theorem Kept.outlineAttributes {t t' : TypeTable} (h : Kept t t') : ∀ {as : List Attribute}
    {ls : List Literal}, outlineAttributes t as = .ok ls → outlineAttributes t' as = .ok ls
  | [], _, has => has
  | a :: as, ls, has => by
    rw [Text.outlineAttributes] at has ⊢
    obtain ⟨first, hfirst, has⟩ := bind_eq_ok_iff.1 has
    obtain ⟨rest, hrest, has⟩ := bind_eq_ok_iff.1 has
    rw [Kept.outlineAttribute h hfirst, ok_bind, Kept.outlineAttributes h hrest]
    exact has

end

mutual

theorem Literal.kept_intern : ∀ (t : TypeTable) (l : Literal), Kept t (l.intern t).2
  | t, .unit | t, .bool _ | t, .int _ | t, .float _ | t, .string _ => Kept.refl t
  | t, .type ty => kept_internTree t ty
  | t, .list items => Literal.kept_internAll t items

theorem Literal.kept_internAll : ∀ (t : TypeTable) (ls : List Literal),
    Kept t (Literal.internAll t ls).2
  | t, [] => Kept.refl t
  | t, l :: ls => (Literal.kept_intern t l).trans (Literal.kept_internAll _ ls)

end

mutual

/-- A constant that was interned is written out as it was. -/
theorem outlineAttribute_intern : ∀ {t : TypeTable} (_ : t.Closed) (l : Literal),
    outlineAttribute (l.intern t).2 (l.intern t).1 = .ok l
  | _, _, .unit | _, _, .bool _ | _, _, .int _ | _, _, .float _ | _, _, .string _ => rfl
  | t, h, .type ty => by
    rw [Literal.intern, outlineAttribute]
    dsimp only
    rw [h.expand_internTree ty]
    rfl
  | t, h, .list items => by
    rw [Literal.intern, outlineAttribute]
    dsimp only
    rw [outlineAttributes_internAll h items]
    rfl

/-- The types in later constants do not change how earlier ones are written. -/
theorem outlineAttributes_internAll : ∀ {t : TypeTable} (_ : t.Closed) (ls : List Literal),
    outlineAttributes (Literal.internAll t ls).2 (Literal.internAll t ls).1 = .ok ls
  | _, _, [] => rfl
  | t, h, l :: ls => by
    have hclosed := (Literal.grown_intern h l).1.closed
    have hkept := Literal.kept_internAll (l.intern t).2 ls
    rw [Literal.internAll, outlineAttributes]
    dsimp only
    rw [Kept.outlineAttribute hkept (outlineAttribute_intern h l), ok_bind,
      outlineAttributes_internAll hclosed ls]
    rfl

end

mutual

theorem Literal.prolonged_intern : ∀ (t : TypeTable) (l : Literal), Prolonged t (l.intern t).2
  | t, .unit | t, .bool _ | t, .int _ | t, .float _ | t, .string _ => Prolonged.refl t
  | t, .type ty => prolonged_internTree t ty
  | t, .list items => Literal.prolonged_internAll t items

theorem Literal.prolonged_internAll : ∀ (t : TypeTable) (ls : List Literal),
    Prolonged t (Literal.internAll t ls).2
  | t, [] => Prolonged.refl t
  | t, l :: ls => (Literal.prolonged_intern t l).trans (Literal.prolonged_internAll _ ls)

end

mutual

/-- A constant that was interned gives the same attribute again, and nothing is added. -/
theorem Literal.intern_eq_of_prolonged : ∀ {t t' : TypeTable} {l : Literal},
    Prolonged (l.intern t).2 t' → l.intern t' = ((l.intern t).1, t')
  | _, _, .unit, _ | _, _, .bool _, _ | _, _, .int _, _ | _, _, .float _, _ | _, _, .string _, _ => rfl
  | t, t', .type ty, h => by
    have hty : t'.internTree ty = ((t.internTree ty).1, t') := Prolonged.internTree_eq h
    rw [Literal.intern, hty]
    rfl
  | t, t', .list items, h => by
    have hitems : Literal.internAll t' items = ((Literal.internAll t items).1, t') :=
      Literal.internAll_eq_of_prolonged h
    rw [Literal.intern, hitems]
    rfl

/-- Constants that are interned again give the same attributes and no new type. -/
theorem Literal.internAll_eq_of_prolonged : ∀ {t t' : TypeTable} {ls : List Literal},
    Prolonged (Literal.internAll t ls).2 t' →
      Literal.internAll t' ls = ((Literal.internAll t ls).1, t')
  | _, _, [], _ => rfl
  | t, t', l :: ls, h => by
    have hfirst : l.intern t' = ((l.intern t).1, t') :=
      Literal.intern_eq_of_prolonged ((Literal.prolonged_internAll _ ls).trans h)
    have hrest : Literal.internAll t' ls = ((Literal.internAll (l.intern t).2 ls).1, t') :=
      Literal.internAll_eq_of_prolonged h
    rw [Literal.internAll, hfirst]
    dsimp only
    rw [hrest]
    rfl

end

/-- An attribute under its key, with its types written out. -/
def writtenEntry (t : TypeTable) (e : String × Attribute) : Except Fault (String × Literal) := do
  let value ← outlineAttribute t e.2
  return (e.1, value)

theorem writtenEntry_eq_ok_iff {t : TypeTable} {e : String × Attribute} {l : String × Literal} :
    writtenEntry t e = .ok l ↔ outlineAttribute t e.2 = .ok l.2 ∧ e.1 = l.1 := by
  constructor
  · intro h
    obtain ⟨value, hvalue, h⟩ := bind_eq_ok_iff.1 h
    obtain rfl := Except.ok.inj h
    exact ⟨hvalue, rfl⟩
  · rintro ⟨hvalue, hkey⟩
    rw [writtenEntry, hvalue, hkey]
    rfl

theorem Kept.writtenEntry {t t' : TypeTable} (h : Kept t t') {e : String × Attribute}
    {l : String × Literal} (he : writtenEntry t e = .ok l) : writtenEntry t' e = .ok l := by
  rw [writtenEntry_eq_ok_iff] at he ⊢
  exact ⟨Kept.outlineAttribute h he.1, he.2⟩

theorem kept_internAttributes : ∀ (t : TypeTable) (es : List (String × Literal)),
    Kept t (internAttributes t es).2
  | t, [] => Kept.refl t
  | t, (_, value) :: es => (Literal.kept_intern t value).trans (kept_internAttributes _ es)

/-- Attributes are written as they were read. -/
theorem traverse_writtenEntry_internAttributes : ∀ {t : TypeTable} (_ : t.Closed)
    (es : List (String × Literal)),
    traverse (writtenEntry (internAttributes t es).2) (internAttributes t es).1 = .ok es
  | _, _, [] => rfl
  | t, h, (key, value) :: es => by
    have hclosed := (Literal.grown_intern h value).1.closed
    have hkept := kept_internAttributes (value.intern t).2 es
    refine traverse_cons (Kept.writtenEntry hkept ?_) (traverse_writtenEntry_internAttributes hclosed es)
    exact writtenEntry_eq_ok_iff.2 ⟨outlineAttribute_intern h value, rfl⟩

/-! ### Labels -/

theorem kept_internLabels : ∀ (t : TypeTable) (ms : List Mention) (tys : List TypeTree),
    Kept t (internLabels t ms tys).2
  | t, [], _ | t, _ :: _, [] => Kept.refl t
  | t, _ :: ms, ty :: tys => (kept_internTree t ty).trans (kept_internLabels _ ms tys)

/-- The types of the results are written as they were read. -/
theorem traverse_expand_internLabels : ∀ {t : TypeTable} (_ : t.Closed) {ms : List Mention}
    {tys : List TypeTree}, ms.length = tys.length →
    traverse (fun label => (internLabels t ms tys).2.expand label.ty) (internLabels t ms tys).1 = .ok tys
  | _, _, [], [], _ => rfl
  | t, h, m :: ms, ty :: tys, hlength => by
    have hclosed := (h.internTree ty).1.closed
    have hkept := kept_internLabels (t.internTree ty).2 ms tys
    exact traverse_cons (hkept.expand (h.expand_internTree ty))
      (traverse_expand_internLabels hclosed (Nat.succ.inj hlength))

end Text

/-! ### Attribute maps -/

namespace Attributes

/-- A key that comes after all others is put last. -/
theorem insertInto_of_forall_lt {key : String} {value : Attribute} {es : List (String × Attribute)}
    (h : ∀ e ∈ es, e.1 < key) : insertInto key value es = es ++ [(key, value)] := by
  induction es with
  | nil => rfl
  | cons e es ih =>
    rw [List.forall_mem_cons] at h
    rw [insertInto, if_neg (String.lt_asymm h.1), if_pos h.1, ih h.2, List.cons_append]

/-- Entries in ascending order are the entries of their map. -/
theorem toList_ofList {es : List (String × Attribute)} (h : es.Pairwise fun a b => a.1 < b.1) :
    (ofList es).toList = es := by
  -- Every entry goes to the end of those before it.
  have hfold : ∀ (es : List (String × Attribute)) (a : Attributes),
      (a.toList ++ es).Pairwise (fun a b => a.1 < b.1) →
      (es.foldl (fun a e => a.insert e.1 e.2) a).toList = a.toList ++ es := by
    intro es
    induction es with
    | nil => exact fun a _ => (List.append_nil _).symm
    | cons e es ih =>
      intro a ha
      have hlast : (a.insert e.1 e.2).toList = a.toList ++ [e] := by
        refine insertInto_of_forall_lt fun x hx => ?_
        exact (List.pairwise_append.1 ha).2.2 x hx e List.mem_cons_self
      rw [List.foldl_cons, ih _ (by rwa [hlast, List.append_assoc]), hlast, List.append_assoc]
      rfl
  exact hfold es empty h

/-- A table of attributes is in the order of its keys, so it is built again from its list. -/
theorem ofList_toList (a : Attributes) : ofList a.toList = a := by
  have h := toList_ofList a.ascending
  generalize ofList a.toList = b at h
  obtain ⟨es, hes⟩ := a
  obtain ⟨es', hes'⟩ := b
  obtain rfl : es' = es := h
  rfl

end Attributes

end Unguard
