import Mathlib.Data.List.Induction
import Unguard.Proofs.Definitions
import Unguard.Proofs.TypeConstants

/-!
# Types are hash-consed

An entry of a type table holds identifiers, so interning compares one level of a type only.  That is
enough to tell whole types apart.  In a table that was made by interning the identifiers of the entries
mirror the entries of the identifiers (`TypeTable.Mirrored`), so no entry is there twice, and the
parameters of an entry stand before it (`TypeTable.Closed`).  Both are kept by every call, and from both
it follows, level by level, that an identifier stands for one tree and a tree for one identifier
(`Closed.expand_injective`).

The table of a graph that was read is made in this way: it comes from interning the types that the text
writes, in the order in which it writes them (`GraphDraft.types_build`), and that is a sequence of calls
in which parameters come first (`Made.internTrees`).  There the trees have names of the grammar, so that
a type can also be told from its text (`TypeTree.eq_of_text_eq`).
-/

namespace Unguard

namespace TypeTable

variable {t : TypeTable}

/-! ### One call -/

/-- No entry is in the table twice, since it could be found only once. -/
theorem Mirrored.eq_of_get? (h : t.Mirrored) {a b : TypeId} {entry : TypeEntry}
    (ha : t.get? a = some entry) (hb : t.get? b = some entry) : a = b :=
  Option.some.inj (((h entry a).2 ha).symm.trans ((h entry b).2 hb))

/-- Looking an entry up finds exactly the identifier that holds it. -/
theorem Mirrored.get?_eq_some_iff (h : t.Mirrored) {ty : TypeId} {entry : TypeEntry} :
    t.get? ty = some entry ↔ t.intern entry = (ty, t) := by
  constructor
  · intro hty
    rw [TypeTable.intern, (h entry ty).2 hty]
  · intro hintern
    have hget := h.get?_intern entry
    rwa [hintern] at hget

/-! ### Whole types -/

/-- A type is written out as its entry, with the parameters written out. -/
theorem Closed.expand_eq_ok_iff (h : t.Closed) {ty : TypeId} {dialect name : String}
    {params : List TypeTree} : t.expand ty = .ok (.mk dialect name params) ↔
      ∃ ids, t.get? ty = some ⟨dialect, name, ids⟩ ∧ traverse t.expand ids = .ok params := by
  constructor
  · intro hty
    have hlt : ty.index < t.size := index_lt_of_expand hty
    obtain ⟨entry, hentry⟩ : ∃ entry, t.get? ty = some entry := ⟨_, Array.getElem?_eq_getElem hlt⟩
    obtain ⟨trees, htrees⟩ : ∃ trees, traverse t.expand entry.params = .ok trees := by
      apply traverse_ok_of_forall
      intro p hp
      exact h.expand_ok (Nat.lt_trans (h.before ty entry hentry p hp) hlt)
    rw [h.expand_of_get? hentry htrees] at hty
    cases hty
    exact ⟨entry.params, hentry, htrees⟩
  · rintro ⟨ids, hentry, hids⟩
    exact h.expand_of_get? hentry hids

mutual

/-- A tree has one identifier: equal trees have equal parameters, hence equal entries. -/
theorem Closed.expand_injective (h : t.Closed) : ∀ {tree : TypeTree} {a b : TypeId},
    t.expand a = .ok tree → t.expand b = .ok tree → a = b
  | .mk dialect name params, a, b, ha, hb => by
    obtain ⟨as, haentry, has⟩ := h.expand_eq_ok_iff.1 ha
    obtain ⟨bs, hbentry, hbs⟩ := h.expand_eq_ok_iff.1 hb
    obtain rfl : as = bs := h.traverse_expand_injective has hbs
    exact h.mirrored.eq_of_get? haentry hbentry

/-- Lists of types that are written the same are the same. -/
theorem Closed.traverse_expand_injective (h : t.Closed) : ∀ {trees : List TypeTree}
    {as bs : List TypeId}, traverse t.expand as = .ok trees → traverse t.expand bs = .ok trees → as = bs
  | [], as, bs, has, hbs => by
    rw [traverse_eq_ok_iff, List.forall₂_nil_right_iff] at has hbs
    rw [has, hbs]
  | tree :: trees, as, bs, has, hbs => by
    rw [traverse_eq_ok_iff, List.forall₂_cons_right_iff] at has hbs
    obtain ⟨a, as, ha, has, rfl⟩ := has
    obtain ⟨b, bs, hb, hbs, rfl⟩ := hbs
    rw [h.expand_injective ha hb, h.traverse_expand_injective (traverse_eq_ok_iff.2 has)
      (traverse_eq_ok_iff.2 hbs)]

end

/-- Identifiers are equal exactly if their trees are. -/
theorem Closed.eq_iff_expand (h : t.Closed) {a b : TypeId} {tree tree' : TypeTree}
    (ha : t.expand a = .ok tree) (hb : t.expand b = .ok tree') : a = b ↔ tree = tree' := by
  constructor
  · rintro rfl
    exact Except.ok.inj (ha.symm.trans hb)
  · rintro rfl
    exact h.expand_injective ha hb

/-! ### Call after call -/

/-- Interns entries one after another, and answers an identifier for each. -/
def internEntries (t : TypeTable) : List TypeEntry → List TypeId × TypeTable
  | [] => ([], t)
  | entry :: entries =>
    let (id, t) := t.intern entry
    let (ids, t) := t.internEntries entries
    (id :: ids, t)

/-- Calls go on where others have left the table. -/
theorem internEntries_append (t : TypeTable) (as bs : List TypeEntry) :
    t.internEntries (as ++ bs) =
      ((t.internEntries as).1 ++ ((t.internEntries as).2.internEntries bs).1,
        ((t.internEntries as).2.internEntries bs).2) := by
  induction as generalizing t with
  | nil => rfl
  | cons entry as ih =>
    show ((t.intern entry).1 :: ((t.intern entry).2.internEntries (as ++ bs)).1,
      ((t.intern entry).2.internEntries (as ++ bs)).2) = _
    rw [ih]
    rfl

theorem kept_internEntries (t : TypeTable) (calls : List TypeEntry) :
    Kept t (t.internEntries calls).2 := by
  induction calls generalizing t with
  | nil => exact Kept.refl t
  | cons entry calls ih => exact (kept_intern t entry).trans (ih _)

/-- The two sides of a table mirror each other after any sequence of calls. -/
theorem Mirrored.internEntries (h : t.Mirrored) (calls : List TypeEntry) :
    (t.internEntries calls).2.Mirrored := by
  induction calls generalizing t with
  | nil => exact h
  | cons entry calls ih => exact ih (h.intern entry)

/-- Every answer holds the entry it was given for. -/
theorem Mirrored.forall₂_internEntries (h : t.Mirrored) (calls : List TypeEntry) :
    List.Forall₂ (fun entry ty => (t.internEntries calls).2.get? ty = some entry) calls
      (t.internEntries calls).1 := by
  induction calls generalizing t with
  | nil => exact .nil
  | cons entry calls ih =>
    exact .cons (kept_internEntries _ calls _ _ (h.get?_intern entry)) (ih (h.intern entry))

/-- On the empty table, every call has as parameters only what earlier calls answered. -/
def Supplied (calls : List TypeEntry) : Prop :=
  ∀ before entry after, calls = before ++ entry :: after →
    ∀ p ∈ entry.params, p ∈ (empty.internEntries before).1

theorem supplied_nil : Supplied [] := by
  intro before entry after h
  simp at h

/-- The parameters of a call are answers to the calls before it. -/
theorem supplied_concat {calls : List TypeEntry} {entry : TypeEntry} :
    Supplied (calls ++ [entry]) ↔
      Supplied calls ∧ ∀ p ∈ entry.params, p ∈ (empty.internEntries calls).1 := by
  constructor
  · intro h
    constructor
    · rintro before call after rfl
      apply h before call (after ++ [entry])
      simp
    · exact h calls entry [] rfl
  · rintro ⟨hcalls, hentry⟩ before call after h
    -- The call is the last one, or one of those before it.
    rcases List.eq_nil_or_concat after with rfl | ⟨after, last, rfl⟩
    · obtain ⟨rfl, hlast⟩ := List.append_inj' h rfl
      obtain rfl := List.singleton_inj.1 hlast
      exact hentry
    · rw [List.concat_eq_append, ← List.cons_append, ← List.append_assoc] at h
      exact hcalls before call after (List.append_inj' h rfl).1

/-- The identifiers that were answered are those of the table. -/
theorem mem_answers_iff {calls : List TypeEntry} {ty : TypeId} :
    ty ∈ (empty.internEntries calls).1 ↔ ty.index < (empty.internEntries calls).2.size := by
  constructor
  · intro h
    obtain ⟨entry, -, hentry⟩ := exists_of_forall₂ (mirrored_empty.forall₂_internEntries calls) h
    exact index_lt_of_get? hentry
  · intro h
    induction calls using List.reverseRecOn with
    | nil => exact absurd h (Nat.not_lt_zero _)
    | append_singleton calls entry ih =>
      have happend := internEntries_append empty calls [entry]
      rw [happend] at h ⊢
      refine List.mem_append.2 ?_
      -- The last call finds an entry, and nothing is added, or it answers the identifier that is added.
      obtain ⟨_, -, hintern⟩ | ⟨-, hintern⟩ := (empty.internEntries calls).2.intern_cases entry
      · refine Or.inl (ih ?_)
        simp only [internEntries, hintern] at h
        exact h
      · simp only [internEntries, hintern, size_push, List.mem_singleton] at h ⊢
        rcases Nat.lt_succ_iff_lt_or_eq.1 h with hlt | heq
        · exact Or.inl (ih hlt)
        · exact Or.inr (by rw [← heq])

/-- An answer is in the table when its call is over, so a type is never put in before its parameters. -/
theorem Supplied.closed {calls : List TypeEntry} (h : Supplied calls) :
    (empty.internEntries calls).2.Closed := by
  induction calls using List.reverseRecOn with
  | nil => exact closed_empty
  | append_singleton calls entry ih =>
    obtain ⟨hcalls, hparams⟩ := supplied_concat.1 h
    rw [internEntries_append]
    -- What was answered is in the table, so the parameters stand before the new entry.
    refine ((ih hcalls).intern entry ?_).1.closed
    intro p hp
    exact mem_answers_iff.1 (hparams p hp)

/-! ### Interning trees -/

/-- The table comes from calls that have as parameters only what was answered before. -/
def Made (t : TypeTable) : Prop :=
  ∃ calls, Supplied calls ∧ t = (empty.internEntries calls).2

theorem made_empty : empty.Made :=
  ⟨[], supplied_nil, rfl⟩

theorem Made.closed (h : t.Made) : t.Closed := by
  obtain ⟨calls, hsupplied, rfl⟩ := h
  exact hsupplied.closed

/-- One more call, with parameters that are in the table. -/
theorem Made.intern (h : t.Made) {entry : TypeEntry} (hparams : ∀ p ∈ entry.params, p.index < t.size) :
    (t.intern entry).2.Made := by
  obtain ⟨calls, hsupplied, rfl⟩ := h
  refine ⟨calls ++ [entry], supplied_concat.2 ⟨hsupplied, ?_⟩, ?_⟩
  · exact fun p hp => mem_answers_iff.2 (hparams p hp)
  · rw [internEntries_append]
    rfl

mutual

/-- Interning a whole type is a sequence of calls, those for its parameters first. -/
theorem Made.internTree : ∀ {t : TypeTable} (_ : t.Made) (tree : TypeTree), (t.internTree tree).2.Made
  | _, h, .mk _ _ params => (h.internTrees params).intern (h.closed.internTrees params).2

theorem Made.internTrees : ∀ {t : TypeTable} (_ : t.Made) (trees : List TypeTree),
    (t.internTrees trees).2.Made
  | _, h, [] => h
  | _, h, tree :: trees => (h.internTree tree).internTrees trees

end

/-- Types are interned one after another. -/
theorem internTrees_append (t : TypeTable) (as bs : List TypeTree) :
    (t.internTrees (as ++ bs)).2 = ((t.internTrees as).2.internTrees bs).2 := by
  induction as generalizing t with
  | nil => rfl
  | cons tree as ih => exact ih _

end TypeTable

/-! ### The table of a graph -/

namespace Text

mutual

theorem Literal.types_intern : ∀ (t : TypeTable) (l : Literal),
    (l.intern t).2 = (t.internTrees l.types).2
  | _, .unit | _, .bool _ | _, .int _ | _, .float _ | _, .string _ | _, .type _ => rfl
  | t, .list items => Literal.types_internAll t items

theorem Literal.types_internAll : ∀ (t : TypeTable) (ls : List Literal),
    (Literal.internAll t ls).2 = (t.internTrees (Literal.allTypes ls)).2
  | _, [] => rfl
  | t, l :: ls => by
    rw [Literal.allTypes, TypeTable.internTrees_append, ← Literal.types_intern t l]
    exact Literal.types_internAll _ ls

end

theorem types_internAttributes : ∀ (t : TypeTable) (es : List (String × Literal)),
    (internAttributes t es).2 = (t.internTrees (es.flatMap fun e => e.2.types)).2
  | _, [] => rfl
  | t, (key, value) :: es => by
    rw [List.flatMap_cons, TypeTable.internTrees_append, ← Literal.types_intern t value]
    exact types_internAttributes _ es

/-- The labels of results intern their types in order. -/
theorem types_internLabels : ∀ (t : TypeTable) {ms : List Mention} {tys : List TypeTree},
    ms.length = tys.length → (internLabels t ms tys).2 = (t.internTrees tys).2
  | _, [], [], _ => rfl
  | t, _ :: _, ty :: _, h => types_internLabels (t.internTree ty).2 (Nat.succ.inj h)

/-- The types that a node writes: those in its attributes, then those of its results. -/
def NodeDraft.allTypes (d : NodeDraft) : List TypeTree :=
  (d.attributes.flatMap fun e => e.2.types) ++ d.types

/-- The types of the parameters of a block. -/
def BlockDraft.paramTypes (b : BlockDraft) : List TypeTree :=
  b.params.map Prod.snd

/-- What a node interns is the types in it, in the order of the text. -/
theorem NodeDraft.interned_eq (d : NodeDraft) (t : TypeTable) (h : d.results.length = d.types.length) :
    d.interned t = (t.internTrees d.allTypes).2 := by
  rw [NodeDraft.interned, types_internLabels _ h, types_internAttributes, NodeDraft.allTypes,
    TypeTable.internTrees_append]

theorem types_buildParams : ∀ {params : List (Mention × TypeTree)} {g g' : Graph}
    {scope scope' : Scope} {b : BlockId}, buildParams g scope b params = .ok (g', scope') →
    g'.types = (g.types.internTrees (params.map Prod.snd)).2
  | [], _, _, _, _, _, h => by
    cases h
    rfl
  | (m, ty) :: params, g, g', scope, scope', b, h => by
    obtain ⟨_, -, h⟩ := bind_eq_ok_iff.1 h
    rw [types_buildParams h]
    rfl

mutual

/-- The table of a graph is what interning the types of its draft makes, in the order of the text. -/
theorem types_buildNodes : ∀ {draft : BodyDraft} {g g' : Graph} {scope scope' : Scope} {b : BlockId},
    buildNodes g scope b draft = .ok (g', scope') →
    g'.types = (g.types.internTrees (draft.collect NodeDraft.allTypes BlockDraft.paramTypes)).2
  | .done, _, _, _, _, _, h => by
    cases h
    rfl
  | .node head arms rest, g, g', scope, scope', b, h => by
    obtain ⟨hcheck, _, -, _, g₁, harms, _, -, hrest⟩ := buildNodes_node_iff.1 h
    have hhead := head.interned_eq g.types (NodeDraft.length_results_of_check hcheck)
    have harms : g₁.types = _ := types_buildArms harms
    rw [types_buildNodes hrest, Body.collect, TypeTable.internTrees_append,
      TypeTable.internTrees_append, ← hhead, ← harms]
    rfl

theorem types_buildArms : ∀ {draft : ArmsDraft} {g g' : Graph} {scope : Scope}
    {blocks : List BlockId}, buildArms g scope draft = .ok (blocks, g') →
    g'.types = (g.types.internTrees (draft.collect NodeDraft.allTypes BlockDraft.paramTypes)).2
  | .done, _, _, _, _, h => by
    cases h
    rfl
  | .arm head body rest, g, g', scope, blocks, h => by
    obtain ⟨g₁, _, hparams, g₂, _, hbody, _, -, _, hrest, -⟩ := buildArms_arm_iff.1 h
    have hparams : g₁.types = (g.newBlock.2.types.internTrees head.paramTypes).2 :=
      types_buildParams hparams
    rw [types_buildArms hrest, Graph.types_assignReturns, types_buildNodes hbody, Arms.collect,
      TypeTable.internTrees_append, TypeTable.internTrees_append, hparams]
    rfl

end

/-- The types of a graph that is built are those its draft writes, interned in this order. -/
theorem GraphDraft.types_build {draft : GraphDraft} {g : Graph} (h : draft.build = .ok g) :
    g.types = (TypeTable.empty.internTrees
      (draft.toArms.collect NodeDraft.allTypes BlockDraft.paramTypes)).2 :=
  types_buildArms (GraphDraft.build_eq_ok_iff.1 h)

end Text

/-! ### Types and their texts -/

/-- A type with names of the grammar can be told from its text. -/
theorem TypeTree.eq_of_text_eq {a b : TypeTree} (ha : a.Writable) (hb : b.Writable)
    (h : a.text = b.text) : a = b := by
  obtain ⟨_, hdone, -⟩ := Text.Reader.exists_type_text ha (Nat.le_refl _)
  obtain ⟨_, hdone', -⟩ := Text.Reader.exists_type_text hb (Nat.le_refl _)
  rw [← h] at hdone'
  exact (Text.Outcome.done.inj (hdone.symm.trans hdone')).1

namespace Graph

/-- The types of a graph that was read were interned one after another. -/
theorem made_ofText {source : String} {g : Graph} (h : ofText source = .ok g) : g.types.Made := by
  obtain ⟨draft, -, hbuild⟩ := bind_eq_ok_iff.1 h
  rw [Text.GraphDraft.types_build hbuild]
  exact TypeTable.made_empty.internTrees _

/-- Every value of a graph that was read has a type with names of the grammar. -/
theorem exists_type_ofText {source : String} {g : Graph} (h : ofText source = .ok g) {v : ValueId}
    {x : Value} (hv : g.value? v = some x) :
    ∃ tree, g.types.expand x.label.ty = .ok tree ∧ tree.Writable := by
  obtain ⟨t, hrep, -, -, hprintable⟩ := printable_ofText h
  obtain ⟨draft, -, hbuild⟩ := bind_eq_ok_iff.1 h
  obtain ⟨t', hgrows, hrep', -, -⟩ := Text.GraphDraft.build_drawn hbuild
  obtain rfl := hrep.unique hrep'
  -- Nothing was removed yet, so every value is defined somewhere in the tree.
  have hdefined := hgrows.mem_definitions_iff.2 (index_lt_of_value? _ hv)
  obtain ⟨tree, htree, hwritable⟩ := hprintable.values v hdefined
  have hlabel : g.labelOf v = x.label := by simp [labelOf, hv]
  rw [hlabel] at htree
  exact ⟨tree, htree, hwritable⟩

/-- In a graph that was read, values have the same type exactly if it is written the same. -/
theorem type_eq_iff_typeText {source : String} {g : Graph} (h : ofText source = .ok g)
    {v w : ValueId} {x y : Value} (hv : g.value? v = some x) (hw : g.value? w = some y) :
    ∃ s s', g.typeText x.label.ty = .ok s ∧ g.typeText y.label.ty = .ok s' ∧
      (x.label.ty = y.label.ty ↔ s = s') := by
  obtain ⟨tree, htree, hwritable⟩ := exists_type_ofText h hv
  obtain ⟨tree', htree', hwritable'⟩ := exists_type_ofText h hw
  refine ⟨tree.text, tree'.text, ?_, ?_, ?_⟩
  · rw [typeText, htree]
    rfl
  · rw [typeText, htree']
    rfl
  · rw [(made_ofText h).closed.eq_iff_expand htree htree']
    constructor
    · rintro rfl
      rfl
    · exact TypeTree.eq_of_text_eq hwritable hwritable'

end Graph

namespace TypeTable

/-- **Types are hash-consed.**  Let entries be interned one after another on the empty table, each with
parameters that were answered before.  Then the two sides of the table mirror each other: an entry is
found under an identifier exactly if the identifier holds it.  No two identifiers hold equal entries, and
interning an entry again gives the one that holds it.  Every answer holds the entry it was given for, and
keeps it from then on.  It can be written out in full, as its entry with the parameters written out, and
two answers are equal exactly if they are written out as equal trees.

The table of a graph that was read from a text is made by such calls.  So two of its values have the same
type identifier exactly if the texts of their types are equal. -/
theorem hashConsed :
    (∀ calls ids t, Supplied calls → empty.internEntries calls = (ids, t) →
      (∀ entry ty, t.find? entry = some ty ↔ t.get? ty = some entry) ∧
      (∀ a b entry, t.get? a = some entry → t.get? b = some entry → a = b) ∧
      (∀ ty entry, t.get? ty = some entry ↔ t.intern entry = (ty, t)) ∧
      List.Forall₂ (fun entry ty => t.get? ty = some entry) calls ids ∧
      (∀ before after, calls = before ++ after → ∀ ty ∈ (empty.internEntries before).1,
        t.get? ty = (empty.internEntries before).2.get? ty) ∧
      (∀ ty ∈ ids, ∃ entry params, t.get? ty = some entry ∧
        traverse t.expand entry.params = .ok params ∧
        t.expand ty = .ok (.mk entry.dialect entry.name params)) ∧
      ∀ a ∈ ids, ∀ b ∈ ids, ∃ tree tree', t.expand a = .ok tree ∧ t.expand b = .ok tree' ∧
        (a = b ↔ tree = tree')) ∧
    ∀ source g, Graph.ofText source = .ok g →
      (∃ calls, Supplied calls ∧ g.types = (empty.internEntries calls).2) ∧
      ∀ v w x y, g.value? v = some x → g.value? w = some y →
        ∃ s s', g.typeText x.label.ty = .ok s ∧ g.typeText y.label.ty = .ok s' ∧
          (x.label.ty = y.label.ty ↔ s = s') := by
  constructor
  · intro calls ids t hsupplied hrun
    have hmirrored : t.Mirrored := by
      have h := mirrored_empty.internEntries calls
      rwa [hrun] at h
    -- Parameters are in the table before the types that have them.
    have hclosed : t.Closed := by
      have h := hsupplied.closed
      rwa [hrun] at h
    have hanswers : List.Forall₂ (fun entry ty => t.get? ty = some entry) calls ids := by
      have h := mirrored_empty.forall₂_internEntries calls
      rwa [hrun] at h
    -- An answer is in the table when it is given, and its parameters are too.
    have hexpand : ∀ ty ∈ ids, ∃ tree, t.expand ty = .ok tree := by
      intro ty hty
      obtain ⟨entry, -, hentry⟩ := exists_of_forall₂ hanswers hty
      exact hclosed.expand_ok (index_lt_of_get? hentry)
    refine ⟨hmirrored, fun _ _ _ => hmirrored.eq_of_get?, fun _ _ => hmirrored.get?_eq_some_iff,
      hanswers, ?_, ?_, ?_⟩
    · -- Later calls leave the entries of earlier ones alone.
      rintro before after rfl ty hty
      obtain ⟨entry, -, hentry⟩ :=
        exists_of_forall₂ (mirrored_empty.forall₂_internEntries before) hty
      have hkept := kept_internEntries (empty.internEntries before).2 after ty entry hentry
      rw [internEntries_append] at hrun
      obtain rfl := (Prod.mk.inj hrun).2
      rw [hentry, hkept]
    · intro ty hty
      obtain ⟨⟨dialect, name, params⟩, htree⟩ := hexpand ty hty
      obtain ⟨ids, hentry, hids⟩ := hclosed.expand_eq_ok_iff.1 htree
      exact ⟨_, params, hentry, hids, htree⟩
    · -- Both expand, and different types expand differently.
      intro a ha b hb
      obtain ⟨tree, htree⟩ := hexpand a ha
      obtain ⟨tree', htree'⟩ := hexpand b hb
      exact ⟨tree, tree', htree, htree', hclosed.eq_iff_expand htree htree'⟩
  · intro source g h
    exact ⟨Graph.made_ofText h, fun v w x y hv hw => Graph.type_eq_iff_typeText h hv hw⟩

/-- A type, the same with it as a parameter, and both again. -/
def nestedCalls : List TypeEntry :=
  [⟨"a", "t", []⟩, ⟨"a", "t", [⟨0⟩]⟩, ⟨"a", "t", []⟩, ⟨"a", "t", [⟨0⟩]⟩]

/-- Three values, of which two have a type with a parameter. -/
def nestedTypes : String :=
  "graph(%x: a.t(a.t), %y: a.t, %z: a.t( a.t )) \x7b\x7d"

theorem hashConsed_nested :
    (∃ t, Supplied nestedCalls ∧ empty.internEntries nestedCalls = ([⟨0⟩, ⟨1⟩, ⟨0⟩, ⟨1⟩], t) ∧
      t.find? ⟨"a", "t", [⟨0⟩]⟩ = some ⟨1⟩ ∧
      ∃ tree tree', t.expand ⟨0⟩ = .ok tree ∧ t.expand ⟨1⟩ = .ok tree' ∧ tree ≠ tree') ∧
    ∃ g x y z s s', Graph.ofText nestedTypes = .ok g ∧ g.value? ⟨0⟩ = some x ∧ g.value? ⟨1⟩ = some y ∧
      g.value? ⟨2⟩ = some z ∧ x.label.ty = z.label.ty ∧ x.label.ty ≠ y.label.ty ∧
      g.typeText x.label.ty = .ok s ∧ g.typeText z.label.ty = .ok s ∧
      g.typeText y.label.ty = .ok s' ∧ s ≠ s' := by
  constructor
  · -- Each call is checked against the answers to those before it.
    have hsupplied : Supplied nestedCalls := by
      refine (@supplied_concat [_, _, _] _).2 ⟨(@supplied_concat [_, _] _).2
        ⟨(@supplied_concat [_] _).2 ⟨(@supplied_concat [] _).2 ⟨supplied_nil, ?_⟩, ?_⟩, ?_⟩, ?_⟩
      all_goals decide +kernel
    have hids : (empty.internEntries nestedCalls).1 = [⟨0⟩, ⟨1⟩, ⟨0⟩, ⟨1⟩] := by decide +kernel
    have hrun : empty.internEntries nestedCalls =
        ([⟨0⟩, ⟨1⟩, ⟨0⟩, ⟨1⟩], (empty.internEntries nestedCalls).2) := Prod.ext hids rfl
    have hget : (empty.internEntries nestedCalls).2.get? ⟨1⟩ = some ⟨"a", "t", [⟨0⟩]⟩ := by
      decide +kernel
    obtain ⟨hmirror, -, -, -, -, -, htrees⟩ := hashConsed.1 _ _ _ hsupplied hrun
    obtain ⟨tree, tree', htree, htree', hiff⟩ := htrees ⟨0⟩ (by simp) ⟨1⟩ (by simp)
    refine ⟨_, hsupplied, hrun, (hmirror _ _).2 hget, tree, tree', htree, htree', ?_⟩
    intro heq
    exact absurd (hiff.2 heq) (by decide)
  · have hread : (Graph.ofText nestedTypes).toOption.map (fun g => [0, 1, 2].map fun i =>
        (g.value? ⟨i⟩).map fun value => value.label.ty.index) = some [some 1, some 0, some 1] := by
      decide +kernel
    simp only [Option.map_eq_some_iff, toOption_eq_some_iff, List.map_cons, List.map_nil,
      List.cons.injEq, and_true] at hread
    obtain ⟨g, hg, ⟨x, hx, hxty⟩, ⟨y, hy, hyty⟩, z, hz, hzty⟩ := hread
    have hxz : x.label.ty = z.label.ty := by
      show TypeId.mk x.label.ty.index = TypeId.mk z.label.ty.index
      rw [hxty, hzty]
    have hxy : x.label.ty ≠ y.label.ty := by
      intro heq
      rw [heq, hyty] at hxty
      exact absurd hxty (by decide)
    obtain ⟨s, s', hs, hs', hiff⟩ := (hashConsed.2 _ g hg).2 _ _ x y hx hy
    refine ⟨g, x, y, z, s, s', hg, hx, hy, hz, hxz, hxy, hs, hxz ▸ hs, hs', ?_⟩
    intro heq
    exact hxy (hiff.2 heq)

end TypeTable

end Unguard
