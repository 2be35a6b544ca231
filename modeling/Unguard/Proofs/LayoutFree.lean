import Unguard.Proofs.Layout
import Unguard.Proofs.Rebuilding

/-!
# Layout does not matter

Two texts that differ in their gaps only are read alike: the drafts are the same but for the offsets of
their values (`GraphDraft.ofText_alike`), and offsets do not matter to the graph that is built
(`GraphDraft.build_bare_iff`).  So a text that is laid out anew gives the same graph
(`Graph.ofText_of_relaid`).

The comparison follows the grammar.  Limits on nesting are compared with the weight of the rests: they are
above it at the start, and going one level deeper passes a bracket.
-/

namespace Unguard

namespace Text

namespace Reader

variable {stuck : Bool} {n d d' : Nat}

/-! ### Types and constants -/

/-- The bounds on nesting may differ, as long as both exceed the weight of what is left. -/
theorem agree_type (hd : n < d) (hd' : n < d') : (type d).Agree stuck n 1 (type d') Eq := by
  induction d generalizing n d' with
  | zero => omega
  | succ d ih =>
    obtain ⟨d', rfl⟩ : ∃ i, d' = i + 1 := ⟨d' - 1, by omega⟩
    rw [type, type]
    refine agree_qualified.bind fun m hm head head' hhead => ?_
    have hparams : (bracketed '(' (separated (padded (type d))) ')').Agree stuck m 1
        (bracketed '(' (separated (padded (type d'))) ')') (List.Forall₂ Eq) :=
      Agree.bracketed (by decide) (by decide) fun i hi => (ih (by omega) (by omega)).padded.separated
    refine hparams.optional.bind fun _ _ params params' h => agree_pure ?_
    rw [hhead, getD_eq_of_rel h]

/-- The bound on nesting goes down inside the brackets of a list, and so does the weight. -/
theorem agree_literal (hd : n < d) (hd' : n < d') : (literal d).Agree stuck n 0 (literal d') Eq := by
  induction d generalizing n d' with
  | zero => omega
  | succ d ih =>
    obtain ⟨d', rfl⟩ : ∃ i, d' = i + 1 := ⟨d' - 1, by omega⟩
    have hword : ∀ (w : String) (l : Literal), w.toList.all isSign = true →
        Agree stuck n 0 (do word w; return l) (do word w; return l) Eq := fun w l hw =>
      ((agree_word hw).mono (Nat.le_refl _) (Nat.zero_le _)).bind fun _ _ _ _ _ => agree_pure rfl
    have hlist : (bracketed '[' (separated (padded (literal d))) ']').Agree stuck n 1
        (bracketed '[' (separated (padded (literal d'))) ']') (List.Forall₂ Eq) :=
      Agree.bracketed (by decide) (by decide) fun i hi => (ih (by omega) (by omega)).padded.separated
    rw [literal, literal]
    refine (hword _ _ (by decide)).orElse ((hword _ _ (by decide)).orElse
      ((hword _ _ (by decide)).orElse ?_))
    refine Agree.orElse (agree_quoted.bindRight fun _ _ _ _ h => agree_pure (congrArg _ h)) ?_
    refine Agree.orElse (hlist.bindRight fun _ _ items items' h => agree_pure ?_) ?_
    · have hitems : items = items' := List.forall₂_eq_eq_eq ▸ h
      rw [hitems]
    refine Agree.orElse (agree_float.bind fun _ _ _ _ h => agree_pure (congrArg _ h)) ?_
    refine Agree.orElse (agree_integer.bind fun _ _ _ _ h => agree_pure (congrArg _ h)) ?_
    exact (agree_type hd hd').bindRight fun _ _ _ _ h => agree_pure (congrArg _ h)

/-- Attributes that are not there are not there on either side. -/
theorem agree_attributes (hd : n < d) (hd' : n < d') :
    (attributes? d).Agree stuck n 0 (attributes? d') Eq := by
  have hentry : ∀ m < n, (entry d).Agree stuck m 1 (entry d') Eq := by
    intro m hm
    refine Agree.padded (agree_name.bind fun _ _ key key' hkey => agree_blanks.bind fun _ _ _ _ _ => ?_)
    refine (agree_char (c := '=') (by decide)).bindRight fun _ _ _ _ _ => ?_
    refine agree_blanks.bind fun _ _ _ _ _ => ?_
    refine (agree_literal (by omega) (by omega)).bind fun _ _ value value' hvalue => agree_pure ?_
    rw [hkey, hvalue]
  have hattributes : ∀ m ≤ n, (attributes d).Agree stuck m 1 (attributes d') (List.Forall₂ Eq) :=
    fun m hm => Agree.bracketed (by decide) (by decide) fun i hi => (hentry i (by omega)).separated
  refine (Agree.optional (agree_blanks.bindRight fun m hm _ _ _ => hattributes m hm)).bind
    fun _ _ entries entries' h => agree_pure (getD_eq_of_rel h)

theorem agree_annotated (hd : n < d) (hd' : n < d') :
    (annotation? d).Agree stuck n 0 (annotation? d') Eq := by
  refine Agree.bind (Agree.optional (k := 1) (agree_blanks.bindRight fun m hm _ _ _ =>
    (agree_char (by decide)).bind fun i hi _ _ _ => agree_blanks.bind fun j hj _ _ _ => ?_))
    fun _ _ types types' h => agree_pure (getD_eq_of_rel h)
  exact ((agree_type (by omega) (by omega)).mono (Nat.le_refl _) (Nat.zero_le 1)).padded.separated1

/-! ### Values -/

theorem map_eq_map_of_forall₂ {α β : Type} {f : α → β} {as as' : List α}
    (h : List.Forall₂ (fun a a' => f a = f a') as as') : as.map f = as'.map f := by
  induction h with
  | nil => rfl
  | cons h _ ih => rw [List.map_cons, List.map_cons, h, ih]

theorem agree_mentions : mentions.Agree stuck n 0 mentions fun ms ms' =>
    ms.map Mention.bare = ms'.map Mention.bare :=
  agree_mention.padded.separated.imp (Nat.le_refl _) (Nat.le_refl _) fun _ _ => map_eq_map_of_forall₂

theorem agree_operands : operands.Agree stuck n 1 operands fun ms ms' =>
    ms.map Mention.bare = ms'.map Mention.bare :=
  Agree.bracketed (by decide) (by decide) fun _ _ => agree_mentions

theorem agree_results : results.Agree stuck n 1 results fun ms ms' =>
    ms.map Mention.bare = ms'.map Mention.bare :=
  agree_mention.padded.separated1.bind fun _ _ _ _ h => (agree_char (c := '=') (by decide)).bindRight
    fun _ _ _ _ _ => agree_pure (map_eq_map_of_forall₂ h)

/-- Parameters correspond in names and types; their offsets may differ. -/
theorem agree_params (hd : n < d) (hd' : n < d') : (params d).Agree stuck n 1 (params d') fun ps ps' =>
    bareParams ps = bareParams ps' := by
  have hparam : ∀ m < n, (param d).Agree stuck m 1 (param d') fun p p' =>
      (p.1.bare, p.2) = (p'.1.bare, p'.2) := by
    intro m hm
    refine Agree.padded (agree_mention.bind fun _ _ v v' hv => agree_blanks.bind fun _ _ _ _ _ => ?_)
    refine (agree_char (c := ':') (by decide)).bindRight fun _ _ _ _ _ => ?_
    refine agree_blanks.bind fun _ _ _ _ _ => ?_
    refine (agree_type (by omega) (by omega)).bindRight fun _ _ ty ty' hty => agree_pure ?_
    rw [hv, hty]
  refine Agree.imp (Agree.bracketed (by decide) (by decide) fun m hm => (hparam m hm).separated)
    (Nat.le_refl _) (Nat.le_refl _) fun ps ps' h => map_eq_map_of_forall₂ h

/-! ### Nodes and blocks -/

/-- The nodes are the same but for the offsets of their values. -/
def SameItem (item item' : NodeItem) : Prop :=
  item.1.bare = item'.1.bare ∧
    item.2.map NodeDraft.bare BlockDraft.bare = item'.2.map NodeDraft.bare BlockDraft.bare

/-- The blocks are. -/
def SameBlock (b b' : BlockDraft × BodyDraft) : Prop :=
  b.1.bare = b'.1.bare ∧
    b.2.map NodeDraft.bare BlockDraft.bare = b'.2.map NodeDraft.bare BlockDraft.bare

/-- The items of a block are. -/
inductive SamePart : Item → Item → Prop
  | node {item item' : NodeItem} (h : SameItem item item') : SamePart (.node item) (.node item')
  | returns {values values' : List Mention} (h : values.map Mention.bare = values'.map Mention.bare) :
      SamePart (.returns values) (.returns values')

/-- The bodies of blocks, with what the blocks return, are. -/
def SameBody (b b' : BodyDraft × List Mention) : Prop :=
  b.1.map NodeDraft.bare BlockDraft.bare = b'.1.map NodeDraft.bare BlockDraft.bare ∧
    b.2.map Mention.bare = b'.2.map Mention.bare

theorem agree_opNode (hd : n < d) (hd' : n < d') :
    (opNode d).Agree stuck n 1 (opNode d') SameItem := by
  refine agree_qualified.bind fun _ _ op op' hop => agree_blanks.bind fun _ _ _ _ _ => ?_
  refine agree_operands.bindRight fun _ _ operands operands' hoperands => ?_
  refine (agree_attributes (by omega) (by omega)).bind fun _ _ attributes attributes' hattributes => ?_
  refine (agree_annotated (by omega) (by omega)).bind fun _ _ types types' htypes => agree_pure ⟨?_, rfl⟩
  rw [hop, hattributes, htypes]
  simp only [NodeDraft.bare, hoperands]

theorem agree_raiseNode (hd : n < d) (hd' : n < d') :
    (raiseNode d).Agree stuck n 1 (raiseNode d') SameItem := by
  refine Agree.bind ((agree_keyword (by decide)).mono (Nat.le_refl _) (by decide)) fun _ _ _ _ _ => ?_
  refine agree_operands.bindRight fun _ _ operands operands' hoperands => ?_
  refine (agree_attributes (by omega) (by omega)).bind fun _ _ attributes attributes' hattributes => ?_
  refine agree_pure ⟨?_, rfl⟩
  rw [hattributes]
  simp only [NodeDraft.bare, hoperands]

section Block

variable {block block' : Reader (BlockDraft × BodyDraft)}
  (hblock : block.Agree stuck n 1 block' SameBlock)
include hblock

/-- The second block is read on what the first one has left, which weighs less. -/
theorem agree_conditional (hd : n < d) (hd' : n < d') :
    (conditional d block).Agree stuck n 1 (conditional d' block') SameItem := by
  refine Agree.bind ((agree_keyword (by decide)).mono (Nat.le_refl _) (by decide)) fun _ _ _ _ _ => ?_
  refine agree_operands.bindRight fun _ _ operands operands' hoperands => ?_
  refine (agree_annotated (by omega) (by omega)).bind fun _ _ types types' htypes => ?_
  refine agree_blanks.bind fun _ _ _ _ _ => ?_
  refine (hblock.mono (by omega) (Nat.le_refl 1)).bindRight fun _ _ first first' hfirst => ?_
  refine agree_blanks.bind fun _ _ _ _ _ => (agree_keyword (by decide)).bindRight fun _ _ _ _ _ => ?_
  refine (hblock.mono (by omega) (Nat.le_refl 1)).bindRight fun _ _ second second' hsecond => ?_
  refine agree_pure ⟨?_, ?_⟩
  · rw [htypes]
    simp only [NodeDraft.bare, hoperands]
  · simp only [Arms.map, hfirst.1, hfirst.2, hsecond.1, hsecond.2]

/-- Results are optional, so only the rest of a node is sure to pass something. -/
theorem agree_node (hd : n < d) (hd' : n < d') :
    (node d block).Agree stuck n 1 (node d' block') SameItem := by
  refine agree_results.optional.bindRight fun m hm results results' hresults => ?_
  refine agree_blanks.bindRight fun i hi _ _ _ => ?_
  have hi : i ≤ n := by omega
  have hid : i < d := by omega
  have hid' : i < d' := by omega
  refine Agree.bind ((agree_opNode hid hid').orElse ((agree_conditional
    (hblock.mono hi (Nat.le_refl 1)) hid hid').orElse (agree_raiseNode hid hid')))
    fun _ _ item item' hitem => agree_pure ⟨?_, hitem.2⟩
  have hresults : (results.getD []).map Mention.bare = (results'.getD []).map Mention.bare := by
    cases hresults with
    | none => rfl
    | some h => exact h
  have hbare := hitem.1
  simp only [NodeDraft.bare, NodeDraft.mk.injEq] at hbare ⊢
  exact ⟨hresults, hbare.2⟩

theorem agree_item (hd : n < d) (hd' : n < d') :
    (item d block).Agree stuck n 1 (item d' block') SamePart := by
  refine ((agree_node hblock hd hd').bind fun _ _ _ _ h => agree_pure (.node h)).orElse ?_
  refine Agree.bind ((agree_word (by decide)).mono (Nat.le_refl _) (by decide)) fun _ _ _ _ _ => ?_
  exact agree_mentions.bind fun _ _ _ _ h => agree_pure (.returns h)

end Block

/-- An item that cannot be read makes the block fail, whatever the budget is. -/
theorem items_of_failed {item : Reader Item} {cursor : Cursor} {stop : Nat}
    (hhead : (skipBlanks cursor.rest cursor.offset).rest.head? ≠ some '\x7d')
    (hitem : item (skipBlanks cursor.rest cursor.offset) = .failed stop) (c : Char)
    (budget : List Char) : items item (c :: budget) cursor = .failed stop := by
  have hblanks : blanks cursor = .done () (skipBlanks cursor.rest cursor.offset) := rfl
  have hnext : nextIs '\x7d' (skipBlanks cursor.rest cursor.offset) =
      .done false (skipBlanks cursor.rest cursor.offset) := by
    rw [nextIs, decide_eq_false hhead]
  rw [items, bind_of_done hblanks, bind_of_done hnext]
  exact bind_of_failed hitem

/-- Where there is no weight left, a block is not closed, whatever the limits. -/
theorem agree_items_weightless {item item' : Reader Item}
    (hitem : item.Agree stuck 0 1 item' SamePart) (budget budget' : List Char) :
    (items item budget).Agree stuck 0 0 (items item' budget') SameBody := by
  intro j hj cursor cursor' h
  obtain rfl : j = 0 := Nat.le_zero.1 hj
  have hskip := (h.skipBlanks cursor.offset cursor'.offset).1
  obtain ⟨stop, stop', hstop, hstop'⟩ | ⟨_, _, _, _, -, -, -, i, hi, -⟩ :=
    (hitem 0 hj _ _ hskip).cases
  · have hfailed : ∀ {item : Reader Item} {cursor : Cursor} {stop : Nat},
        (skipBlanks cursor.rest cursor.offset).rest.head? ≠ some '\x7d' →
        item (skipBlanks cursor.rest cursor.offset) = .failed stop →
        ∀ budget, ∃ stop, items item budget cursor = .failed stop := by
      intro item cursor stop hhead hitem budget
      cases budget with
      | nil => exact ⟨_, rfl⟩
      | cons c budget => exact ⟨stop, items_of_failed hhead hitem c budget⟩
    obtain ⟨hhead, hhead'⟩ := hskip.head_of_weightless (c := '\x7d') (by decide)
    obtain ⟨_, hleft⟩ := hfailed hhead hstop budget
    obtain ⟨_, hright⟩ := hfailed hhead' hstop' budget'
    rw [hleft, hright]
    exact .failed _ _
  · omega

/-- The limits do not matter as long as they are not below the weight: every item has weight. -/
theorem agree_items {item item' : Reader Item} (hitem : item.Agree stuck n 1 item' SamePart)
    {budget budget' : List Char} {m : Nat} (hm : m ≤ n) (hbudget : m ≤ budget.length)
    (hbudget' : m ≤ budget'.length) :
    (items item budget).Agree stuck m 0 (items item' budget') SameBody := by
  -- Where a limit is used up, no weight is left, so there is no item that the other reader could read.
  have hweightless := agree_items_weightless (hitem.mono (Nat.zero_le n) (Nat.le_refl 1))
  induction budget generalizing budget' m with
  | nil =>
    obtain rfl : m = 0 := Nat.le_zero.1 hbudget
    exact hweightless [] budget'
  | cons c budget ih =>
    cases budget' with
    | nil =>
      obtain rfl : m = 0 := Nat.le_zero.1 hbudget'
      exact hweightless (c :: budget) []
    | cons c' budget' =>
      rw [List.length_cons] at hbudget hbudget'
      rw [items, items]
      refine agree_blanks.bind fun _ _ _ _ _ => ?_
      refine (agree_nextIs (by decide)).bind fun i hi closed closed' hclosed => ?_
      rw [← hclosed]
      split
      · exact agree_pure ⟨rfl, rfl⟩
      · refine (hitem.mono (by omega) (Nat.le_refl 1)).bindRight fun j hj part part' hpart => ?_
        cases hpart with
        | node hnode =>
          have hrest : (items item budget).Agree stuck j 0 (items item' budget') SameBody :=
            ih (by omega) (by omega) (by omega)
          refine hrest.bind fun _ _ rest rest' hrest => agree_pure ⟨?_, hrest.2⟩
          simp only [Body.map, hnode.1, hnode.2, hrest.1]
        | returns hvalues => exact agree_blanks.bind fun _ _ _ _ _ => agree_pure ⟨rfl, hvalues⟩

/-- The braces weigh something, so what is inside weighs less and the bound on nesting may go down. -/
theorem agree_block {nesting nesting' : Nat} (hd : n < d) (hd' : n < d') (hnesting : n < nesting)
    (hnesting' : n < nesting') :
    (block d nesting).Agree stuck n 1 (block d' nesting') SameBlock := by
  induction nesting generalizing n nesting' with
  | zero => omega
  | succ nesting ih =>
    obtain ⟨nesting', rfl⟩ : ∃ i, nesting' = i + 1 := ⟨nesting' - 1, by omega⟩
    -- The brace has weight, so inside it the weight is below the smaller limits again.
    rw [block, block]
    refine (agree_char (by decide)).bind fun m hm _ _ _ => agree_blanks.bind fun i hi _ _ _ => ?_
    have hparams : Agree stuck i 1 (do char '^'; params d) (do char '^'; params d') fun ps ps' =>
        bareParams ps = bareParams ps' :=
      (agree_char (by decide)).bind fun j hj _ _ _ =>
        (agree_params (by omega) (by omega)).mono (Nat.le_refl _) (Nat.zero_le 1)
    refine hparams.optional.bind fun j hj params params' hparams => ?_
    have hinner : (block d nesting).Agree stuck j 1 (block d' nesting') SameBlock :=
      ih (by omega) (by omega) (by omega) (by omega)
    have hitems : Agree stuck j 0
        (fun cursor => items (item d (block d nesting)) cursor.rest cursor)
        (fun cursor => items (item d' (block d' nesting')) cursor.rest cursor) SameBody := by
      intro i hi cursor cursor' h
      exact agree_items (agree_item hinner (by omega) (by omega)) hi h.le_length.1 h.le_length.2 i
        (Nat.le_refl _) cursor cursor' h
    refine hitems.bind fun _ _ body body' hbody => ?_
    refine (agree_char (c := '\x7d') (by decide)).bindRight fun _ _ _ _ _ => agree_pure ⟨?_, hbody.1⟩
    have hparams : bareParams (params.getD []) = bareParams (params'.getD []) := by
      cases hparams with
      | none => rfl
      | some h => exact h
    rw [BlockDraft.bare, BlockDraft.bare, hparams, hbody.2]

/-- Whole graphs correspond in all but offsets. -/
theorem agree_graph (hd : n < d) (hd' : n < d') : (graph d).Agree stuck n 0 (graph d') fun a a' =>
    a.bare = a'.bare := by
  refine Agree.padded (Agree.bindRight (agree_keyword (by decide)) fun _ _ _ _ _ => ?_)
  refine (agree_params (by omega) (by omega)).bindRight fun _ _ params params' hparams => ?_
  refine agree_blanks.bind fun _ _ _ _ _ => ?_
  refine (agree_block (by omega) (by omega) (by omega) (by omega)).bindRight
    fun _ _ block block' hblock => agree_pure ?_
  rw [GraphDraft.bare, GraphDraft.bare, hparams, hblock.1, hblock.2]

end Reader

/-! ### Texts -/

/-- A text that is laid out anew is alike, or there is a lone slash in it. -/
theorem Relaid.alike {s s' : List Char} (h : Relaid s s') :
    (∃ n, Alike false n s s') ∨ ∃ n, Alike true n s s := by
  induction h with
  | done => exact Or.inl ⟨0, .done⟩
  | @sign c s s' hquote hgap rest ih =>
    -- A comment may come after a slash in the second text only, so the first is compared with itself.
    by_cases hslash : c = '/'
    · rw [hslash] at hgap ⊢
      exact Or.inr ⟨0, .slash hgap hgap⟩
    · rw [startsGap, Bool.or_eq_false_iff] at hgap
      have hsign : isSign c = true := by
        simp only [isSign, hgap.1, Bool.not_false, Bool.true_and, Bool.and_eq_true, decide_eq_true_eq]
        exact ⟨hslash, hquote⟩
      rcases ih with ⟨n, hrest⟩ | ⟨n, hrest⟩
      · exact Or.inl ⟨n + 1, .sign hsign hrest⟩
      · exact Or.inr ⟨n + 1, .sign hsign hrest⟩
  | quoted h _ ih =>
    rcases ih with ⟨n, hrest⟩ | ⟨n, hrest⟩
    · exact Or.inl ⟨n + 1, .quoted h hrest⟩
    · exact Or.inr ⟨n + 1, .quoted h hrest⟩
  | gap h h' hne hne' hgap _ ih =>
    rcases ih with ⟨n, hrest⟩ | ⟨n, hrest⟩
    · exact Or.inl ⟨n, .gap h h' hne hne' hgap hrest⟩
    · exact Or.inr ⟨n, .gap h h hne hne hgap hrest⟩
  | last h h' hne hne' => exact Or.inl ⟨0, .last h h' hne hne'⟩

/-- Of two texts that are alike, if the one is read, so is the other, and there is no lone slash. -/
theorem GraphDraft.ofText_alike {text text' : String} {draft : GraphDraft} {stuck : Bool} {n : Nat}
    (hdraft : GraphDraft.ofText text = .ok draft) (h : Alike stuck n text.toList text'.toList) :
    stuck = false ∧ ∃ draft', GraphDraft.ofText text' = .ok draft' ∧ draft'.bare = draft.bare := by
  have hd : n < (Cursor.ofString text).rest.length + 1 := Nat.lt_succ_of_le h.le_length.1
  have hd' : n < (Cursor.ofString text').rest.length + 1 := Nat.lt_succ_of_le h.le_length.2
  have hmatch := Reader.agree_graph hd hd' n (Nat.le_refl n) (Cursor.ofString text)
    (Cursor.ofString text') h
  rw [GraphDraft.ofText] at hdraft
  obtain ⟨stop, _, hstop, -⟩ | ⟨a, a', next, next', hnext, hnext', hbare, i, -, hrest⟩ := hmatch.cases
  · rw [hstop] at hdraft
    cases hdraft
  · rw [hnext] at hdraft
    dsimp only at hdraft
    split at hdraft
    · rename_i hempty
      cases hdraft
      obtain ⟨hstuck, hnil⟩ := hrest.of_eq_nil (List.isEmpty_iff.1 hempty)
      refine ⟨hstuck, a', ?_, hbare.symm⟩
      rw [GraphDraft.ofText, hnext']
      exact if_pos (List.isEmpty_iff.2 hnil)
    · cases hdraft

/-! ### Offsets do not matter to the graph -/

namespace Scope

variable {scope scope' : Scope}

/-- A mention is resolved by its name alone. -/
theorem resolve_eq_ok_iff {m : Mention} {v : ValueId} :
    scope.resolve m = .ok v ↔ scope.find? m.name = some v := by
  rw [resolve]
  split
  · rename_i w hfind
    rw [hfind, Option.some_inj, Except.ok.injEq]
  · rename_i hfind
    rw [hfind]
    exact iff_of_false (fun h => by cases h) (fun h => by cases h)

/-- A name is defined if it is new, and its offset is not kept. -/
theorem define_eq_ok_iff {m : Mention} {v : ValueId} : scope.define m v = .ok scope' ↔
    scope.find? m.name = none ∧ ⟨(m.name, v) :: scope.entries⟩ = scope' := by
  rw [define]
  split
  · rename_i w hfind
    rw [hfind]
    exact iff_of_false (fun h => by cases h) (fun h => by cases h.1)
  · rename_i hfind
    rw [hfind, Except.ok.injEq, and_iff_right rfl]

theorem resolve_bare {m : Mention} {v : ValueId} :
    scope.resolve m.bare = .ok v ↔ scope.resolve m = .ok v := by
  rw [resolve_eq_ok_iff, resolve_eq_ok_iff]
  exact Iff.rfl

theorem traverse_resolve_bare {ms : List Mention} {vs : List ValueId} :
    traverse scope.resolve (ms.map Mention.bare) = .ok vs ↔ traverse scope.resolve ms = .ok vs := by
  rw [traverse_eq_ok_iff, traverse_eq_ok_iff, List.forall₂_map_left_iff]
  simp only [resolve_bare]

theorem define_bare {m : Mention} {v : ValueId} :
    scope.define m.bare v = .ok scope' ↔ scope.define m v = .ok scope' := by
  rw [define_eq_ok_iff, define_eq_ok_iff]
  exact Iff.rfl

/-- The offsets of names have no influence on the scope. -/
theorem defineAll_bare {ms : List Mention} {vs : List ValueId} :
    scope.defineAll (ms.map Mention.bare) vs = .ok scope' ↔ scope.defineAll ms vs = .ok scope' := by
  induction ms generalizing scope vs with
  | nil => exact Iff.rfl
  | cons m ms ih =>
    cases vs with
    | nil => exact Iff.rfl
    | cons v vs =>
      rw [List.map_cons, defineAll, defineAll, bind_eq_ok_iff, bind_eq_ok_iff]
      simp only [define_bare, ih]

end Scope

/-- The offsets of parameters have no influence on the graph. -/
theorem buildParams_bare {g g' : Graph} {scope scope' : Scope} {b : BlockId}
    {params : List (Mention × TypeTree)} :
    buildParams g scope b (bareParams params) = .ok (g', scope') ↔
      buildParams g scope b params = .ok (g', scope') := by
  induction params generalizing g scope with
  | nil => exact Iff.rfl
  | cons p params ih =>
    rw [bareParams, List.map_cons, buildParams, buildParams, bind_eq_ok_iff, bind_eq_ok_iff]
    simp only [Scope.define_bare]
    exact exists_congr fun scope₁ => and_congr_right fun _ => ih

namespace NodeDraft

/-- Labels are made of names and types. -/
theorem internLabels_bare (t : TypeTable) (ms : List Mention) (tys : List TypeTree) :
    internLabels t (ms.map Mention.bare) tys = internLabels t ms tys := by
  induction ms generalizing t tys with
  | nil => rfl
  | cons m ms ih =>
    cases tys with
    | nil => rfl
    | cons ty tys =>
      have hlabel : internLabel t m.bare ty = internLabel t m ty := rfl
      rw [List.map_cons, internLabels, internLabels, hlabel]
      generalize internLabel t m ty = p
      obtain ⟨first, t⟩ := p
      dsimp only
      rw [ih]

theorem spec_bare (d : NodeDraft) (t : TypeTable) (inputs : List ValueId) (blocks : List BlockId) :
    d.bare.spec t inputs blocks = d.spec t inputs blocks := by
  rw [spec, spec, bare, internLabels_bare]

theorem interned_bare (d : NodeDraft) (t : TypeTable) : d.bare.interned t = d.interned t := by
  rw [interned, interned, bare, internLabels_bare]

/-- Whether a node passes its check does not depend on offsets; which offset is reported does. -/
theorem check_bare (d : NodeDraft) : d.bare.check = .ok () ↔ d.check = .ok () := by
  have hok : ∀ d : NodeDraft, d.check = .ok () ↔
      d.results.length = d.types.length ∧ ¬(d.kind = .raise ∧ d.results ≠ []) := by
    intro d
    rw [check]
    split
    · rename_i hlength
      exact iff_of_false (fun h => by cases h) fun h => hlength h.1
    · rename_i hlength
      rw [not_not] at hlength
      split
      · rename_i hraise
        exact iff_of_false (fun h => by cases h) fun h => h.2 hraise
      · rename_i hraise
        exact iff_of_true rfl ⟨hlength, hraise⟩
  rw [hok, hok, bare]
  simp only [List.length_map, ne_eq, List.map_eq_nil_iff]

end NodeDraft

mutual

/-- The offsets of nodes have no influence on the graph, at any depth. -/
theorem buildNodes_bare : ∀ {body : BodyDraft} {g g' : Graph} {scope scope' : Scope} {b : BlockId},
    buildNodes g scope b (body.map NodeDraft.bare BlockDraft.bare) = .ok (g', scope') ↔
      buildNodes g scope b body = .ok (g', scope')
  | .done, g, g', scope, scope', b => Iff.rfl
  | .node head arms rest, g, g', scope, scope', b => by
    rw [Body.map, buildNodes_node_iff, buildNodes_node_iff, NodeDraft.check_bare]
    have hoperands : head.bare.operands = head.operands.map Mention.bare := rfl
    have hresults : head.bare.results = head.results.map Mention.bare := rfl
    simp only [NodeDraft.spec_bare, NodeDraft.interned_bare, hoperands, hresults,
      Scope.traverse_resolve_bare, Scope.defineAll_bare]
    refine and_congr_right fun _ => exists_congr fun inputs => and_congr_right fun _ => ?_
    refine exists_congr fun blocks => exists_congr fun g₁ => and_congr buildArms_bare ?_
    exact exists_congr fun scope₁ => and_congr_right fun _ => buildNodes_bare

theorem buildArms_bare : ∀ {arms : ArmsDraft} {g g' : Graph} {scope : Scope} {blocks : List BlockId},
    buildArms g scope (arms.map NodeDraft.bare BlockDraft.bare) = .ok (blocks, g') ↔
      buildArms g scope arms = .ok (blocks, g')
  | .done, g, g', scope, blocks => Iff.rfl
  | .arm head body rest, g, g', scope, blocks => by
    rw [Arms.map, buildArms_arm_iff, buildArms_arm_iff]
    have hparams : head.bare.params = bareParams head.params := rfl
    have hreturns : head.bare.returns = head.returns.map Mention.bare := rfl
    simp only [hparams, hreturns, buildParams_bare, Scope.traverse_resolve_bare]
    refine exists_congr fun g₁ => exists_congr fun scope₁ => and_congr_right fun _ => ?_
    refine exists_congr fun g₂ => exists_congr fun scope₂ => and_congr buildNodes_bare ?_
    refine exists_congr fun returns => and_congr_right fun _ => ?_
    exact exists_congr fun more => and_congr_left fun _ => buildArms_bare

end

/-- The offsets of the values do not matter to the graph. -/
theorem GraphDraft.build_bare_iff {draft : GraphDraft} {g : Graph} :
    draft.bare.build = .ok g ↔ draft.build = .ok g := by
  rw [GraphDraft.build_eq_ok_iff, GraphDraft.build_eq_ok_iff, GraphDraft.toArms_bare]
  exact buildArms_bare

/-- Signs stay as they are. -/
theorem Relaid.append {w s s' : List Char} (hw : w.all isSign = true) (h : Relaid s s') :
    Relaid (w ++ s) (w ++ s') := by
  induction w with
  | nil => exact h
  | cons c w ih =>
    rw [List.all_cons, Bool.and_eq_true] at hw
    refine .sign ?_ (Alike.startsGap_of_isSign hw.1 _) (ih hw.2)
    rintro rfl
    cases hw.1

end Text

open Text

/-- **Layout does not matter.**  If a text is read as a graph and some of its gaps are replaced by others,
what results is read as the same graph. -/
theorem Graph.ofText_of_relaid {text text' : String} {g : Graph}
    (h : Relaid text.toList text'.toList) (hg : Graph.ofText text = .ok g) :
    Graph.ofText text' = .ok g := by
  obtain ⟨draft, hdraft, hbuild⟩ := bind_eq_ok_iff.1 hg
  rcases h.alike with ⟨n, halike⟩ | ⟨n, halike⟩
  · obtain ⟨-, draft', hdraft', hbare⟩ := GraphDraft.ofText_alike hdraft halike
    refine bind_eq_ok_iff.2 ⟨draft', hdraft', ?_⟩
    rw [← GraphDraft.build_bare_iff, hbare]
    exact GraphDraft.build_bare_iff.2 hbuild
  · -- a text with a lone slash is not read
    exact absurd (GraphDraft.ofText_alike hdraft halike).1 (by decide)

/-- A blank becomes a comment, a comment becomes blanks, and what looks like a comment in a string stays. -/
theorem Graph.ofText_of_relaid_comments : ∃ g,
    Graph.ofText "graph() \x7b a.b() \x7bk = \"// \"\x7d // c\n\x7d// d" = .ok g ∧ g.nodes.size = 1 ∧
    Graph.ofText "graph()// x\n\x7b// \"\n\ta.b()\t\x7bk = \"// \"\x7d\t\x7d " = .ok g := by
  have h : ((Graph.ofText "graph() \x7b a.b() \x7bk = \"// \"\x7d // c\n\x7d// d").toOption.map
      fun g => g.nodes.size) = some 1 := by decide +kernel
  obtain ⟨g, hg, hsize⟩ := Option.map_eq_some_iff.1 h
  have hg := toOption_eq_some_iff.1 hg
  refine ⟨g, hg, hsize, Graph.ofText_of_relaid ?_ hg⟩
  have hblank : ∀ c, isBlank c = true → Gap [c] := fun c hc => .blank hc .nil
  have hcomment : ∀ text r, '\n' ∉ text → Gap r → Gap ('/' :: '/' :: (text ++ '\n' :: r)) :=
    fun _ _ htext hr => .comment htext hr
  have hinside : Inside ['/', '/', ' '] := .plain (by decide) (by decide) (.plain (by decide) (by decide)
    (.plain (by decide) (by decide) .nil))
  -- Part by part: what is the same in both texts, then the gaps.
  refine Relaid.append (w := "graph()".toList) (by decide) ?_
  refine .gap (hblank ' ' rfl) (hcomment [' ', 'x'] [] (by decide) .nil) (by decide) (by decide)
    (by decide) ?_
  refine Relaid.append (w := ['\x7b']) (by decide) ?_
  refine .gap (hblank ' ' rfl) (hcomment [' ', '"'] ['\t'] (by decide) (hblank '\t' rfl)) (by decide)
    (by decide) (by decide) ?_
  refine Relaid.append (w := "a.b()".toList) (by decide) ?_
  refine .gap (hblank ' ' rfl) (hblank '\t' rfl) (by decide) (by decide) (by decide) ?_
  refine Relaid.append (w := "\x7bk".toList) (by decide) ?_
  refine .gap (hblank ' ' rfl) (hblank ' ' rfl) (by decide) (by decide) (by decide) ?_
  refine Relaid.append (w := ['=']) (by decide) ?_
  refine .gap (hblank ' ' rfl) (hblank ' ' rfl) (by decide) (by decide) (by decide) ?_
  refine .quoted hinside (Relaid.append (w := ['\x7d']) (by decide) ?_)
  refine .gap (.blank (c := ' ') rfl (hcomment [' ', 'c'] [] (by decide) .nil)) (hblank '\t' rfl)
    (by decide) (by decide) (by decide) ?_
  refine Relaid.append (w := ['\x7d']) (by decide) ?_
  exact .last (Or.inr ⟨[], [' ', 'd'], .nil, by decide, rfl⟩) (Or.inl (hblank ' ' rfl)) (by decide)
    (by decide)

end Unguard
