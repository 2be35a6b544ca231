import Unguard.Proofs.ReadMarks

/-!
# Where a reader stands

Offsets are carried along by every reader and are never computed from the text.  They are right all the
same: a reader that starts in a text stays in it, its offset is the number of bytes before the rest, and
so is the offset of a failure (`Reader.Locates`).  A value that is mentioned keeps the offset of its
name, so the name is found in the text again by its offset (`Mention.StandsIn`).

The main results are `GraphDraft.standsIn_of_ofText`, for the mentions of a draft, and
`GraphDraft.offset_le_of_ofText`, for the error of a text that has none.
-/

namespace Unguard.Text

/-! ### Bytes -/

/-- The number of bytes that the characters take. -/
def byteCount (text : List Char) : Nat :=
  (String.ofList text).utf8ByteSize

@[simp] theorem byteCount_nil : byteCount [] = 0 := rfl

@[simp] theorem byteCount_cons (c : Char) (text : List Char) :
    byteCount (c :: text) = c.utf8Size + byteCount text := by
  rw [byteCount, String.ofList_cons, String.utf8ByteSize_append, String.utf8ByteSize_singleton,
    byteCount]

@[simp] theorem byteCount_append (a b : List Char) :
    byteCount (a ++ b) = byteCount a + byteCount b := by
  rw [byteCount, String.ofList_append, String.utf8ByteSize_append, byteCount, byteCount]

theorem byteCount_toList (text : String) : byteCount text.toList = text.utf8ByteSize := by
  rw [byteCount, String.ofList_toList]

/-! ### Cursors -/

namespace Cursor

variable {start cursor next : Cursor}

/-- The second cursor is in the text of the first one, and counts the bytes between them. -/
def Reaches (cursor next : Cursor) : Prop :=
  ∃ taken, cursor.rest = taken ++ next.rest ∧ next.offset = cursor.offset + byteCount taken

theorem Reaches.refl (cursor : Cursor) : cursor.Reaches cursor :=
  ⟨[], rfl, rfl⟩

/-- Bytes are counted on. -/
theorem Reaches.trans (h : start.Reaches cursor) (h' : cursor.Reaches next) : start.Reaches next := by
  obtain ⟨before, hbefore, hoffset⟩ := h
  obtain ⟨taken, htaken, hnext⟩ := h'
  refine ⟨before ++ taken, by rw [hbefore, htaken, List.append_assoc], ?_⟩
  rw [hnext, hoffset, byteCount_append, Nat.add_assoc]

theorem reaches_cons (c : Char) (text : List Char) (offset : Nat) :
    Reaches ⟨c :: text, offset⟩ ⟨text, offset + c.utf8Size⟩ :=
  ⟨[c], rfl, by simp⟩

/-- No cursor is behind the end of the text. -/
theorem Reaches.offset_le (h : start.Reaches cursor) :
    cursor.offset ≤ start.offset + byteCount start.rest := by
  obtain ⟨taken, htaken, hoffset⟩ := h
  rw [hoffset, htaken, byteCount_append]
  omega

end Cursor

open Cursor

mutual

/-- Blanks and comments are counted by their bytes. -/
theorem reaches_skipBlanks : ∀ (text : List Char) (offset : Nat),
    Reaches ⟨text, offset⟩ (skipBlanks text offset)
  | [], offset => by
    rw [skipBlanks]
    exact .refl _
  | c :: cs, offset => by
    rw [skipBlanks.eq_def]
    split
    · rename_i heq
      cases heq
    · rename_i heq
      cases heq
      exact Reaches.trans ⟨['/', '/'], rfl, rfl⟩ (reaches_skipComment _ _)
    · rename_i heq
      cases heq
      split
      · exact (reaches_cons _ _ _).trans (reaches_skipBlanks _ _)
      · exact .refl _

theorem reaches_skipComment : ∀ (text : List Char) (offset : Nat),
    Reaches ⟨text, offset⟩ (skipComment text offset)
  | [], offset => by
    rw [skipComment]
    exact .refl _
  | c :: cs, offset => by
    rw [skipComment]
    split
    · exact (reaches_cons c cs offset).trans (reaches_skipBlanks cs _)
    · exact (reaches_cons c cs offset).trans (reaches_skipComment cs _)

end

/-! ### Readers -/

/-- A quoted string ends in the text, and so does what is taken for one by mistake. -/
theorem meets_unquote (text : List Char) (offset : Nat) : (unquote text offset).Meets
    (fun _ next => Reaches ⟨text, offset⟩ next) fun stop => stop ≤ offset + byteCount text := by
  -- Every step takes one character or, at a backslash, two.
  fun_induction unquote text offset with
  | case1 offset => exact Nat.le_add_right _ _
  | case2 offset => exact Nat.le_refl _
  | case3 c cs offset inside next hrest ih =>
    rw [hrest] at ih
    refine Reaches.trans ⟨['\\', c], rfl, ?_⟩ ih
    simp only [byteCount_cons, byteCount_nil, Nat.add_assoc, Nat.add_zero]
    rfl
  | case4 c cs offset stop hrest ih =>
    rw [hrest] at ih
    refine Nat.le_trans ih ?_
    simp only [byteCount_cons, Nat.add_assoc]
    exact Nat.le_refl _
  | case5 cs offset => exact reaches_cons '"' cs offset
  | case6 c cs offset _ _ _ inside next hrest ih =>
    rw [hrest] at ih
    exact (reaches_cons c cs offset).trans ih
  | case7 c cs offset _ _ _ stop hrest ih =>
    rw [hrest] at ih
    refine Nat.le_trans ih ?_
    rw [byteCount_cons, Nat.add_assoc]

/-- The trail that stays inside the text of `start`. -/
def Trail.inside (start : Cursor) : Trail Empty where
  Reaches _ cursor := start.Reaches cursor
  Stops offset := offset ≤ start.offset + byteCount start.rest
  Plain _ := True
  sign _ := []
  Idle _ := True
  stops_of_reaches hin := hin.offset_le
  plain_of_isPlain _ := trivial
  reaches_cons _ hin := hin.trans (Cursor.reaches_cons _ _ _)
  reaches_blanks hin := hin.trans (reaches_skipBlanks _ _)
  meets_unquote {_ rest offset} hin := by
    have hinside := hin.trans (Cursor.reaches_cons '"' rest offset)
    refine (Text.meets_unquote rest _).mono (fun _ next => hinside.trans) fun stop hstop => ?_
    -- the end of what follows the quote is the end of the text
    obtain ⟨before, hbefore, hoffset⟩ := hinside
    rw [hbefore, byteCount_append, ← Nat.add_assoc, ← hoffset]
    exact hstop
  idle_nil := trivial
  idle_append _ _ := trivial
  idle_sign _ := trivial

/-- A reader that starts inside the text of `start` stays there, and what it gives satisfies `P`. -/
def Reader.Locates {α : Type} (start : Cursor) (p : Reader α) (P : α → Prop) : Prop :=
  p.Yields (.inside start) P

/-- The name stands in the text of `start` after a percent sign, at the offset that was kept, and it is
the whole name. -/
def Mention.StandsIn (start : Cursor) (m : Mention) : Prop :=
  ∃ before after, start.rest = before ++ '%' :: (m.name.toList ++ after) ∧
    m.offset = start.offset + byteCount before + 1 ∧ IsValueName m.name ∧
    Reader.stops isNamePart after = true

namespace Reader

variable {start : Cursor}

/-- The offset that is kept is taken after the percent sign and before the name. -/
theorem locates_mention : mention.Locates start (Mention.StandsIn start) := by
  have hstays : mention.Locates start fun _ => True := (follows_char trivial).skip fun _ =>
    follows_offset.skip fun _ => (quiet_takeWhile1 fun _ => isPlain_of_isNamePart).skip fun _ =>
      yields_pure trivial
  intro ts cursor hin
  cases hdone : mention cursor with
  | failed stop => exact Follows.of_failed hstays hin hdone
  | done m next =>
    obtain ⟨us, hnext, -⟩ := Follows.of_done hstays hin hdone
    refine ⟨us, hnext, ?_⟩
    have hname := mention_gives.of_done hdone
    obtain ⟨u, middle, hsign, hdone⟩ := bind_eq_done hdone
    obtain ⟨offset, middle', hoffset, hdone⟩ := bind_eq_done hdone
    cases hoffset
    obtain ⟨text, after, htext, hdone⟩ := bind_eq_done hdone
    cases hdone
    obtain ⟨hrest, hstop⟩ := takeWhile1_eq_done htext
    obtain ⟨before, hbefore, hbytes⟩ := hin
    -- the sign takes one byte, after which the name starts
    have hmiddle : middle.offset = cursor.offset + 1 := by
      obtain ⟨c, next, hc, hnext⟩ := bind_eq_done hsign
      cases hnext
      have hpercent := of_decide_eq_true ((satisfy_gives _).of_done hc)
      rw [satisfy] at hc
      split at hc
      · split at hc
        · cases hc
          rw [hpercent]
          rfl
        · cases hc
      · cases hc
    refine ⟨before, next.rest, ?_, ?_, hname, hstop⟩
    · rw [hbefore, char_eq_done hsign, hrest, String.toList_ofList]
    · rw [hmiddle, hbytes]

/-! ### Values -/

theorem locates_mentions : mentions.Locates start fun ms => ∀ m ∈ ms, m.StandsIn start :=
  locates_mention.padded.separated

theorem locates_operands : operands.Locates start fun ms => ∀ m ∈ ms, m.StandsIn start :=
  locates_mentions.bracketed rfl rfl

theorem locates_results : results.Locates start fun ms => ∀ m ∈ ms, m.StandsIn start :=
  locates_mention.padded.separated1.bind fun _ hms => (quiet_char rfl).skip fun _ => yields_pure hms

theorem locates_params (depth : Nat) :
    (params depth).Locates start fun ps => ∀ p ∈ ps, p.1.StandsIn start := by
  have hparam : (param depth).Locates start fun p => p.1.StandsIn start :=
    Yields.padded <| locates_mention.bind fun _ hm => follows_blanks.skip fun _ =>
      (quiet_char rfl).skip fun _ => follows_blanks.skip fun _ => (quiet_type depth).skip fun _ =>
        yields_pure hm
  exact hparam.separated.bracketed rfl rfl

end Reader

/-! ### Drafts -/

mutual

/-- Every value that the nodes mention, at any depth, satisfies `P`. -/
def BodyDraft.Mentions (P : Mention → Prop) : BodyDraft → Prop
  | .done => True
  | .node head arms rest => (∀ m ∈ head.operands, P m) ∧ ArmsDraft.Mentions P arms ∧
      (∀ m ∈ head.results, P m) ∧ BodyDraft.Mentions P rest

@[inherit_doc BodyDraft.Mentions]
def ArmsDraft.Mentions (P : Mention → Prop) : ArmsDraft → Prop
  | .done => True
  | .arm head body rest => (∀ p ∈ head.params, P p.1) ∧ BodyDraft.Mentions P body ∧
      (∀ m ∈ head.returns, P m) ∧ ArmsDraft.Mentions P rest

end

/-- Every value that the graph mentions satisfies `P`. -/
def GraphDraft.Mentions (P : Mention → Prop) (draft : GraphDraft) : Prop :=
  (∀ p ∈ draft.params, P p.1) ∧ ArmsDraft.Mentions P (.arm draft.block draft.body .done)

namespace Reader

variable {start : Cursor}

/-- The values of a node stand in the text, its results apart. -/
def LocatedItem (start : Cursor) (item : NodeItem) : Prop :=
  (∀ m ∈ item.1.operands, m.StandsIn start) ∧ ArmsDraft.Mentions (Mention.StandsIn start) item.2

theorem locates_opNode (depth : Nat) : (opNode depth).Locates start (LocatedItem start) :=
  quiet_qualified.skip fun _ => follows_blanks.skip fun _ => locates_operands.bind fun _ hoperands =>
    (quiet_attributes depth).skip fun _ => (quiet_annotated depth).skip fun _ =>
      yields_pure ⟨hoperands, trivial⟩

theorem locates_raiseNode (depth : Nat) : (raiseNode depth).Locates start (LocatedItem start) :=
  (quiet_keyword rfl).skip fun _ => locates_operands.bind fun _ hoperands =>
    (quiet_attributes depth).skip fun _ => yields_pure ⟨hoperands, trivial⟩

/-- The values of an item of a block stand in the text. -/
def LocatedPart (start : Cursor) : Item → Prop
  | .node item => (∀ m ∈ item.1.results, m.StandsIn start) ∧ LocatedItem start item
  | .returns values => ∀ m ∈ values, m.StandsIn start

section Block

variable {block : Reader (BlockDraft × BodyDraft)} (hblock : block.Locates start fun b =>
  ArmsDraft.Mentions (Mention.StandsIn start) (.arm b.1 b.2 .done))
include hblock

/-- The mentions of both arms are mentions of the conditional. -/
theorem locates_conditional (depth : Nat) :
    (conditional depth block).Locates start (LocatedItem start) := by
  refine (quiet_keyword rfl).skip fun _ => locates_operands.bind fun operands hoperands => ?_
  refine (quiet_annotated depth).skip fun _ => follows_blanks.skip fun _ => ?_
  refine hblock.bind fun first hfirst => follows_blanks.skip fun _ => (quiet_keyword rfl).skip fun _ => ?_
  refine hblock.bind fun second hsecond => yields_pure ⟨hoperands, ?_⟩
  exact ⟨hfirst.1, hfirst.2.1, hfirst.2.2.1, hsecond⟩

theorem locates_node (depth : Nat) :
    (node depth block).Locates start fun item => LocatedPart start (.node item) := by
  refine locates_results.optional.bind fun results hresults => follows_blanks.skip fun _ => ?_
  refine Yields.bind ((locates_opNode depth).orElse
    ((locates_conditional hblock depth).orElse (locates_raiseNode depth))) fun item hitem => ?_
  exact yields_pure ⟨forall_mem_getD hresults, hitem⟩

/-- The mentions of a block are those of its nodes and those of its return. -/
theorem locates_items (depth : Nat) : ∀ budget : List Char,
    (items (item depth block) budget).Locates start fun b =>
      BodyDraft.Mentions (Mention.StandsIn start) b.1 ∧ ∀ m ∈ b.2, m.StandsIn start
  | [] => follows_fail
  | _ :: budget => by
    have hitem : (item depth block).Locates start (LocatedPart start) :=
      Follows.orElse ((locates_node hblock depth).bind fun _ h => yields_pure h)
        ((quiet_word rfl).skip fun _ => locates_mentions.bind fun _ h => yields_pure h)
    refine follows_blanks.skip fun _ => (quiet_nextIs _).skip fun closed => ?_
    split
    · exact yields_pure ⟨trivial, List.forall_mem_nil _⟩
    · refine hitem.bind fun item h => ?_
      split
      · refine (locates_items depth budget).bind fun b hrest => yields_pure ?_
        exact ⟨⟨h.2.1, h.2.2, h.1, hrest.1⟩, hrest.2⟩
      · exact follows_blanks.skip fun _ => yields_pure ⟨trivial, h⟩

end Block

theorem locates_block (depth : Nat) : ∀ nesting : Nat, (block depth nesting).Locates start fun b =>
    ArmsDraft.Mentions (Mention.StandsIn start) (.arm b.1 b.2 .done)
  | 0 => follows_fail
  | nesting + 1 => by
    have hparams : Locates start (do char '^'; params depth) fun ps => ∀ p ∈ ps, p.1.StandsIn start :=
      (quiet_char rfl).skip fun _ => locates_params depth
    have hitems := follows_rest (locates_items (locates_block depth nesting) depth)
    refine (quiet_char rfl).skip fun _ => follows_blanks.skip fun _ => ?_
    refine hparams.optional.bind fun params hparams => Yields.bind hitems fun b hbody => ?_
    refine (quiet_char rfl).skip fun _ => yields_pure ?_
    exact ⟨forall_mem_getD hparams, hbody.1, hbody.2, trivial⟩

theorem locates_graph (depth : Nat) :
    (graph depth).Locates start (GraphDraft.Mentions (Mention.StandsIn start)) :=
  Yields.padded <| (quiet_keyword rfl).skip fun _ => (locates_params depth).bind fun _ hparams =>
    follows_blanks.skip fun _ => (locates_block depth depth).bind fun _ hblock =>
      yields_pure ⟨hparams, hblock⟩

end Reader

namespace GraphDraft

variable {text : String}

/-- Every value of a draft that was read stands in the text where the draft says. -/
theorem standsIn_of_ofText {draft : GraphDraft} (h : GraphDraft.ofText text = .ok draft) :
    draft.Mentions (Mention.StandsIn (Cursor.ofString text)) := by
  rw [GraphDraft.ofText] at h
  split at h
  · cases h
  · rename_i hdone
    have hstart : (Trail.inside (Cursor.ofString text)).Reaches [] _ := Reaches.refl _
    obtain ⟨us, -, hmentions⟩ := Reader.Follows.of_done (Reader.locates_graph _) hstart hdone
    split at h
    · cases h
      exact hmentions
    · cases h

/-- A text without a draft is refused at a byte of the text or at its end. -/
theorem offset_le_of_ofText {e : ReadError} (h : GraphDraft.ofText text = .error e) :
    e.offset ≤ text.utf8ByteSize ∧ (e.problem = .malformed ∨ e.problem = .trailing) := by
  have hsize : (Cursor.ofString text).offset + byteCount (Cursor.ofString text).rest =
      text.utf8ByteSize := by
    rw [Cursor.ofString, byteCount_toList, Nat.zero_add]
  have hstart : (Trail.inside (Cursor.ofString text)).Reaches [] _ := Reaches.refl _
  rw [GraphDraft.ofText] at h
  split at h
  · rename_i hfailed
    cases h
    -- A failed reader stops inside the text.
    have hstop := Reader.Follows.of_failed (Reader.locates_graph _) hstart hfailed
    exact ⟨Nat.le_trans hstop (Nat.le_of_eq hsize), Or.inl rfl⟩
  · rename_i hdone
    obtain ⟨us, hnext, -⟩ := Reader.Follows.of_done (Reader.locates_graph _) hstart hdone
    split at h
    · cases h
    · cases h
      exact ⟨Nat.le_trans hnext.offset_le (Nat.le_of_eq hsize), Or.inr rfl⟩

end GraphDraft

end Unguard.Text
