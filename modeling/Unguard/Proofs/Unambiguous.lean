import Unguard.Proofs.Refusing

/-!
# Texts have one draft

Drafts that follow the grammar and have the same text are the same, places in the text apart
(`GraphDraft.bare_eq_of_text_eq`).  For finite floats this follows from reading the text back.  An
infinity is written as a word that is not read, but its text has one meaning as well, so drafts are
compared part by part: where a part can be read, both texts are read by the same reader
(`Reads.unique`), and only constants with infinities are told apart by hand (`Literal.told`).
-/

namespace Unguard

/-- A number that is not finite is known by its text. -/
theorem Binary64.eq_of_text_eq {a b : UInt64} (ha : IsNumber a) (hb : IsNumber b)
    (ha' : ¬IsFinite a) (hb' : ¬IsFinite b) (h : text a = text b) : a = b := by
  have hcode : ∀ {c : UInt64}, IsNumber c → ¬IsFinite c → code c = infinityCode := fun hc hc' =>
    Nat.le_antisymm hc (Nat.not_lt.1 hc')
  have htext : ∀ {c : UInt64}, code c = infinityCode →
      text c = (if isNegative c then "-" else "") ++ "inf" := fun hc => by
    rw [text, hc, if_neg (Nat.lt_irrefl _), if_pos rfl]
  -- The only part of an infinity that its text leaves open is the sign.
  have hsign : isNegative a = isNegative b := by
    rw [htext (hcode ha ha'), htext (hcode hb hb')] at h
    cases hna : isNegative a <;> cases hnb : isNegative b <;> rw [hna, hnb] at h <;>
      first | rfl | exact absurd h (by decide)
  rw [← bits_isNegative_code a, ← bits_isNegative_code b, hsign, hcode ha ha', hcode hb hb']

namespace Text

namespace Reader

variable {α ι : Type} {text text' rest rest' : List Char} {P P' : α → Prop}

/-! ### Reading the same text -/

/-- A text is read in one way. -/
theorem Reads.unique {p : Reader α} (h : p.Reads text rest P) (htext : text = text')
    (h' : p.Reads text' rest' P') : rest = rest' ∧ ∃ a, P a ∧ P' a := by
  subst htext
  obtain ⟨a, next, hdone, ha⟩ := h 0
  obtain ⟨a', next', hdone', ha'⟩ := h' 0
  obtain ⟨rfl, hnext⟩ := Outcome.done.inj (hdone.symm.trans hdone')
  exact ⟨congrArg Cursor.rest hnext, a, ha, ha'⟩

/-- A text that is read is not refused. -/
theorem Reads.not_refuses {p : Reader α} (h : p.Reads text rest P) (htext : text = text') :
    ¬p.Refuses text' := by
  subst htext
  intro h'
  obtain ⟨a, next, hdone, -⟩ := h 0
  obtain ⟨stop, hfailed⟩ := h' 0
  exact nomatch hdone.symm.trans hfailed

/-- What stands after blanks. -/
theorem eq_of_blank_append {before before' : List Char} (hbefore : Blank before)
    (hbefore' : Blank before') (hrest : isSolid rest = true) (hrest' : isSolid rest' = true)
    (h : before ++ rest = before' ++ rest') : rest = rest' :=
  ((reads_blanks hbefore hrest).unique h (reads_blanks hbefore' hrest')).1

/-! ### Constants -/

/-- The text of `i` is told from those of other such items, wherever no lexeme goes on after them. -/
def Told (P : ι → Prop) (text : ι → String) (i : ι) : Prop :=
  ∀ {j : ι} {r s : List Char}, P j → isApart r = true → isApart s = true →
    (text i).toList ++ r = (text j).toList ++ s → i = j ∧ r = s

section Lists

variable {Q : ι → Prop} {text : ι → String} {r s : List Char}

/-- Items after commas can be told apart if each of them can. By induction along both lists. -/
theorem eq_of_itemsAfter_eq (hr : isApart r = true) (hs : isApart s = true)
    (hr' : stops (· = ',') r = true) (hs' : stops (· = ',') s = true) : ∀ {items items' : List ι},
    (∀ i ∈ items, Told Q text i) → (∀ i ∈ items', Q i) →
    itemsAfter text items [] r = itemsAfter text items' [] s → items = items' ∧ r = s
  | [], [], _, _, h => ⟨rfl, h⟩
  | [], i :: items, _, _, h => by
    rw [itemsAfter_cons] at h
    rw [show r = _ from h] at hr'
    exact nomatch hr'
  | i :: items, [], _, _, h => by
    rw [itemsAfter_cons] at h
    rw [show s = _ from h.symm] at hs'
    exact nomatch hs'
  | i :: items, j :: items', htold, hitems, h => by
    rw [List.forall_mem_cons] at htold hitems
    rw [itemsAfter_cons, itemsAfter_cons] at h
    -- Both items end where their texts come apart from what follows, so they are told apart.
    have hapart : ∀ {q : List Char} (items : List ι), isApart q = true →
        isApart (itemsAfter text items [] q) = true := fun items hq =>
      isApart_itemsAfter (show isApart ([] ++ _) = true from hq) items
    obtain ⟨rfl, hafter⟩ := htold.1 hitems.1 (hapart items hr) (hapart items' hs)
      (List.cons.inj (List.cons.inj h).2).2
    obtain ⟨rfl, hrest⟩ := eq_of_itemsAfter_eq hr hs hr' hs' htold.2 hitems.2 hafter
    exact ⟨rfl, hrest⟩

/-- Lists with commas that have the same text have the same items. -/
theorem eq_of_commaSeparated_eq (hr : isApart r = true) (hs : isApart s = true)
    (hr' : stops (· = ',') r = true) (hs' : stops (· = ',') s = true) {items items' : List ι}
    (hne : items ≠ []) (hne' : items' ≠ []) (htold : ∀ i ∈ items, Told Q text i)
    (hitems : ∀ i ∈ items', Q i) (h : (commaSeparated (items.map text)).toList ++ r =
      (commaSeparated (items'.map text)).toList ++ s) : items = items' ∧ r = s := by
  obtain ⟨i, items, rfl⟩ := List.exists_cons_of_ne_nil hne
  obtain ⟨j, items', rfl⟩ := List.exists_cons_of_ne_nil hne'
  rw [List.map_cons, List.map_cons, toList_commaSeparated_cons, toList_commaSeparated_cons,
    List.append_assoc, List.append_assoc] at h
  refine eq_of_itemsAfter_eq hr hs hr' hs' htold hitems ?_
  rw [itemsAfter_cons, itemsAfter_cons]
  exact congrArg (',' :: ' ' :: ·) h

end Lists

end Reader

open Reader

/-- What is not finite is an infinity or a list. -/
theorem Literal.cases_of_not_finite {l : Literal} (hnamed : l.Named) (h : ¬l.Finite) :
    (∃ bits, l = .float bits ∧ Binary64.IsNumber bits ∧ ¬Binary64.IsFinite bits) ∨
      ∃ items, l = .list items ∧ items ≠ [] ∧ ∀ item ∈ items, item.Named := by
  cases l with
  | float bits =>
    refine Or.inl ⟨bits, rfl, hnamed.floats bits List.mem_cons_self, fun hbits => h ?_⟩
    exact List.forall_mem_singleton.2 hbits
  | list items =>
    refine Or.inr ⟨items, rfl, fun hnil => h ?_, Literal.named_list.1 hnamed⟩
    exact Literal.finite_of_floats_eq_nil (hnil ▸ rfl)
  | unit | bool | int | string | type => exact absurd (Literal.finite_of_floats_eq_nil rfl) h

/-- An infinity does not start with a bracket. -/
theorem ne_of_text_not_finite {bits : UInt64} (h : ¬Binary64.IsFinite bits) (r s : List Char) :
    (Binary64.text bits).toList ++ r ≠ '[' :: s := by
  rcases Binary64.text_of_not_isFinite h with htext | htext | htext <;> rw [htext] <;>
    exact fun hcons => absurd (List.cons.inj hcons).1 (by decide)

/-- Infinities are told apart. -/
theorem eq_of_infinities {a b : UInt64} (ha : Binary64.IsNumber a) (hb : Binary64.IsNumber b)
    (ha' : ¬Binary64.IsFinite a) (hb' : ¬Binary64.IsFinite b) {r s : List Char}
    (h : (Binary64.text a).toList ++ r = (Binary64.text b).toList ++ s) : a = b ∧ r = s := by
  have htexts : Binary64.text a = Binary64.text b := by
    rcases Binary64.text_of_not_isFinite ha' with hta | hta | hta <;>
      rcases Binary64.text_of_not_isFinite hb' with htb | htb | htb <;> rw [hta, htb] at h ⊢ <;>
      exact absurd (List.cons.inj h).1 (by decide)
  obtain rfl := Binary64.eq_of_text_eq ha hb ha' hb' htexts
  exact ⟨rfl, List.append_cancel_left h⟩

theorem Literal.toList_text_list (items : List Literal) (q : List Char) :
    (Literal.list items).text.toList ++ q =
      '[' :: ((commaSeparated (items.map Literal.text)).toList ++ ']' :: q) := by
  rw [Literal.text, Literal.texts_eq_map, String.toList_append, String.toList_append,
    List.append_assoc, List.append_assoc]
  rfl

/-- Constants are told apart, also where they cannot be read back. -/
theorem Literal.told {l : Literal} (hl : l.Named) : Told Literal.Named Literal.text l := by
  intro m r s hm hr hs h
  have hread : ∀ {k : Literal} {q : List Char}, k.Named → k.Finite → isApart q = true →
      ∀ depth, k.text.toList.length ≤ depth →
        (literal depth).Reads (k.text.toList ++ q) q fun a => a = k :=
    fun hk hfinite hq depth hdepth => (readsBack_literal hk hfinite hdepth).reads _ hq
  have hrefuse : ∀ {k : Literal} {q : List Char}, k.Named → ¬k.Finite → isApart q = true →
      ∀ depth, k.text.toList.length ≤ depth → (literal depth).Refuses (k.text.toList ++ q) :=
    fun hk hfinite hq depth hdepth => (rejects_literal hk hfinite hdepth).refuses _ hq
  -- The depth at which both can be read.
  have hl' := Nat.le_max_left l.text.toList.length m.text.toList.length
  have hm' := Nat.le_max_right l.text.toList.length m.text.toList.length
  by_cases hfinite : l.Finite <;> by_cases hfinite' : m.Finite
  · obtain ⟨hrest, a, rfl, rfl⟩ := (hread hl hfinite hr _ hl').unique h (hread hm hfinite' hs _ hm')
    exact ⟨rfl, hrest⟩
  · exact absurd (hrefuse hm hfinite' hs _ hm') ((hread hl hfinite hr _ hl').not_refuses h)
  · exact absurd (hrefuse hl hfinite hr _ hl') ((hread hm hfinite' hs _ hm').not_refuses h.symm)
  · -- Neither can be read back.  An infinity is known by its text, and a list by its items.
    rcases Literal.cases_of_not_finite hl hfinite with ⟨a, rfl, ha, ha'⟩ | ⟨items, rfl, hne, hitems⟩ <;>
      rcases Literal.cases_of_not_finite hm hfinite' with ⟨b, rfl, hb, hb'⟩ | ⟨items', rfl, hne', hitems'⟩
    · obtain ⟨rfl, hrest⟩ := eq_of_infinities ha hb ha' hb' h
      exact ⟨rfl, hrest⟩
    · exact absurd (h.trans (toList_text_list items' s)) (ne_of_text_not_finite ha' _ _)
    · exact absurd (h.symm.trans (toList_text_list items r)) (ne_of_text_not_finite hb' _ _)
    · rw [toList_text_list, toList_text_list] at h
      obtain ⟨rfl, hrest⟩ := eq_of_commaSeparated_eq rfl rfl rfl rfl hne hne'
        (fun item hitem => Literal.told (hitems item hitem)) hitems' (List.cons.inj h).2
      exact ⟨rfl, (List.cons.inj hrest).2⟩
termination_by l
decreasing_by
  subst_vars
  have hlt := List.sizeOf_lt_of_mem hitem
  simp only [Literal.list.sizeOf_spec]
  omega

/-! ### Nodes -/

/-- An entry can be told from others by its key and its constant. -/
theorem told_entry {e : String × Literal} (he : IsName e.1 ∧ e.2.Named) :
    Told (fun e => IsName e.1 ∧ e.2.Named) (fun e => e.1 ++ " = " ++ e.2.text) e := by
  intro e' r s he' hr hs h
  rw [toList_entry, toList_entry] at h
  obtain ⟨hvalue, key, hkey, hkey'⟩ := (reads_name he.1 rfl).unique h (reads_name he'.1 rfl)
  have hvalue := (List.cons.inj (List.cons.inj (List.cons.inj hvalue).2).2).2
  obtain ⟨hvalue, hrest⟩ := Literal.told he.2 he'.2 hr hs hvalue
  exact ⟨Prod.ext (hkey.symm.trans hkey') hvalue, hrest⟩

/-- What may stand after a node. -/
structure FollowsNode (kind : Kind) (after rest : List Char) : Prop where
  blank : Blank after
  solid : isSolid rest = true
  comma : stops (· = ',') rest = true
  colon : stops (· = ':') rest = true
  apart : isApart (after ++ rest) = true
  brace : kind ≠ .conditional → stops (· = '\x7b') rest = true

section Parts

variable {k k' : Kind} {after rest after' rest' : List Char}

/-- Attributes are told from what follows a node that is no conditional. -/
theorem eq_of_attributesPart_eq (hrest : FollowsNode k after rest)
    (hrest' : FollowsNode k' after' rest') (hk : k ≠ .conditional) (hk' : k' ≠ .conditional)
    {es es' : List (String × Literal)} (hes : ∀ e ∈ es, IsName e.1 ∧ e.2.Named)
    (hes' : ∀ e ∈ es', IsName e.1 ∧ e.2.Named) {tys tys' : List TypeTree}
    (h : (attributesPart es).toList ++ ((annotationText tys).toList ++ (after ++ rest)) =
      (attributesPart es').toList ++ ((annotationText tys').toList ++ (after' ++ rest'))) :
    es = es' ∧ (annotationText tys).toList ++ (after ++ rest) =
      (annotationText tys').toList ++ (after' ++ rest') := by
  -- Where there are no attributes, what comes next is not their brace.
  obtain ⟨skipped, text, hskipped, hsolid, hbrace, hsplit⟩ :=
    exists_annotation_split tys hrest.blank hrest.solid (hrest.brace hk)
  obtain ⟨skipped', text', hskipped', hsolid', hbrace', hsplit'⟩ :=
    exists_annotation_split tys' hrest'.blank hrest'.solid (hrest'.brace hk')
  have hspace : Blank [' '] := blank_cons rfl blank_nil
  cases es with
  | nil =>
    cases es' with
    | nil => exact ⟨rfl, h⟩
    | cons e' es' =>
      rw [toList_attributesPart (List.cons_ne_nil _ _)] at h
      rw [eq_of_blank_append hskipped hspace hsolid rfl (hsplit.symm.trans h)] at hbrace
      cases hbrace
  | cons e es =>
    cases es' with
    | nil =>
      rw [toList_attributesPart (List.cons_ne_nil _ _)] at h
      rw [eq_of_blank_append hskipped' hspace hsolid' rfl (hsplit'.symm.trans h.symm)] at hbrace'
      cases hbrace'
    | cons e' es' =>
      rw [toList_attributesPart (List.cons_ne_nil _ _), toList_attributesPart (List.cons_ne_nil _ _)] at h
      obtain ⟨hes, hafter⟩ := eq_of_commaSeparated_eq rfl rfl rfl rfl (List.cons_ne_nil _ _)
        (List.cons_ne_nil _ _) (fun e he => told_entry (hes e he)) hes'
        (List.cons.inj (List.cons.inj h).2).2
      exact ⟨hes, (List.cons.inj hafter).2⟩

theorem eq_of_annotationText_eq (hrest : FollowsNode k after rest)
    (hrest' : FollowsNode k' after' rest') {tys tys' : List TypeTree}
    (htys : ∀ ty ∈ tys, ty.Writable) (htys' : ∀ ty ∈ tys', ty.Writable)
    (h : (annotationText tys).toList ++ (after ++ rest) =
      (annotationText tys').toList ++ (after' ++ rest')) : tys = tys' := by
  have hle := Nat.le_max_left (annotationText tys).toList.length (annotationText tys').toList.length
  have hle' := Nat.le_max_right (annotationText tys).toList.length (annotationText tys').toList.length
  obtain ⟨_, -, hread⟩ := exists_reads_annotation htys hle hrest.blank hrest.solid hrest.comma
    hrest.colon hrest.apart
  obtain ⟨_, -, hread'⟩ := exists_reads_annotation htys' hle' hrest'.blank hrest'.solid hrest'.comma
    hrest'.colon hrest'.apart
  obtain ⟨-, a, rfl, rfl⟩ := hread.unique h hread'
  rfl

end Parts

/-- The name of an operator is read up to its parenthesis. -/
theorem reads_qualified_kind {op : Operator} (h : Kind.Named (.op op)) (q : List Char) :
    qualified.Reads ((Kind.op op).text.toList ++ '(' :: q) ('(' :: q) fun a => a = op := by
  have htext : (Kind.op op).text.toList ++ '(' :: q =
      op.dialect.toList ++ '.' :: (op.name.toList ++ '(' :: q) := by
    rw [Kind.text, Operator.text, String.toList_append, String.toList_append, List.append_assoc,
      List.append_assoc]
    rfl
  rw [htext]
  exact reads_qualified h.1 h.2 rfl

/-- Kinds are told apart up to the parenthesis after them. -/
theorem Kind.eq_of_text_append {k k' : Kind} (hk : Kind.Named k) (hk' : Kind.Named k')
    {r s : List Char} (h : k.text.toList ++ '(' :: r = k'.text.toList ++ '(' :: s) :
    k = k' ∧ r = s := by
  have hword : ∀ {w : String}, IsName w → ∀ q, qualified.Refuses (w.toList ++ '(' :: q) :=
    fun hw _ => refuses_qualified_of_name hw rfl rfl
  match k, k', hk, hk', h with
  | .conditional, .conditional, _, _, h | .raise, .raise, _, _, h =>
    exact ⟨rfl, (List.cons.inj (List.append_cancel_left h)).2⟩
  | .conditional, .raise, _, _, h | .raise, .conditional, _, _, h =>
    exact absurd (List.cons.inj h).1 (by decide)
  | .op _, .conditional, hk, _, h =>
    exact absurd (hword isName_if s) ((reads_qualified_kind hk r).not_refuses h)
  | .op _, .raise, hk, _, h =>
    exact absurd (hword isName_raise s) ((reads_qualified_kind hk r).not_refuses h)
  | .conditional, .op _, _, hk', h =>
    exact absurd (hword isName_if r) ((reads_qualified_kind hk' s).not_refuses h.symm)
  | .raise, .op _, _, hk', h =>
    exact absurd (hword isName_raise r) ((reads_qualified_kind hk' s).not_refuses h.symm)
  | .op _, .op _, hk, hk', h =>
    obtain ⟨hrest, a, rfl, rfl⟩ := (reads_qualified_kind hk r).unique h (reads_qualified_kind hk' s)
    exact ⟨rfl, (List.cons.inj hrest).2⟩

/-- Places in the text are not written. -/
theorem NodeDraft.text_bare (x : NodeDraft) : x.bare.text = x.text := by
  have hmentions : ∀ ms : List Mention, mentionsText (ms.map Mention.bare) = mentionsText ms := by
    intro ms
    rw [mentionsText, mentionsText, List.map_map]
    rfl
  rw [NodeDraft.text, NodeDraft.text, NodeDraft.bare]
  simp only [hmentions, List.isEmpty_map]

/-- Nodes are told apart up to what follows them. -/
theorem NodeDraft.bare_eq_of_text_append {x y : NodeDraft} (hx : x.Named) (hy : y.Named)
    {after rest after' rest' : List Char} (hrest : FollowsNode x.kind after rest)
    (hrest' : FollowsNode y.kind after' rest')
    (h : x.text.toList ++ (after ++ rest) = y.text.toList ++ (after' ++ rest')) :
    x.bare = y.bare ∧ after ++ rest = after' ++ rest' := by
  have hbare : x.bare = y.bare := by
    rw [NodeDraft.toList_text, NodeDraft.toList_text] at h
    simp only [List.append_assoc, List.cons_append] at h
    obtain ⟨hsolid, skipped, hskipped, hread⟩ := exists_reads_lead hx _
    obtain ⟨hsolid', skipped', hskipped', hread'⟩ := exists_reads_lead hy _
    -- The parts of a node one after the other: results, kind, operands, attributes and types.
    obtain ⟨hkind, o, ho, ho'⟩ := hread.unique h hread'
    obtain ⟨hkind, hoperands⟩ := Kind.eq_of_text_append hx.kind hy.kind
      (eq_of_blank_append hskipped hskipped' hsolid hsolid' hkind)
    obtain ⟨hattributes, ms, hms, hms'⟩ := (reads_operands hx.operands).unique
      (congrArg ('(' :: ·) hoperands) (reads_operands hy.operands)
    obtain ⟨hentries, htypes⟩ : x.attributes = y.attributes ∧ (annotationText x.types).toList ++
        (after ++ rest) = (annotationText y.types).toList ++ (after' ++ rest') := by
      by_cases hconditional : x.kind = .conditional
      · rw [hx.conditional hconditional, hy.conditional (hkind ▸ hconditional)] at hattributes ⊢
        exact ⟨rfl, hattributes⟩
      · exact eq_of_attributesPart_eq hrest hrest' hconditional (hkind ▸ hconditional) hx.attributes
          hy.attributes hattributes
    have htypes := eq_of_annotationText_eq hrest hrest' hx.types hy.types htypes
    rw [NodeDraft.bare, NodeDraft.bare, ← ho, ho', ← hms, hms', hkind, hentries, htypes]
  refine ⟨hbare, ?_⟩
  -- The same nodes have the same text, so what is left of both texts is the same.
  rw [← x.text_bare, hbare, y.text_bare] at h
  exact List.append_cancel_left h

/-! ### Blocks -/

/-- The nodes of a body, and what they are followed by. -/
theorem exists_followsNode {x : NodeDraft} {arms : ArmsDraft} {rest : BodyDraft}
    (hrest : BodyDraft.Named rest)
    (hshape : if x.kind = .conditional then arms.heads.length = 2 else arms.heads = [])
    (indent : Nat) (returns : List Mention) (more : List Char) :
    ∃ after text, FollowsNode x.kind after text ∧
      armsText (indent + 2) ('\n' :: restText indent rest returns more) " " arms = after ++ text := by
  rcases arms_cases hshape with ⟨-, rfl⟩ | ⟨hkind, first, firstBody, second, secondBody, rfl⟩
  · obtain ⟨skipped, hskipped, hsplit⟩ := exists_restText indent rest returns more
    have hstart := startsItem_itemsText indent hrest returns more
    refine ⟨'\n' :: skipped, itemsText indent rest returns more, ⟨blank_cons rfl hskipped,
      isSolid_of_startsItem hstart, ?_, ?_, rfl, fun _ => ?_⟩, congrArg ('\n' :: ·) hsplit⟩
    all_goals exact stops_of_startsItem hstart (by decide) (by decide) rfl
  · exact ⟨[' '], _, ⟨blank_cons rfl blank_nil, rfl, rfl, rfl, rfl, fun h => absurd hkind h⟩, rfl⟩

/-- Nodes of one kind have as many blocks. -/
theorem length_heads_eq {kind : Kind} {arms arms' : ArmsDraft}
    (h : if kind = .conditional then arms.heads.length = 2 else arms.heads = [])
    (h' : if kind = .conditional then arms'.heads.length = 2 else arms'.heads = []) :
    arms.heads.length = arms'.heads.length := by
  by_cases hkind : kind = .conditional
  · rw [if_pos hkind] at h h'
    rw [h, h']
  · rw [if_neg hkind] at h h'
    rw [h, h']

/-- No node is written like a return: after its results comes an operator, which has a dot, or another
word. -/
theorem NodeDraft.text_append_ne_return {x : NodeDraft} (hx : x.Named) (q r : List Char) :
    x.text.toList ++ q ≠ "return".toList ++ ' ' :: r := by
  intro h
  rw [NodeDraft.toList_text] at h
  simp only [List.append_assoc, List.cons_append] at h
  obtain ⟨hsolid, skipped, hskipped, hread⟩ := exists_reads_lead hx _
  have hresults : Reader.results.Refuses ("return".toList ++ ' ' :: r) :=
    Refuses.bind (Refuses.bind ((refuses_mention rfl).padded blank_nil rfl) _) _
  have hkind := (hread.unique h hresults.optional).1
  have hkind := eq_of_blank_append hskipped blank_nil hsolid rfl hkind
  have hnamed := hx.kind
  match x.kind, hnamed, hkind with
  | .conditional, _, hkind => exact absurd (List.cons.inj hkind).1 (by decide)
  | .raise, _, hkind => exact absurd (List.cons.inj (List.cons.inj hkind).2).1 (by decide)
  | .op _, hnamed, hkind =>
    exact (reads_qualified_kind hnamed _).not_refuses hkind
      (refuses_qualified_of_name isName_return rfl rfl)

/-- The end of a block is no node. -/
theorem itemsText_done_ne_node {x : NodeDraft} (hx : x.Named) {indent : Nat} {arms : ArmsDraft}
    {rest : BodyDraft} {returns returns' : List Mention} {more more' : List Char} :
    itemsText indent .done returns more ≠ itemsText indent (.node x arms rest) returns' more' := by
  intro h
  rw [itemsText_node] at h
  cases returns with
  | nil =>
    obtain ⟨c, cs, htext, hc⟩ := NodeDraft.exists_text_cons hx
    rw [htext] at h
    obtain rfl : '\x7d' = c := (List.cons.inj h).1
    exact absurd hc (by decide)
  | cons m ms => exact NodeDraft.text_append_ne_return hx _ _ h.symm

/-- If neither block has nodes, their returns can be told apart. -/
theorem eq_of_itemsText_done {indent : Nat} {returns returns' : List Mention} {more more' : List Char}
    (hreturns : ∀ m ∈ returns, IsValueName m.name) (hreturns' : ∀ m ∈ returns', IsValueName m.name)
    (h : itemsText indent .done returns more = itemsText indent .done returns' more') :
    returns.map Mention.bare = returns'.map Mention.bare ∧ more = more' := by
  match returns, returns', hreturns, hreturns', h with
  | [], [], _, _, h => exact ⟨rfl, (List.cons.inj h).2⟩
  | [], _ :: _, _, _, h | _ :: _, [], _, _, h => exact absurd (List.cons.inj h).1 (by decide)
  | m :: ms, m' :: ms', hreturns, hreturns', h =>
    have hread : (item 0 (Reader.block 0 0)).Reads (itemsText indent .done (m :: ms) more) _ _ :=
      reads_return hreturns
    obtain ⟨hmore, a, ⟨values, rfl, hvalues⟩, values', heq, hvalues'⟩ :=
      hread.unique h (reads_return hreturns')
    obtain rfl := Item.returns.inj heq
    exact ⟨hvalues.symm.trans hvalues', (List.cons.inj hmore).2⟩

/-- The parameters of blocks are told from what stands in them. -/
theorem eq_of_paramsPart_eq {ps ps' : List (Mention × TypeTree)} (hps : NamedParams ps)
    (hps' : NamedParams ps') {skipped skipped' text text' : List Char} (hskipped : Blank skipped)
    (hskipped' : Blank skipped') (htext : startsItem text = true) (htext' : startsItem text' = true)
    (h : (paramsPart ps).toList ++ '\n' :: (skipped ++ text) =
      (paramsPart ps').toList ++ '\n' :: (skipped' ++ text')) :
    bareParams ps = bareParams ps' ∧ text = text' := by
  have hle := Nat.le_max_left (paramsPart ps).toList.length (paramsPart ps').toList.length
  have hle' := Nat.le_max_right (paramsPart ps).toList.length (paramsPart ps').toList.length
  obtain ⟨middle, before, hbefore, hblanks, hread⟩ :=
    exists_reads_paramsPart hps hle hskipped htext
  obtain ⟨middle', before', hbefore', hblanks', hread'⟩ :=
    exists_reads_paramsPart hps' hle' hskipped' htext'
  obtain ⟨rfl, -⟩ := hblanks.unique h hblanks'
  obtain ⟨hrest, o, ho, ho'⟩ := hread.unique rfl hread'
  exact ⟨ho.symm.trans ho', eq_of_blank_append hbefore hbefore' (isSolid_of_startsItem htext)
    (isSolid_of_startsItem htext') hrest⟩

mutual

/-- Bodies that are written the same are the same, but for infinite floats. By induction along both, node
by node. -/
theorem eq_of_itemsText_eq : ∀ {body body' : BodyDraft} {indent : Nat} {returns returns' : List Mention}
    {more more' : List Char}, BodyDraft.Named body → BodyDraft.Named body' →
    body.Proper NodeDraft.kind → body'.Proper NodeDraft.kind →
    (∀ m ∈ returns, IsValueName m.name) → (∀ m ∈ returns', IsValueName m.name) →
    itemsText indent body returns more = itemsText indent body' returns' more' →
    body.map NodeDraft.bare BlockDraft.bare = body'.map NodeDraft.bare BlockDraft.bare ∧
      returns.map Mention.bare = returns'.map Mention.bare ∧ more = more'
  | .done, .done, _, _, _, _, _, _, _, _, _, hreturns, hreturns', h =>
    ⟨rfl, eq_of_itemsText_done hreturns hreturns' h⟩
  | .done, .node .., _, _, _, _, _, _, hnamed', _, _, _, _, h =>
    absurd h (itemsText_done_ne_node (BodyDraft.named_node.1 hnamed').1)
  | .node .., .done, _, _, _, _, _, hnamed, _, _, _, _, _, h =>
    absurd h.symm (itemsText_done_ne_node (BodyDraft.named_node.1 hnamed).1)
  | .node x arms rest, .node x' arms' rest', indent, returns, returns', more, more', hnamed, hnamed',
      hproper, hproper', hreturns, hreturns', h => by
    obtain ⟨hx, harms, hrest⟩ := BodyDraft.named_node.1 hnamed
    obtain ⟨hx', harms', hrest'⟩ := BodyDraft.named_node.1 hnamed'
    obtain ⟨hshape, hproper⟩ := hproper
    obtain ⟨hshape', hproper'⟩ := hproper'
    obtain ⟨after, text, hfollows, hsplit⟩ := exists_followsNode hrest hshape indent returns more
    obtain ⟨after', text', hfollows', hsplit'⟩ :=
      exists_followsNode hrest' hshape' indent returns' more'
    rw [itemsText_node, itemsText_node, hsplit, hsplit'] at h
    obtain ⟨hbare, h⟩ := NodeDraft.bare_eq_of_text_append hx hx' hfollows hfollows' h
    rw [← hsplit, ← hsplit'] at h
    have hkind : x.bare.kind = x'.bare.kind := congrArg NodeDraft.kind hbare
    change x.kind = x'.kind at hkind
    rw [hkind] at hshape
    obtain ⟨hinside, h⟩ := eq_of_armsText_eq harms harms' hproper.1 hproper'.1
      (length_heads_eq hshape hshape') h
    -- The nodes after this one start after an indentation that says nothing about them.
    obtain ⟨skipped, hskipped, hsplit⟩ := exists_restText indent rest returns more
    obtain ⟨skipped', hskipped', hsplit'⟩ := exists_restText indent rest' returns' more'
    rw [hsplit, hsplit'] at h
    have hitems := eq_of_blank_append hskipped hskipped'
      (isSolid_of_startsItem (startsItem_itemsText indent hrest returns more))
      (isSolid_of_startsItem (startsItem_itemsText indent hrest' returns' more')) (List.cons.inj h).2
    obtain ⟨hafter, hreturn, hmore⟩ :=
      eq_of_itemsText_eq hrest hrest' hproper.2 hproper'.2 hreturns hreturns' hitems
    refine ⟨?_, hreturn, hmore⟩
    rw [Body.map, Body.map, hbare, hinside, hafter]

/-- The same for the blocks of a node, of which there must be as many on both sides. -/
theorem eq_of_armsText_eq : ∀ {arms arms' : ArmsDraft} {indent : Nat} {lead : String}
    {more more' : List Char}, ArmsDraft.Named arms → ArmsDraft.Named arms' →
    arms.Proper NodeDraft.kind → arms'.Proper NodeDraft.kind →
    arms.heads.length = arms'.heads.length →
    armsText indent more lead arms = armsText indent more' lead arms' →
    arms.map NodeDraft.bare BlockDraft.bare = arms'.map NodeDraft.bare BlockDraft.bare ∧ more = more'
  | .done, .done, _, _, _, _, _, _, _, _, _, h => ⟨rfl, h⟩
  | .done, .arm .., _, _, _, _, _, _, _, _, hlength, _
  | .arm .., .done, _, _, _, _, _, _, _, _, hlength, _ => nomatch hlength
  | .arm head body rest, .arm head' body' rest', indent, lead, more, more', hnamed, hnamed', hproper,
      hproper', hlength, h => by
    obtain ⟨hhead, hbody, hrest⟩ := ArmsDraft.named_arm.1 hnamed
    obtain ⟨hhead', hbody', hrest'⟩ := ArmsDraft.named_arm.1 hnamed'
    rw [armsText, armsText, blockText, blockText] at h
    have h := (List.cons.inj (List.append_cancel_left h)).2
    -- After the parameters come blanks and the first item: this is where the parameters end in both.
    obtain ⟨skipped, hskipped, hsplit⟩ :=
      exists_restText indent body head.returns (armsText indent more " else " rest)
    obtain ⟨skipped', hskipped', hsplit'⟩ :=
      exists_restText indent body' head'.returns (armsText indent more' " else " rest')
    rw [hsplit, hsplit'] at h
    obtain ⟨hparams, hitems⟩ := eq_of_paramsPart_eq hhead.params hhead'.params hskipped hskipped'
      (startsItem_itemsText indent hbody _ _) (startsItem_itemsText indent hbody' _ _) h
    obtain ⟨hinside, hreturns, hmore⟩ := eq_of_itemsText_eq hbody hbody' hproper.1 hproper'.1
      hhead.returns hhead'.returns hitems
    obtain ⟨hafter, hmore⟩ := eq_of_armsText_eq hrest hrest' hproper.2 hproper'.2
      (Nat.succ.inj hlength) hmore
    refine ⟨?_, hmore⟩
    rw [Arms.map, Arms.map, hinside, hafter, BlockDraft.bare, BlockDraft.bare, hparams, hreturns]

end

/-- Drafts with the same text are the same, places in the text apart. -/
theorem GraphDraft.bare_eq_of_text_eq {draft draft' : GraphDraft} (hnamed : draft.Named)
    (hnamed' : draft'.Named) (hblock : draft.block.params = []) (hblock' : draft'.block.params = [])
    (hproper : draft.body.Proper NodeDraft.kind) (hproper' : draft'.body.Proper NodeDraft.kind)
    (h : draft.text = draft'.text) : draft.bare = draft'.bare := by
  have hchars := congrArg String.toList h
  rw [GraphDraft.toList_text, GraphDraft.toList_text] at hchars
  have hchars := List.append_cancel_left hchars
  have hle := Nat.le_max_left (paramsText draft.params).toList.length
    (paramsText draft'.params).toList.length
  have hle' := Nat.le_max_right (paramsText draft.params).toList.length
    (paramsText draft'.params).toList.length
  obtain ⟨htop, ps, hps, hps'⟩ :=
    (reads_params hnamed.params hle).unique hchars (reads_params hnamed'.params hle')
  -- The rest is the text of one arm without parameters, as inside a conditional.
  have htop : armsText 0 ['\n'] " " (.arm ⟨[], draft.block.returns⟩ draft.body .done) =
      armsText 0 ['\n'] " " (.arm ⟨[], draft'.block.returns⟩ draft'.body .done) := htop
  have harms : ∀ {d : GraphDraft}, d.Named → ArmsDraft.Named (.arm ⟨[], d.block.returns⟩ d.body .done) :=
    fun hd => ArmsDraft.named_arm.2 ⟨⟨nofun, hd.returns⟩, hd.body, ArmsDraft.named_done⟩
  obtain ⟨htop, -⟩ := eq_of_armsText_eq (harms hnamed) (harms hnamed') ⟨hproper, trivial⟩
    ⟨hproper', trivial⟩ rfl htop
  obtain ⟨hhead, hbody, -⟩ := Arms.arm.inj htop
  have hreturns := congrArg BlockDraft.returns hhead
  rw [GraphDraft.bare, GraphDraft.bare, ← hps, hps', hbody, BlockDraft.bare, BlockDraft.bare, hblock,
    hblock', show draft.block.returns.map Mention.bare = _ from hreturns]
  rfl

end Text

end Unguard
