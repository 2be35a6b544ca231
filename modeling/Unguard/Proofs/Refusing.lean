import Unguard.Proofs.ReadingBack

/-!
# Floats that are not read back

An infinity, or what is not a number, is written as a word that is no constant of the grammar.  So a
text with such a float is refused: a draft whose text is read has finite floats only
(`GraphDraft.finite_of_ofText`).

`Reader.Rejects p text` is the counterpart of `Reader.ReadsBack`.  A list is read up to an item that is
rejected, and there its closing bracket is missing.  Attributes may be left out, so that a node is read
without the ones that are rejected; but then a brace is left, which no item of a block starts with.
-/

namespace Unguard

namespace Text

namespace Reader

variable {α ι : Type} {rest after : List Char}

/-- The text starts with neither a blank nor a closing bracket. -/
def isOpen : List Char → Bool :=
  stops fun c => isBlank c || c = '/' || c = ']' || c = '\x7d'

theorem isSolid_of_isOpen {text : List Char} (h : isOpen text = true) : isSolid text = true :=
  stops_of_imp (fun c hc => by rw [hc]; rfl) h

/-- A text that begins with a name begins neither with a blank or a comment nor with what closes a list.
-/
theorem isOpen_name {s : String} (hs : IsName s) (rest : List Char) :
    isOpen (s.toList ++ rest) = true := by
  obtain ⟨first, more, htext, hfirst, -⟩ := hs
  have hne : ∀ d, isNamePart d = false → first ≠ d := fun d =>
    ne_of_isNamePart (isNamePart_of_isNameStart hfirst)
  rw [htext, List.cons_append]
  simp [isOpen, stops, isBlank, hne ' ' rfl, hne '\t' rfl, hne '\n' rfl, hne '\x0c' rfl, hne '\r' rfl,
    hne '/' rfl, hne ']' rfl, hne '\x7d' rfl]

/-- The reader refuses the text wherever no lexeme goes on after it. -/
structure Rejects (p : Reader α) (text : String) : Prop where
  opens : ∀ rest, isOpen (text.toList ++ rest) = true
  refuses : ∀ rest, isApart rest = true → p.Refuses (text.toList ++ rest)

/-- The reader reads the text back or refuses it. -/
def Decides (p : Reader α) (text : String) : Prop :=
  p.ReadsBack text (fun _ => True) ∨ p.Rejects text

theorem ReadsBack.decides {p : Reader α} {text : String} {P : α → Prop} (h : p.ReadsBack text P) :
    p.Decides text :=
  Or.inl (h.mono fun _ _ => trivial)

theorem Decides.solid {p : Reader α} {text : String} (h : p.Decides text) {rest : List Char} :
    isSolid (text.toList ++ rest) = true := by
  rcases h with h | h
  · exact h.solid rest
  · exact isSolid_of_isOpen (h.opens rest)

/-! ### Lists with commas -/

section Lists

variable {p : Reader α} {text : ι → String}

/-- If the first item is not to blame, it is one of the others. -/
theorem exists_rejects_of_cons {i : ι} {items : List ι} (hi : ¬p.Rejects (text i))
    (h : ∃ j ∈ i :: items, p.Rejects (text j)) : ∃ j ∈ items, p.Rejects (text j) := by
  obtain ⟨j, hj, hbad⟩ := h
  rcases List.mem_cons.1 hj with rfl | hj
  · exact absurd hbad hi
  · exact ⟨j, hj, hbad⟩

/-- The items after a comma are read up to the comma before one that is rejected. -/
theorem exists_reads_afterCommas (hafter : Blank after) (hrest : isSolid rest = true)
    (hend : isApart (after ++ rest) = true) : ∀ {items : List ι} (budget : List Char),
    (∀ i ∈ items, p.Decides (text i)) → (∃ i ∈ items, p.Rejects (text i)) →
    ∃ left, (afterCommas (padded p) budget).Reads (itemsTail text items after rest) (',' :: left)
      fun _ => True
  | [], _, _, hbad => by
    obtain ⟨i, hi, -⟩ := hbad
    exact nomatch hi
  | i :: items, [], _, _ => by
    rw [itemsTail, if_neg (by simp), itemsAfter_cons]
    exact ⟨_, reads_pure trivial⟩
  | i :: items, _ :: budget, h, hbad => by
    rw [List.forall_mem_cons] at h
    rw [itemsTail, if_neg (by simp), itemsAfter_cons]
    by_cases hi : p.Rejects (text i)
    · -- the comma is left with the item
      refine ⟨' ' :: ((text i).toList ++ itemsAfter text items after rest), ?_⟩
      refine Reads.bind (Refuses.optional ?_) fun o ho => ?_
      · refine (reads_char ',').bind_refuses fun _ _ => ?_
        exact (hi.refuses _ (isApart_itemsAfter hend items)).padded (blank_cons rfl blank_nil)
          (isSolid_of_isOpen (hi.opens _))
      · subst ho
        exact reads_pure trivial
    · -- A later item is to blame, so the comma before that one is left.
      have hitem := reads_item (f := fun _ => ()) (g := fun _ => ()) hafter hrest hend items
        (blank_cons (c := ' ') rfl blank_nil) ((h.1.resolve_right hi).mono fun _ _ => rfl)
      have hfirst : Reads (do char ','; padded p)
          (',' :: ' ' :: ((text i).toList ++ itemsAfter text items after rest))
          (itemsTail text items after rest) fun _ => () = () :=
        (reads_char ',').bind fun _ _ => hitem
      obtain ⟨left, hleft⟩ := exists_reads_afterCommas hafter hrest hend budget h.2
        (exists_rejects_of_cons hi hbad)
      refine ⟨left, hfirst.optional.bind fun o ho => ?_⟩
      obtain ⟨a, rfl, -⟩ := ho
      exact hleft.bind fun _ _ => reads_pure trivial

/-- Where the first item is rejected, none is read, and otherwise they are read up to the comma before
one that is. -/
theorem exists_reads_separated (hrest : isSolid rest = true) (hend : isApart ([] ++ rest) = true)
    {items : List ι} (h : ∀ i ∈ items, p.Decides (text i)) (hbad : ∃ i ∈ items, p.Rejects (text i)) :
    ∃ left, isOpen left = true ∧ (separated (padded p)).Reads
      ((commaSeparated (items.map text)).toList ++ rest) left fun _ => True := by
  cases items with
  | nil =>
    obtain ⟨i, hi, -⟩ := hbad
    exact nomatch hi
  | cons i items =>
    rw [List.forall_mem_cons] at h
    rw [List.map_cons, toList_commaSeparated_cons, List.append_assoc]
    change ∃ left, _ ∧ Reads _ ((text i).toList ++ itemsAfter text items [] rest) left _
    by_cases hi : p.Rejects (text i)
    · have hopen := hi.opens (itemsAfter text items [] rest)
      have hitem := (hi.refuses _ (isApart_itemsAfter hend items)).padded blank_nil
        (isSolid_of_isOpen hopen)
      exact ⟨_, hopen, hitem.separated.mono fun _ _ => trivial⟩
    · have hitem := reads_item (f := fun _ => ()) (g := fun _ => ()) blank_nil hrest hend items blank_nil
        ((h.1.resolve_right hi).mono fun _ _ => rfl)
      obtain ⟨left, hleft⟩ := exists_reads_afterCommas blank_nil hrest hend
        (itemsTail text items [] rest) h.2 (exists_rejects_of_cons hi hbad)
      exact ⟨',' :: left, rfl, (hitem.separated1 hleft).separated.mono fun _ _ => trivial⟩

/-- A list with an item that is rejected is refused. -/
theorem refuses_list {items : List ι} {left right : Char} (hright : right = ']' ∨ right = '\x7d')
    (h : ∀ i ∈ items, p.Decides (text i)) (hbad : ∃ i ∈ items, p.Rejects (text i)) :
    (bracketed left (separated (padded p)) right).Refuses
      (left :: ((commaSeparated (items.map text)).toList ++ right :: rest)) := by
  have hsolid : isSolid (right :: rest) = true := by rcases hright with rfl | rfl <;> rfl
  have hapart : isApart (right :: rest) = true := by rcases hright with rfl | rfl <;> rfl
  obtain ⟨middle, hopen, hitems⟩ := exists_reads_separated hsolid hapart h hbad
  refine (reads_char left).bind_refuses fun _ _ => ?_
  refine (reads_no_blanks (isSolid_commaSeparated (fun i hi => (h i hi).solid) hsolid)).bind_refuses
    fun _ _ => hitems.bind_refuses fun _ _ => ?_
  refine (reads_no_blanks (isSolid_of_isOpen hopen)).bind_refuses fun _ _ => ?_
  -- What is left does not start with the closing bracket.
  refine (refuses_char (stops_of_imp (fun c hc => ?_) hopen)).bind _
  rw [of_decide_eq_true hc]
  rcases hright with rfl | rfl <;> rfl

end Lists

/-! ### Constants -/

section Literals

variable {depth : Nat} {text : List Char}

/-- What is no constant in any of the ways that there are. -/
theorem refuses_literal_of_alternatives (hword : ∀ w ∈ constantWords, ¬w.toList <+: text)
    (hquote : stops (· = '"') text = true)
    (hlist : (bracketed '[' (separated (padded (literal depth))) ']').Refuses text)
    (hfloat : float.Refuses text) (hinteger : integer.Refuses text)
    (htype : qualified.Refuses text) : (literal (depth + 1)).Refuses text := by
  simp only [constantWords, List.forall_mem_cons] at hword
  refine (refuses_wordConstant _ hword.1).orElse ?_
  refine (refuses_wordConstant _ hword.2.1).orElse ?_
  refine (refuses_wordConstant _ hword.2.2.1).orElse ?_
  refine ((refuses_quoted hquote).bind _).orElse ((hlist.bind _).orElse ?_)
  refine (hfloat.bind _).orElse ((hinteger.bind _).orElse ?_)
  exact Refuses.bind (htype.bind _) _

/-- A word that starts like none of the words that are constants is no constant. -/
theorem refuses_literal_name {s : String} (hs : IsName s)
    (hword : ∀ w ∈ constantWords, ¬w.toList <+: s.toList ++ rest) (hrest : isApart rest = true) :
    (literal (depth + 1)).Refuses (s.toList ++ rest) := by
  have hminus : stops (· = '-') (s.toList ++ rest) = true := stops_name hs _ rfl
  have hdigit : stops Char.isDigit (s.toList ++ rest) = true := by
    obtain ⟨first, more, htext, hfirst, -⟩ := hs
    rw [htext, List.cons_append, stops, isDigit_of_isNameStart hfirst]
    rfl
  refine refuses_literal_of_alternatives hword (stops_name hs _ rfl) ?_ (refuses_float hminus hdigit)
    (refuses_integer hminus hdigit) ?_
  · exact (refuses_char (stops_name hs _ rfl)).bind _
  · exact refuses_qualified_of_name hs (stops_namePart_of_isApart hrest) (stops_char_of_isApart rfl hrest)

/-- A minus sign before a letter starts no constant. -/
theorem refuses_literal_minus {c : Char} (hc : isNameStart c = true) :
    (literal (depth + 1)).Refuses ('-' :: c :: rest) := by
  have hdigit : stops Char.isDigit (c :: rest) = true := by
    rw [stops, isDigit_of_isNameStart hc]
    rfl
  have hnumeral : numeral.Refuses (c :: rest) := by
    refine Refuses.orElse ((refuses_satisfy ?_).bind _) ((refuses_char ?_).bind _)
    · exact stops_of_imp (fun d hd => (Bool.and_eq_true_iff.1 hd).1) hdigit
    · exact stops_of_imp (fun d hd => by rw [of_decide_eq_true hd]; rfl) hdigit
  refine refuses_literal_of_alternatives (not_constantWord rfl rfl rfl) rfl ((refuses_char rfl).bind _)
    ?_ ?_ (refuses_qualified rfl)
  · exact minus_of_sign.bind_refuses fun _ _ => Refuses.bind (Refuses.bind (refuses_satisfy hdigit) _) _
  · exact minus_of_sign.bind_refuses fun _ _ => hnumeral.bind _

/-- Infinities are written as words, which are not constants. -/
theorem rejects_float (depth : Nat) {bits : UInt64} (h : ¬Binary64.IsFinite bits) :
    (literal (depth + 1)).Rejects (Binary64.text bits) := by
  have hinf : IsName "inf" := ⟨'i', ['n', 'f'], rfl, rfl, List.all_eq_true.1 rfl⟩
  have hnan : IsName "NaN" := ⟨'N', ['a', 'N'], rfl, rfl, List.all_eq_true.1 rfl⟩
  rcases Binary64.text_of_not_isFinite h with htext | htext | htext <;> rw [htext]
  · exact ⟨isOpen_name hinf, fun _ => refuses_literal_name hinf (not_constantWord rfl rfl rfl)⟩
  · exact ⟨fun _ => rfl, fun _ _ => refuses_literal_minus rfl⟩
  · exact ⟨isOpen_name hnan, fun _ => refuses_literal_name hnan (not_constantWord rfl rfl rfl)⟩

/-- A list is rejected if one of its items is. -/
theorem rejects_list {items : List Literal} (h : ∀ l ∈ items, (literal depth).Decides l.text)
    (hbad : ∃ l ∈ items, (literal depth).Rejects l.text) :
    (literal (depth + 1)).Rejects ("[" ++ commaSeparated (items.map Literal.text) ++ "]") := by
  constructor
  · intro rest
    rw [toList_list]
    rfl
  · intro rest _
    rw [toList_list]
    exact refuses_literal_of_alternatives (not_constantWord rfl rfl rfl) rfl
      (refuses_list (Or.inl rfl) h hbad) (refuses_float rfl rfl) (refuses_integer rfl rfl)
      (refuses_qualified rfl)

end Literals

/-- A constant with a float that is not finite is rejected. -/
theorem rejects_literal {depth : Nat} {l : Literal} (hnamed : l.Named) (hfinite : ¬l.Finite)
    (hdepth : l.text.toList.length ≤ depth) : (literal depth).Rejects l.text := by
  induction depth generalizing l with
  | zero => exact absurd l.length_text_pos (Nat.not_lt.2 hdepth)
  | succ depth ih =>
    cases l with
    | float bits => exact rejects_float depth fun h => hfinite (Literal.finite_float.2 h)
    | list items =>
      have hnamed' := Literal.named_list.1 hnamed
      have hshort : ∀ l ∈ items, l.text.toList.length ≤ depth := fun l hl =>
        Nat.le_of_lt_succ (Nat.lt_of_lt_of_le (Literal.length_text_lt hl) hdepth)
      -- One of the items is not finite; those before it may be read.
      rw [Literal.finite_list] at hfinite
      push Not at hfinite
      obtain ⟨l, hl, hbad⟩ := hfinite
      rw [Literal.text, Literal.texts_eq_map]
      refine rejects_list (fun l hl => ?_) ⟨l, hl, ih (hnamed' l hl) hbad (hshort l hl)⟩
      by_cases hl' : l.Finite
      · exact (readsBack_literal (hnamed' l hl) hl' (hshort l hl)).decides
      · exact Or.inr (ih (hnamed' l hl) hl' (hshort l hl))
    | unit | bool | int | string | type => exact absurd (Literal.finite_of_floats_eq_nil rfl) hfinite

/-! ### Nodes -/

/-- An entry is rejected because of its constant. -/
theorem rejects_entry {depth : Nat} {e : String × Literal} (hkey : IsName e.1)
    (hvalue : (literal depth).Rejects e.2.text) :
    Rejects (do
      let key ← name
      blanks
      char '='
      blanks
      let value ← literal depth
      return (key, value)) (e.1 ++ " = " ++ e.2.text) := by
  constructor
  · intro rest
    rw [toList_entry]
    exact isOpen_name hkey _
  · intro rest hrest
    rw [toList_entry]
    refine (reads_name hkey rfl).bind_refuses fun _ _ => (reads_space rfl).bind_refuses fun _ _ => ?_
    refine (reads_char '=').bind_refuses fun _ _ => ?_
    refine (reads_space (isSolid_of_isOpen (hvalue.opens _))).bind_refuses fun _ _ => ?_
    exact (hvalue.refuses rest hrest).bind _

/-- Attributes with a float that is not finite are left unread. -/
theorem exists_reads_attributes {depth : Nat} {es : List (String × Literal)}
    (h : ∀ e ∈ es, IsName e.1 ∧ e.2.Named) (hfinite : ¬∀ e ∈ es, e.2.Finite)
    (hdepth : (attributesPart es).toList.length ≤ depth) (rest : List Char) :
    ∃ left, (attributes? depth).Reads ((attributesPart es).toList ++ rest) (' ' :: '\x7b' :: left)
      fun _ => True := by
  obtain ⟨e, he, hbad⟩ : ∃ e ∈ es, ¬e.2.Finite := by
    push Not at hfinite
    exact hfinite
  have hshort : ∀ e ∈ es, e.2.text.toList.length ≤ depth := fun e he =>
    Nat.le_trans (length_le_attributesPart he) hdepth
  rw [toList_attributesPart (List.ne_nil_of_mem he)]
  -- The list is refused, so the reader goes back to the blank before the brace.
  refine ⟨_, Reads.bind (Refuses.optional ?_) fun _ _ => reads_pure trivial⟩
  refine (reads_space rfl).bind_refuses fun _ _ => ?_
  refine refuses_list (Or.inr rfl) (fun e he => ?_) ⟨e, he, rejects_entry (h e he).1 ?_⟩
  · by_cases hfin : e.2.Finite
    · exact (readsBack_entry (h e he).1 (h e he).2 hfin (hshort e he)).decides
    · exact Or.inr (rejects_entry (h e he).1 (rejects_literal (h e he).2 hfin (hshort e he)))
  · exact rejects_literal (h e he).2 hbad (hshort e he)

section Block

variable {depth indent : Nat} {block : Reader (BlockDraft × BodyDraft)}

/-- A node is read without its attributes, if they have a float that is not finite. -/
theorem exists_reads_head_of_not_finite (block : Reader (BlockDraft × BodyDraft)) {x : NodeDraft}
    (hx : x.Named) (hfinite : ¬x.Finite)
    (hattributes : (attributesPart x.attributes).toList.length ≤ depth) (rest : List Char) :
    ∃ left, Reads (opNode depth <|> conditional depth block <|> raiseNode depth)
      (x.kind.text.toList ++ '(' :: ((mentionsText x.operands).toList ++ ')' ::
        ((attributesPart x.attributes).toList ++ rest))) (' ' :: '\x7b' :: left) fun _ => True := by
  obtain ⟨left, hread⟩ := exists_reads_attributes hx.attributes hfinite hattributes rest
  refine ⟨left, ?_⟩
  cases hkind : x.kind with
  | conditional =>
    refine absurd (fun e he => ?_) hfinite
    rw [hx.conditional hkind] at he
    exact nomatch he
  | op op =>
    have hnames : IsName op.dialect ∧ IsName op.name := by
      have := hx.kind
      rwa [hkind] at this
    have hop : (Kind.op op).text.toList = op.dialect.toList ++ '.' :: op.name.toList := by
      rw [Kind.text, Operator.text, String.toList_append, String.toList_append, List.append_assoc]
      rfl
    -- A brace is no colon, so there are no types to read either.
    have hannotation : (annotation? depth).Reads (' ' :: '\x7b' :: left) (' ' :: '\x7b' :: left)
        fun _ => True := by
      refine Reads.bind (Refuses.optional ?_) fun _ _ => reads_pure trivial
      exact (reads_space rfl).bind_refuses fun _ _ => (refuses_char rfl).bind _
    rw [hop, List.append_assoc, List.cons_append]
    refine Reads.orElse ?_ _
    refine (reads_qualified hnames.1 hnames.2 rfl).bind fun _ _ => ?_
    refine (reads_no_blanks rfl).bind fun _ _ => (reads_operands hx.operands).bind fun _ _ => ?_
    exact hread.bind fun _ _ => hannotation.bind fun _ _ => reads_pure trivial
  | raise =>
    refine (refuses_opNode isName_raise rfl rfl).orElse_reads (Refuses.orElse_reads ?_ ?_)
    · exact Refuses.bind (Refuses.bind (refuses_word (not_prefix_of_stops (c := 'i') rfl rfl)) _) _
    · have hkeyword : (keyword "raise").Reads (Kind.raise.text.toList ++ '(' ::
          ((mentionsText x.operands).toList ++ ')' :: ((attributesPart x.attributes).toList ++ rest)))
          _ fun _ => True :=
        (reads_word "raise").bind fun _ _ => reads_no_blanks rfl
      refine hkeyword.bind fun _ _ => (reads_operands hx.operands).bind fun _ _ => ?_
      exact hread.bind fun _ _ => reads_pure trivial

/-- The block is refused. -/
def RefusesBlock (block : Reader (BlockDraft × BodyDraft)) (indent : Nat) (head : BlockDraft)
    (body : BodyDraft) : Prop :=
  ∀ more, block.Refuses (blockText indent head body more)

/-- A conditional is refused with one of its arms. -/
theorem refuses_conditional (rest : List Char) {x : NodeDraft} {first second : BlockDraft}
    {firstBody secondBody : BodyDraft} (hkind : x.kind = .conditional) (hx : x.Named)
    (htypes : (annotationText x.types).toList.length ≤ depth)
    (h : RefusesBlock block indent first firstBody ∨
      ReadsBlock block indent first firstBody ∧ RefusesBlock block indent second secondBody) :
    Refuses (opNode depth <|> conditional depth block <|> raiseNode depth)
      (x.kind.text.toList ++ '(' :: ((mentionsText x.operands).toList ++ ')' ::
        ((annotationText x.types).toList ++
          armsText indent rest " " (.arm first firstBody (.arm second secondBody .done))))) := by
  obtain ⟨skipped, hskipped, hannotation⟩ :=
    exists_reads_annotation_arms indent first second firstBody secondBody rest hx htypes
  have hkeyword : (keyword "if").Reads (Kind.conditional.text.toList ++ '(' ::
      ((mentionsText x.operands).toList ++ ')' :: ((annotationText x.types).toList ++
        armsText indent rest " " (.arm first firstBody (.arm second secondBody .done))))) _
      fun _ => True :=
    (reads_word "if").bind fun _ _ => reads_no_blanks rfl
  rw [hkind]
  refine (refuses_opNode isName_if rfl rfl).orElse (Refuses.orElse ?_ ?_)
  · refine hkeyword.bind_refuses fun _ _ => (reads_operands hx.operands).bind_refuses fun _ _ => ?_
    refine hannotation.bind_refuses fun _ _ => (reads_blanks hskipped rfl).bind_refuses fun _ _ => ?_
    -- The second arm is reached only if the first one is read.
    rcases h with hfirst | ⟨hfirst, hsecond⟩
    · exact (hfirst _).bind _
    · refine (hfirst _).bind_refuses fun _ _ => (reads_space rfl).bind_refuses fun _ _ => ?_
      have helse : (keyword "else").Reads
          ("else".toList ++ ' ' :: blockText indent second secondBody rest)
          (blockText indent second secondBody rest) fun _ => True :=
        (reads_word "else").bind fun _ _ => reads_space rfl
      exact helse.bind_refuses fun _ _ => (hsecond rest).bind _
  · exact Refuses.bind (Refuses.bind (refuses_word (not_prefix_of_stops (c := 'r') rfl rfl)) _) _

end Block

/-! ### Blocks -/

section Items

variable {depth nesting indent : Nat} {block : Reader (BlockDraft × BodyDraft)} {more : List Char}

/-- An opening brace starts no item. -/
theorem refuses_items_brace (budget left : List Char) :
    (items (item depth block) budget).Refuses (' ' :: '\x7b' :: left) := by
  cases budget with
  | nil => exact fun offset => ⟨offset, rfl⟩
  | cons b budget =>
    have hresults : results.Refuses ('\x7b' :: left) :=
      Refuses.bind (Refuses.bind ((refuses_mention rfl).padded blank_nil rfl) _) _
    have hkinds : Refuses (opNode depth <|> conditional depth block <|> raiseNode depth)
        ('\x7b' :: left) := by
      refine Refuses.orElse ((refuses_qualified rfl).bind _) (Refuses.orElse ?_ ?_)
      · exact Refuses.bind (Refuses.bind (refuses_word (not_prefix_of_stops (c := 'i') rfl rfl)) _) _
      · exact Refuses.bind (Refuses.bind (refuses_word (not_prefix_of_stops (c := 'r') rfl rfl)) _) _
    have hitem : (item depth block).Refuses ('\x7b' :: left) := by
      refine Refuses.orElse (Refuses.bind ?_ _) ?_
      · exact hresults.optional.bind_refuses fun _ _ => (reads_no_blanks rfl).bind_refuses fun _ _ =>
          hkinds.bind _
      · exact (refuses_word (not_prefix_of_stops (c := 'r') rfl rfl)).bind _
    refine (reads_space rfl).bind_refuses fun _ _ => (reads_nextIs '\x7d' _).bind_refuses fun a ha => ?_
    obtain rfl : a = false := ha
    exact hitem.bind _

/-- A node with a float that is not finite: the nodes after it are not reached. -/
theorem exists_reads_node_of_not_finite (block : Reader (BlockDraft × BodyDraft)) {x : NodeDraft}
    (hx : x.Named) (hfinite : ¬x.Finite)
    (hdepth : x.text.toList.length ≤ depth) (rest : List Char) :
    ∃ left, (node depth block).Reads (x.text.toList ++ rest) (' ' :: '\x7b' :: left)
      fun _ => True := by
  rw [NodeDraft.toList_text] at hdepth ⊢
  simp only [List.length_append, List.length_cons] at hdepth
  have hattributes : (attributesPart x.attributes).toList.length ≤ depth := by omega
  obtain ⟨left, hhead⟩ := exists_reads_head_of_not_finite block hx hfinite hattributes
    ((annotationText x.types).toList ++ rest)
  obtain ⟨hsolid, blank, hblank, hresults⟩ := exists_reads_lead hx ('(' ::
    ((mentionsText x.operands).toList ++ ')' :: ((attributesPart x.attributes).toList ++
      ((annotationText x.types).toList ++ rest))))
  refine ⟨left, ?_⟩
  simp only [List.append_assoc, List.cons_append]
  refine hresults.bind fun _ _ => (reads_blanks hblank hsolid).bind fun _ _ => ?_
  exact hhead.bind fun _ _ => reads_pure trivial

/-- A conditional in a block is refused with one of its arms. -/
theorem refuses_item_conditional (rest : List Char) {x : NodeDraft} {first second : BlockDraft}
    {firstBody secondBody : BodyDraft} (hkind : x.kind = .conditional) (hx : x.Named)
    (hdepth : x.text.toList.length ≤ depth)
    (h : RefusesBlock block indent first firstBody ∨
      ReadsBlock block indent first firstBody ∧ RefusesBlock block indent second secondBody) :
    (item depth block).Refuses (x.text.toList ++
      armsText indent rest " " (.arm first firstBody (.arm second secondBody .done))) := by
  have hreturn : ¬"return".toList <+: x.text.toList ++
      armsText indent rest " " (.arm first firstBody (.arm second secondBody .done)) := by
    refine not_prefix_of_stops (c := 'r') rfl ?_
    rw [NodeDraft.toList_text, hkind]
    cases hresults : x.results with
    | nil => rfl
    | cons m ms =>
      rw [resultsText, if_neg (by simp), String.toList_append, mentionsText, List.map_cons,
        toList_commaSeparated_cons, Mention.text, String.toList_append]
      rfl
  -- It is neither read as a node nor as a return.
  refine Refuses.orElse (Refuses.bind ?_ _) ((refuses_word hreturn).bind _)
  rw [NodeDraft.toList_text] at hdepth ⊢
  simp only [List.length_append, List.length_cons] at hdepth
  have htypes : (annotationText x.types).toList.length ≤ depth := by omega
  have hhead := refuses_conditional rest hkind hx htypes h
  obtain ⟨hsolid, blank, hblank, hresults⟩ := exists_reads_lead hx ('(' ::
    ((mentionsText x.operands).toList ++ ')' :: ((annotationText x.types).toList ++
      armsText indent rest " " (.arm first firstBody (.arm second secondBody .done)))))
  rw [hx.conditional hkind]
  simp only [List.append_assoc, List.cons_append]
  refine hresults.bind_refuses fun _ _ => (reads_blanks hblank hsolid).bind_refuses fun _ _ => ?_
  exact hhead.bind _

/-- The nodes follow the grammar, and one has a float that is not finite. -/
structure Unreadable (body : BodyDraft) : Prop where
  named : BodyDraft.Named body
  proper : body.Proper NodeDraft.kind
  notFinite : ¬∀ x ∈ body.nodes, x.Finite

variable {returns : List Mention}
  (hblock : ∀ {head : BlockDraft} {body : BodyDraft}, head.Named → BodyDraft.Writable body →
    (blockText (indent + 2) head body []).length ≤ nesting → ReadsBlock block (indent + 2) head body)
  (hrefused : ∀ {head : BlockDraft} {body : BodyDraft}, head.Named → Unreadable body →
    (blockText (indent + 2) head body []).length ≤ nesting → RefusesBlock block (indent + 2) head body)
include hblock hrefused

/-- Arms of a conditional, one of which has a float that is not finite. -/
theorem refuses_arms {first second : BlockDraft} {firstBody secondBody : BodyDraft}
    (hnamed : ArmsDraft.Named (.arm first firstBody (.arm second secondBody .done)))
    (hproper : (Arms.arm first firstBody (.arm second secondBody .done)).Proper NodeDraft.kind)
    (hfinite : ¬∀ x ∈ (Arms.arm first firstBody (.arm second secondBody .done)).nodes, x.Finite)
    (hlength : (armsText (indent + 2) [] " "
      (.arm first firstBody (.arm second secondBody .done))).length ≤ nesting) :
    RefusesBlock block (indent + 2) first firstBody ∨ ReadsBlock block (indent + 2) first firstBody ∧
      RefusesBlock block (indent + 2) second secondBody := by
  obtain ⟨hfirst, hfirstBody, hrest⟩ := ArmsDraft.named_arm.1 hnamed
  obtain ⟨hsecond, hsecondBody, -⟩ := ArmsDraft.named_arm.1 hrest
  have hsplit := blockText_append (indent + 2) first firstBody []
    (armsText (indent + 2) [] " else " (.arm second secondBody .done))
  rw [List.nil_append] at hsplit
  rw [armsText, ← hsplit, List.length_append, List.length_append] at hlength
  by_cases hfin : ∀ x ∈ firstBody.nodes, x.Finite
  · refine Or.inr ⟨hblock hfirst ⟨hfirstBody, hproper.1, hfin⟩ (by omega), ?_⟩
    rw [armsText, armsText, List.length_append] at hlength
    refine hrefused hsecond ⟨hsecondBody, hproper.2.1, fun hfin' => hfinite ?_⟩ (by omega)
    simp only [Arms.nodes, List.append_nil, List.forall_mem_append]
    exact ⟨hfin, hfin'⟩
  · exact Or.inl (hrefused hfirst ⟨hfirstBody, hproper.1, hfin⟩ (by omega))

/-- The items of a block are refused, if there is a float that is not finite.  They are read up to the
first node with such a float, or with an arm in which there is one. -/
theorem refuses_items : ∀ {body : BodyDraft} {budget before : List Char}, Unreadable body →
    (linesText (bodyLines (indent + 2) body)).length ≤ depth →
    (linesText (bodyLines (indent + 2) body)).length ≤ nesting → Blank before →
    (items (item depth block) budget).Refuses (before ++ itemsText indent body returns more)
  | .done, _, _, hbody, _, _, _ => absurd nofun hbody.notFinite
  | .node head arms rest, [], _, _, _, _, _ => fun offset => ⟨offset, rfl⟩
  | .node head arms rest, _ :: budget, before, hbody, hdepth, hnesting, hbefore => by
    obtain ⟨hhead, harms, hrest⟩ := BodyDraft.named_node.1 hbody.named
    obtain ⟨hshape, hproperArms, hproperRest⟩ := hbody.proper
    have hfinite := hbody.notFinite
    rw [Body.nodes, List.forall_mem_cons, List.forall_mem_append] at hfinite
    have hsolid := isSolid_of_startsItem (startsItem_itemsText indent hbody.named returns more)
    rw [length_linesText_node] at hdepth hnesting
    have hheadDepth : head.text.toList.length ≤ depth := by omega
    -- A node is tried first, since what comes next is not the end of the block.
    refine (reads_blanks hbefore hsolid).bind_refuses fun _ _ => ?_
    refine (reads_nextIs_node hhead).bind_refuses fun a ha => ?_
    subst ha
    by_cases hhead' : head.Finite
    · by_cases harms' : ∀ x ∈ arms.nodes, x.Finite
      · -- the node is read, and the nodes after it are refused
        obtain ⟨skipped, hskipped, hsplit⟩ := exists_restText indent rest returns more
        have hreadsArms := readsArms_of_length hblock " " ⟨harms, hproperArms, harms'⟩ (by omega)
        obtain ⟨blank, hblank, hnode⟩ := exists_reads_node hhead hhead' hheadDepth hshape hreadsArms
          (blank_cons (c := '\n') rfl hskipped) (startsItem_itemsText indent hrest returns more) rfl
        simp only [List.cons_append, ← hsplit] at hnode
        have hitem : (item depth block).Reads (itemsText indent (.node head arms rest) returns more)
            (blank ++ itemsText indent rest returns more) fun a => ∃ x, a = .node x :=
          Reads.orElse (hnode.bind fun x _ => reads_pure ⟨x, rfl⟩) _
        refine hitem.bind_refuses fun a ha => ?_
        obtain ⟨⟨head', arms'⟩, rfl⟩ := ha
        have hlater : Unreadable rest :=
          ⟨hrest, hproperRest, fun hrest' => hfinite ⟨hhead', harms', hrest'⟩⟩
        exact (refuses_items hlater (by omega) (by omega) hblank).bind _
      · -- the node is refused with one of its arms
        rcases arms_cases hshape with ⟨-, rfl⟩ | ⟨hkind, first, firstBody, second, secondBody, rfl⟩
        · exact absurd nofun harms'
        · have hrefuses := refuses_arms hblock hrefused harms hproperArms harms' (by omega)
          exact (refuses_item_conditional _ hkind hhead hheadDepth hrefuses).bind _
    · -- the attributes of the node are left
      obtain ⟨left, hnode⟩ := exists_reads_node_of_not_finite block hhead hhead' hheadDepth
        (armsText (indent + 2) ('\n' :: restText indent rest returns more) " " arms)
      have hitem : (item depth block).Reads (itemsText indent (.node head arms rest) returns more)
          (' ' :: '\x7b' :: left) fun a => ∃ x, a = .node x :=
        Reads.orElse (hnode.bind fun x _ => reads_pure ⟨x, rfl⟩) _
      refine hitem.bind_refuses fun a ha => ?_
      obtain ⟨⟨head', arms'⟩, rfl⟩ := ha
      exact (refuses_items_brace budget left).bind _

end Items

/-- A block is refused, if there is a float in it that is not finite. -/
theorem refusesBlock {depth : Nat} : ∀ {nesting indent : Nat} {head : BlockDraft} {body : BodyDraft},
    nesting ≤ depth → head.Named → Unreadable body →
    (blockText indent head body []).length ≤ nesting →
    RefusesBlock (Reader.block depth nesting) indent head body
  | 0, _, _, _, _, _, _, _ => fun _ offset => ⟨offset, rfl⟩
  | nesting + 1, indent, head, body, hnesting, hhead, hbody, hlength => by
    intro more
    obtain ⟨skipped, hskipped, hsplit⟩ := exists_restText indent body head.returns more
    have hstart := startsItem_itemsText indent hbody.named head.returns more
    have hparts := length_lt_blockText indent head body
    have hroom : (paramsPart head.params).toList.length ≤ depth := by omega
    obtain ⟨middle, before, hbefore, hblanks, hparams⟩ :=
      exists_reads_paramsPart hhead.params hroom hskipped hstart
    have hitems : Refuses
        (fun cursor => items (item depth (Reader.block depth nesting)) cursor.rest cursor)
        (before ++ itemsText indent body head.returns more) := fun offset =>
      refuses_items (fun h₁ h₂ h₃ => readsBlock (by omega) h₁ h₂ h₃)
        (fun h₁ h₂ h₃ => refusesBlock (by omega) h₁ h₂ h₃) hbody (by omega) (by omega) hbefore offset
    rw [blockText, hsplit]
    refine (reads_char '\x7b').bind_refuses fun _ _ => hblanks.bind_refuses fun _ _ => ?_
    exact hparams.bind_refuses fun _ _ => hitems.bind _

/-- A graph is refused, if there is a float in it that is not finite. -/
theorem refuses_graph {draft : GraphDraft} {depth : Nat} (hparams : NamedParams draft.params)
    (hreturns : ∀ m ∈ draft.block.returns, IsValueName m.name) (hbody : Unreadable draft.body)
    (hdepth : draft.text.toList.length ≤ depth) : (graph depth).Refuses draft.text.toList := by
  rw [GraphDraft.toList_text] at hdepth ⊢
  have hlength := congrArg List.length
    (blockText_append 0 ⟨[], draft.block.returns⟩ draft.body [] ['\n'])
  simp only [List.length_append, List.length_cons, List.nil_append] at hdepth hlength
  have hrefuses : RefusesBlock (Reader.block depth depth) 0 ⟨[], draft.block.returns⟩ draft.body :=
    refusesBlock (Nat.le_refl depth) ⟨nofun, hreturns⟩ hbody (by omega)
  have hkeyword : (keyword "graph").Reads ("graph".toList ++ '(' ::
      ((paramsText draft.params).toList ++ ')' :: ' ' ::
        blockText 0 ⟨[], draft.block.returns⟩ draft.body ['\n'])) _ fun _ => True :=
    (reads_word "graph").bind fun _ _ => reads_no_blanks rfl
  refine (reads_no_blanks rfl).bind_refuses fun _ _ => Refuses.bind ?_ _
  refine hkeyword.bind_refuses fun _ _ => (reads_params hparams (by omega)).bind_refuses fun _ _ => ?_
  exact (reads_space rfl).bind_refuses fun _ _ => (hrefuses ['\n']).bind _

end Reader

/-- A draft that follows the grammar and whose text is read has finite floats only. -/
theorem GraphDraft.finite_of_ofText {draft draft' : GraphDraft} (hnamed : draft.Named)
    (hproper : draft.body.Proper NodeDraft.kind) (hread : GraphDraft.ofText draft.text = .ok draft') :
    ∀ x ∈ draft.body.nodes, x.Finite := by
  by_contra hfinite
  have hlength : draft.text.toList.length ≤ draft.text.toList.length + 1 := Nat.le_succ _
  obtain ⟨stop, hstop⟩ := Reader.refuses_graph hnamed.params hnamed.returns
    ⟨hnamed.body, hproper, hfinite⟩ hlength 0
  rw [GraphDraft.ofText, Cursor.ofString] at hread
  dsimp only at hread
  rw [hstop] at hread
  cases hread

end Text

end Unguard
