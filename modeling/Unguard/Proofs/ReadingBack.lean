import Unguard.Proofs.Writable

/-!
# Reading a draft back from its text

A draft that follows the grammar and has finite floats only is read back from its text, the places of
the names in the text apart (`GraphDraft.exists_ofText`).

The proof goes up the grammar.  `Reader.ReadsBack p text P` says that `p` reads `text` wherever no
lexeme goes on after it, and gives a value that satisfies `P`.  Lists are read back if their items are
(`Reader.reads_list`), and with that types, constants, attributes, parameters, nodes and blocks.
Nesting is bounded by the length of the text, which is also what the proofs by induction go down on.
-/

namespace Unguard

/-- A float that is not finite is written as a word. -/
theorem Binary64.text_of_not_isFinite {bits : UInt64} (h : ¬IsFinite bits) :
    text bits = "inf" ∨ text bits = "-inf" ∨ text bits = "NaN" := by
  rw [IsFinite] at h
  simp only [text, if_neg h]
  split
  · cases isNegative bits with
    | true => exact Or.inr (Or.inl rfl)
    | false => exact Or.inl rfl
  · exact Or.inr (Or.inr rfl)

namespace Text

/-! ### Lists with commas -/

theorem toList_commaSeparated_cons (text : String) (texts : List String) :
    (commaSeparated (text :: texts)).toList =
      text.toList ++ texts.flatMap fun t => ',' :: ' ' :: t.toList := by
  rw [commaSeparated, String.toList_intercalate]
  induction texts generalizing text with
  | nil => simp [List.intercalate]
  | cons t ts ih =>
    rw [List.map_cons, List.map_cons, List.intercalate_cons_cons, ← List.map_cons, ih t,
      List.flatMap_cons, List.append_assoc]
    rfl

/-- A list of texts is no shorter than any of them, so the depth that is enough for the list is enough
for its items. -/
theorem length_le_commaSeparated {text : String} : ∀ {texts : List String}, text ∈ texts →
    text.toList.length ≤ (commaSeparated texts).toList.length
  | t :: ts, h => by
    rw [toList_commaSeparated_cons, List.length_append]
    rcases List.mem_cons.1 h with rfl | h
    · exact Nat.le_add_right _ _
    · obtain ⟨before, after, rfl⟩ := List.append_of_mem h
      simp only [List.flatMap_append, List.flatMap_cons, List.length_append, List.length_cons]
      omega

namespace Reader

variable {α γ ι : Type} {P : α → Prop} {rest after : List Char}

/-- The reader reads the text back wherever no lexeme goes on after it. -/
structure ReadsBack (p : Reader α) (text : String) (P : α → Prop) : Prop where
  solid : ∀ rest, isSolid (text.toList ++ rest) = true
  reads : ∀ rest, isApart rest = true → p.Reads (text.toList ++ rest) rest P

theorem ReadsBack.mono {p : Reader α} {text : String} {P' : α → Prop} (h : p.ReadsBack text P)
    (himp : ∀ a, P a → P' a) : p.ReadsBack text P' :=
  ⟨h.solid, fun rest hrest => (h.reads rest hrest).mono himp⟩

section Lists

variable {p : Reader α} {text : ι → String} {f : α → γ} {g : ι → γ}

/-- What stands after an item: the other items, each after a comma, and then blanks and the rest. -/
def itemsAfter (text : ι → String) (items : List ι) (after rest : List Char) : List Char :=
  (items.map text).flatMap (fun t => ',' :: ' ' :: t.toList) ++ (after ++ rest)

/-- The same without the blanks that stand first. -/
def itemsTail (text : ι → String) (items : List ι) (after rest : List Char) : List Char :=
  if items.isEmpty then rest else itemsAfter text items after rest

theorem itemsAfter_cons (i : ι) (items : List ι) : itemsAfter text (i :: items) after rest =
    ',' :: ' ' :: ((text i).toList ++ itemsAfter text items after rest) := by
  rw [itemsAfter, List.map_cons, List.flatMap_cons, List.append_assoc]
  rfl

/-- After the last item blanks are skipped; before a comma there are none. -/
theorem reads_blanks_itemsAfter (hafter : Blank after) (hrest : isSolid rest = true)
    (items : List ι) : blanks.Reads (itemsAfter text items after rest)
      (itemsTail text items after rest) fun _ => True := by
  cases items with
  | nil => exact reads_blanks hafter hrest
  | cons i items =>
    refine reads_no_blanks ?_
    rw [itemsAfter_cons]
    rfl

theorem isApart_itemsAfter (hend : isApart (after ++ rest) = true) (items : List ι) :
    isApart (itemsAfter text items after rest) = true := by
  cases items with
  | nil => exact hend
  | cons i items =>
    rw [itemsAfter_cons]
    rfl

/-- Every item takes a comma, so the rest of the text is a budget for all of them. -/
theorem length_le_itemsTail (items : List ι) :
    items.length ≤ (itemsTail text items after rest).length := by
  cases items with
  | nil => exact Nat.zero_le _
  | cons i items =>
    have hsum : ∀ items : List ι, items.length ≤ (itemsAfter text items after rest).length := by
      intro items
      induction items with
      | nil => exact Nat.zero_le _
      | cons j items ih =>
        rw [itemsAfter_cons]
        simp only [List.length_cons, List.length_append]
        omega
    exact hsum _

variable (hafter : Blank after) (hrest : isSolid rest = true) (hcomma : stops (· = ',') rest = true)
  (hend : isApart (after ++ rest) = true)
include hafter hrest hend

/-- An item is read up to the comma, or up to what comes after the list. -/
theorem reads_item {i : ι} (items : List ι) {before : List Char} (hbefore : Blank before)
    (h : p.ReadsBack (text i) fun a => f a = g i) :
    (padded p).Reads (before ++ ((text i).toList ++ itemsAfter text items after rest))
      (itemsTail text items after rest) fun a => f a = g i :=
  (reads_blanks hbefore (h.solid _)).bind fun _ _ =>
    (h.reads _ (isApart_itemsAfter hend items)).bind fun _ ha =>
      (reads_blanks_itemsAfter hafter hrest items).bind fun _ _ => reads_pure ha

include hcomma

/-- What follows the commas is read item by item, as long as the budget lasts. -/
theorem reads_afterCommas : ∀ {items : List ι} {budget : List Char}, items.length ≤ budget.length →
    (∀ i ∈ items, p.ReadsBack (text i) fun a => f a = g i) →
    (afterCommas (padded p) budget).Reads (itemsTail text items after rest) rest
      fun as => as.map f = items.map g
  | [], [], _, _ => reads_pure rfl
  | [], _ :: _, _, _ => by
    refine Reads.bind (Refuses.optional ((refuses_char hcomma).bind _)) fun o ho => ?_
    subst ho
    exact reads_pure rfl
  | i :: items, _ :: budget, hbudget, h => by
    rw [List.forall_mem_cons] at h
    have hfirst : Reads (do char ','; padded p) (itemsTail text (i :: items) after rest)
        (itemsTail text items after rest) fun a => f a = g i := by
      rw [itemsTail, if_neg (by simp), itemsAfter_cons]
      have hitem := reads_item hafter hrest hend items (blank_cons (c := ' ') rfl blank_nil) h.1
      exact (reads_char ',').bind fun _ _ => hitem
    refine hfirst.optional.bind fun o ho => ?_
    obtain ⟨a, rfl, ha⟩ := ho
    refine (reads_afterCommas (Nat.le_of_succ_le_succ hbudget) h.2).bind fun as has => reads_pure ?_
    rw [List.map_cons, List.map_cons, ha, has]

/-- One item and more after commas. -/
theorem reads_separated1_padded {i : ι} {items : List ι} {before : List Char} (hbefore : Blank before)
    (h : ∀ j ∈ i :: items, p.ReadsBack (text j) fun a => f a = g j) :
    (separated1 (padded p)).Reads
      (before ++ ((commaSeparated ((i :: items).map text)).toList ++ (after ++ rest))) rest
      fun as => as.map f = (i :: items).map g := by
  rw [List.forall_mem_cons] at h
  rw [List.map_cons, toList_commaSeparated_cons, List.append_assoc]
  have hitem := reads_item hafter hrest hend items hbefore h.1
  have hmore := hitem.separated1
    (reads_afterCommas hafter hrest hcomma hend (length_le_itemsTail items) h.2)
  refine hmore.mono fun as has => ?_
  obtain ⟨a, more, rfl, ha, hmap⟩ := has
  rw [List.map_cons, List.map_cons, ha, hmap]

theorem reads_separated1 {i : ι} {items : List ι}
    (h : ∀ j ∈ i :: items, p.ReadsBack (text j) fun a => f a = g j) :
    (separated1 (padded p)).Reads
      ((commaSeparated ((i :: items).map text)).toList ++ (after ++ rest)) rest
      fun as => as.map f = (i :: items).map g := by
  have hread := reads_separated1_padded hafter hrest hcomma hend blank_nil h
  exact hread

end Lists

/-- A list begins with its first item, or with what comes after it. -/
theorem isSolid_commaSeparated {text : ι → String} {items : List ι}
    (h : ∀ i ∈ items, ∀ {more}, isSolid ((text i).toList ++ more) = true)
    (hrest : isSolid rest = true) :
    isSolid ((commaSeparated (items.map text)).toList ++ rest) = true := by
  cases items with
  | nil => exact hrest
  | cons i items =>
    rw [List.map_cons, toList_commaSeparated_cons, List.append_assoc]
    exact h i List.mem_cons_self

/-- Items between brackets. -/
theorem reads_list {p : Reader α} {text : ι → String} {f : α → γ} {g : ι → γ} {left right : Char}
    {items : List ι} (h : ∀ i ∈ items, p.ReadsBack (text i) fun a => f a = g i)
    (hrefuses : p.Refuses (right :: rest)) (hsolid : isSolid (right :: rest) = true)
    (hcomma : stops (· = ',') (right :: rest) = true) (hapart : isApart (right :: rest) = true) :
    (bracketed left (separated (padded p)) right).Reads
      (left :: ((commaSeparated (items.map text)).toList ++ right :: rest)) rest
      fun as => as.map f = items.map g := by
  refine Reads.bracketed (isSolid_commaSeparated (fun i hi => (h i hi).solid _) hsolid) ?_ hsolid
  cases items with
  | nil =>
    refine (Refuses.separated (hrefuses.padded blank_nil hsolid)).mono fun as has => ?_
    rw [has]
    rfl
  | cons i items => exact (reads_separated1 blank_nil hsolid hcomma hapart h).separated

/-! ### Types -/

theorem isSolid_name {s : String} (hs : IsName s) (rest : List Char) :
    isSolid (s.toList ++ rest) = true := by
  obtain ⟨first, more, htext, hfirst, -⟩ := hs
  rw [htext]
  exact isSolid_of_isNamePart (isNamePart_of_isNameStart hfirst)

theorem stops_name {s : String} (hs : IsName s) (rest : List Char) {d : Char}
    (hd : isNamePart d = false) : stops (· = d) (s.toList ++ rest) = true := by
  obtain ⟨first, more, htext, hfirst, -⟩ := hs
  rw [htext]
  exact stops_of_isNamePart (isNamePart_of_isNameStart hfirst) hd

end Reader

end Text

/-- The parameters of a type as they are written. -/
def TypeTree.paramsText : List TypeTree → List Char
  | [] => []
  | ty :: tys => '(' :: ((commaSeparated ((ty :: tys).map TypeTree.text)).toList ++ [')'])

theorem TypeTree.toList_text (dialect name : String) (params : List TypeTree) :
    (TypeTree.mk dialect name params).text.toList =
      dialect.toList ++ '.' :: (name.toList ++ TypeTree.paramsText params) := by
  cases params with
  | nil =>
    rw [TypeTree.text, String.toList_append, String.toList_append, TypeTree.paramsText,
      List.append_nil, List.append_assoc]
    rfl
  | cons ty tys =>
    rw [TypeTree.text, TypeTree.texts_eq_map, TypeTree.paramsText]
    simp only [String.toList_append, List.append_assoc]
    rfl

namespace Text

namespace Reader

/-- A type is read back from its text, if the depth is at least the length of the text. -/
theorem readsBack_type : ∀ {depth : Nat} {ty : TypeTree}, ty.Writable →
    ty.text.toList.length ≤ depth → (type depth).ReadsBack ty.text fun a => a = ty
  | 0, .mk dialect name params, _, hdepth => by
    rw [TypeTree.toList_text, List.length_append, List.length_cons] at hdepth
    omega
  | depth + 1, .mk dialect name params, ⟨hdialect, hname, hparams⟩, hdepth => by
    rw [TypeTree.allWritable_iff] at hparams
    rw [TypeTree.toList_text] at hdepth
    refine ⟨fun rest => ?_, fun rest hrest => ?_⟩
    · rw [TypeTree.toList_text, List.append_assoc]
      exact isSolid_name hdialect _
    rw [TypeTree.toList_text, List.append_assoc, List.cons_append, List.append_assoc]
    cases params with
    | nil =>
      refine (reads_qualified hdialect hname (stops_namePart_of_isApart hrest)).bind fun op hop => ?_
      refine (Refuses.optional (Refuses.bind (refuses_char ?_) _)).bind fun o ho => reads_pure ?_
      · exact stops_char_of_isApart rfl hrest
      · rw [hop, ho]
        rfl
    | cons ty tys =>
      refine (reads_qualified hdialect hname rfl).bind fun op hop => ?_
      -- A type in the list is shorter than the whole, so the depth is enough for it.
      have hlist : (bracketed '(' (separated (padded (type depth))) ')').Reads
          (TypeTree.paramsText (ty :: tys) ++ rest) rest
          fun as => as.map id = (ty :: tys).map id := by
        rw [TypeTree.paramsText, List.cons_append, List.append_assoc]
        refine reads_list (fun ty' hty' => readsBack_type (hparams ty' hty') ?_) ?_ rfl rfl rfl
        · have := length_le_commaSeparated (List.mem_map_of_mem (f := TypeTree.text) hty')
          simp only [TypeTree.paramsText, List.length_append, List.length_cons] at hdepth
          omega
        · cases depth with
          | zero => exact fun offset => ⟨offset, rfl⟩
          | succ depth => exact (refuses_qualified rfl).bind _
      refine hlist.optional.bind fun o ho => reads_pure ?_
      obtain ⟨as, rfl, has⟩ := ho
      rw [List.map_id, List.map_id] at has
      rw [hop, has]
      rfl

/-! ### Constants -/

/-- A text that does not start with the first letter of a word does not start with the word. -/
theorem not_prefix_of_stops {word text : List Char} {c : Char} (hword : word.head? = some c)
    (h : stops (· = c) text = true) : ¬word <+: text := by
  rintro ⟨more, rfl⟩
  cases word with
  | nil => exact nomatch hword
  | cons d ds =>
    obtain rfl : d = c := Option.some.inj hword
    simp [stops] at h

/-- The words that are constants start with three letters. -/
theorem not_constantWord {text : List Char} (ht : stops (· = 't') text = true)
    (hf : stops (· = 'f') text = true) (hu : stops (· = 'u') text = true) :
    ∀ w ∈ constantWords, ¬w.toList <+: text := by
  intro w hw
  simp only [constantWords, List.mem_cons, List.not_mem_nil, or_false] at hw
  rcases hw with rfl | rfl | rfl
  · exact not_prefix_of_stops rfl ht
  · exact not_prefix_of_stops rfl hf
  · exact not_prefix_of_stops rfl hu

theorem reads_wordConstant {rest : List Char} (w : String) (l : Literal) :
    Reads (do word w; return l : Reader Literal) (w.toList ++ rest) rest fun a => a = l :=
  (reads_word w).bind fun _ _ => reads_pure rfl

theorem refuses_wordConstant {text : List Char} {w : String} (l : Literal)
    (h : ¬w.toList <+: text) : Refuses (do word w; return l : Reader Literal) text :=
  (refuses_word h).bind _

/-- A word without a point that stands before a point ends there or earlier. -/
theorem isPrefix_of_point {w text more : List Char} (hw : '.' ∉ w) (h : w <+: text ++ '.' :: more) :
    w <+: text := by
  rcases List.prefix_or_prefix_of_prefix h (List.prefix_append _ _) with hw' | ⟨beyond, rfl⟩
  · exact hw'
  · -- the word would go on past the text, and there stands the point
    rw [List.prefix_append_right_inj] at h
    cases beyond with
    | nil => exact (List.append_nil text).symm ▸ List.prefix_refl text
    | cons c cs =>
      rw [(List.cons_prefix_cons.1 h).1] at hw
      exact absurd (List.mem_append_right _ List.mem_cons_self) hw

theorem point_not_mem_constantWord {w : String} (hw : w ∈ constantWords) : '.' ∉ w.toList := by
  simp only [constantWords, List.mem_cons, List.not_mem_nil, or_false] at hw
  rcases hw with rfl | rfl | rfl <;> decide

/-- A type does not begin with one of those words. -/
theorem TypeTree.Unreserved.not_prefix {ty : TypeTree} (h : ty.Unreserved) (rest : List Char) :
    ∀ w ∈ constantWords, ¬w.toList <+: ty.text.toList ++ rest := by
  intro w hw hprefix
  obtain ⟨dialect, name, params⟩ := ty
  rw [TypeTree.toList_text, List.append_assoc, List.cons_append] at hprefix
  exact h w hw (isPrefix_of_point (point_not_mem_constantWord hw) hprefix)

/-- The text of an integer begins with its sign or with a digit. -/
theorem exists_signedText_cons (bits : UInt64) : ∃ c cs, (signedText bits).toList = c :: cs ∧
    (c = '-' ∨ c.isDigit = true) := by
  rw [signedText]
  split
  · obtain ⟨c, cs, hrepr, hc, -⟩ := exists_repr_cons bits.toNat
    exact ⟨c, cs, hrepr, Or.inr hc⟩
  · rw [String.toList_append]
    exact ⟨'-', _, rfl, Or.inl rfl⟩

/-- The text of a finite float begins with its sign or with a digit. -/
theorem exists_text_cons {bits : UInt64} (h : Binary64.IsFinite bits) : ∃ c cs,
    (Binary64.text bits).toList = c :: cs ∧ (c = '-' ∨ c.isDigit = true) := by
  obtain ⟨whole, fraction, htext, ⟨hne, hdigits⟩, -⟩ := Binary64.exists_text h
  rw [htext]
  cases Binary64.isNegative bits with
  | true => exact ⟨'-', _, rfl, Or.inl rfl⟩
  | false =>
    obtain ⟨c, cs, rfl⟩ := List.exists_cons_of_ne_nil hne
    exact ⟨c, _, rfl, Or.inr (hdigits c List.mem_cons_self)⟩

/-- A character that a number starts with starts nothing else. -/
theorem ne_of_number_head {c d : Char} (h : c = '-' ∨ c.isDigit = true) (hminus : d ≠ '-')
    (hdigit : d.isDigit = false) : c ≠ d := by
  rintro rfl
  rcases h with h | h
  · exact hminus h
  · rw [hdigit] at h
    exact Bool.false_ne_true h

section Literals

variable {depth : Nat} {text rest : List Char} {P : Literal → Prop}

/-- Where no word that is a constant stands, the other alternatives are tried. -/
theorem reads_literal_of_no_word (h : ∀ w ∈ constantWords, ¬w.toList <+: text)
    (hread : Reads ((do return .string (← quoted))
      <|> (do return .list (← bracketed '[' (separated (padded (literal depth))) ']'))
      <|> (do return .float (← float))
      <|> (do return .int (← integer))
      <|> (do return .type (← type (depth + 1)))) text rest P) :
    (literal (depth + 1)).Reads text rest P := by
  simp only [constantWords, List.forall_mem_cons] at h
  exact (refuses_wordConstant _ h.1).orElse_reads
    ((refuses_wordConstant _ h.2.1).orElse_reads ((refuses_wordConstant _ h.2.2.1).orElse_reads hread))

/-- Numbers are tried after strings and lists. -/
theorem reads_literal_of_number {c : Char} (hc : c = '-' ∨ c.isDigit = true)
    (hread : Reads ((do return .float (← float))
      <|> (do return .int (← integer))
      <|> (do return .type (← type (depth + 1)))) (c :: text) rest P) :
    (literal (depth + 1)).Reads (c :: text) rest P := by
  have hstops : ∀ d, d ≠ '-' → d.isDigit = false → stops (· = d) (c :: text) = true :=
    fun d h h' => by simp [stops, ne_of_number_head hc h h']
  apply reads_literal_of_no_word
  · exact not_constantWord (hstops 't' (by decide) rfl) (hstops 'f' (by decide) rfl)
      (hstops 'u' (by decide) rfl)
  · refine ((refuses_quoted (hstops '"' (by decide) rfl)).bind _).orElse_reads ?_
    exact (Refuses.bind (Refuses.bind (refuses_char (hstops '[' (by decide) rfl)) _) _).orElse_reads
      hread

end Literals

theorem isSolid_of_number_head {c : Char} (h : c = '-' ∨ c.isDigit = true) (text : List Char) :
    isSolid (c :: text) = true := by
  rcases h with rfl | h
  · rfl
  · exact isSolid_of_isNamePart (isNamePart_of_isDigit h)

/-- An integer is not taken for a float, since no point follows its digits. -/
theorem readsBack_int (depth : Nat) (bits : UInt64) :
    (literal (depth + 1)).ReadsBack (signedText bits) fun a => a = .int bits := by
  obtain ⟨c, cs, htext, hc⟩ := exists_signedText_cons bits
  constructor
  · intro rest
    rw [htext]
    exact isSolid_of_number_head hc _
  · intro rest hrest
    have hdigit := stops_digit_of_isApart hrest
    have hpoint := stops_char_of_isApart (c := '.') rfl hrest
    have hfloat := refuses_float_of_integer bits hdigit hpoint
    have hinteger := reads_integer bits hdigit
    rw [htext] at hfloat hinteger ⊢
    refine reads_literal_of_number hc ?_
    refine (hfloat.bind _).orElse_reads (Reads.orElse ?_ _)
    exact hinteger.bind fun a ha => reads_pure (congrArg Literal.int ha)

/-- A finite float is tried before an integer, and read to its last digit. -/
theorem readsBack_float (depth : Nat) {bits : UInt64} (h : Binary64.IsFinite bits) :
    (literal (depth + 1)).ReadsBack (Binary64.text bits) fun a => a = .float bits := by
  obtain ⟨c, cs, htext, hc⟩ := exists_text_cons h
  constructor
  · intro rest
    rw [htext]
    exact isSolid_of_number_head hc _
  · intro rest hrest
    have hfloat := reads_float h hrest
    rw [htext] at hfloat ⊢
    refine reads_literal_of_number hc (Reads.orElse ?_ _)
    exact hfloat.bind fun a ha => reads_pure (congrArg Literal.float ha)

theorem readsBack_string (depth : Nat) (s : String) :
    (literal (depth + 1)).ReadsBack (quote s) fun a => a = .string s := by
  obtain ⟨cs, hcs⟩ : ∃ cs, (quote s).toList = '"' :: cs := by
    rw [quote, String.toList_append, String.toList_append]
    exact ⟨_, rfl⟩
  constructor
  · intro rest
    rw [hcs]
    rfl
  · intro rest _
    have hquoted := @reads_quoted rest s
    rw [hcs] at hquoted ⊢
    apply reads_literal_of_no_word
    · exact not_constantWord rfl rfl rfl
    · exact Reads.orElse (hquoted.bind fun a ha => reads_pure (by rw [ha])) _

/-- What starts like a name, and not with a word that is a constant, can only be a type. -/
theorem literal_of_name {depth : Nat} {c : Char} (hc : isNameStart c = true) {text : List Char}
    (h : ∀ w ∈ constantWords, ¬w.toList <+: c :: text) (offset : Nat) :
    literal (depth + 1) ⟨c :: text, offset⟩ =
      (do return .type (← type (depth + 1)) : Reader Literal) ⟨c :: text, offset⟩ := by
  have hpart := isNamePart_of_isNameStart hc
  have hminus : stops (· = '-') (c :: text) = true := stops_of_isNamePart hpart rfl
  have hdigit : stops Char.isDigit (c :: text) = true := by
    rw [stops, isDigit_of_isNameStart hc]
    rfl
  simp only [constantWords, List.forall_mem_cons] at h
  -- each alternative before the type refuses the text
  refine ((refuses_wordConstant _ h.1).orElse_eq _ offset).trans ?_
  refine ((refuses_wordConstant _ h.2.1).orElse_eq _ offset).trans ?_
  refine ((refuses_wordConstant _ h.2.2.1).orElse_eq _ offset).trans ?_
  refine (((refuses_quoted (stops_of_isNamePart hpart rfl)).bind _).orElse_eq _ offset).trans ?_
  have hlist : (char '[').Refuses (c :: text) := refuses_char (stops_of_isNamePart hpart rfl)
  refine ((Refuses.bind (Refuses.bind hlist _) _).orElse_eq _ offset).trans ?_
  refine (((refuses_float hminus hdigit).bind _).orElse_eq _ offset).trans ?_
  exact ((refuses_integer hminus hdigit).bind _).orElse_eq _ offset

/-- A type is the last thing that is tried.  No other constant begins like it. -/
theorem readsBack_typeConstant {depth : Nat} {ty : TypeTree} (h : ty.Writable) (hun : ty.Unreserved)
    (hdepth : ty.text.toList.length ≤ depth + 1) :
    (literal (depth + 1)).ReadsBack ty.text fun a => a = .type ty := by
  have hback := readsBack_type h hdepth
  refine ⟨hback.solid, fun rest hrest => ?_⟩
  have htype := hback.reads rest hrest
  have hword := TypeTree.Unreserved.not_prefix hun rest
  obtain ⟨c, cs, htext, hc⟩ : ∃ c cs, ty.text.toList = c :: cs ∧ isNameStart c = true := by
    obtain ⟨dialect, name, params⟩ := ty
    obtain ⟨first, more, hdialect, hfirst, -⟩ := h.1
    rw [TypeTree.toList_text, hdialect]
    exact ⟨first, _, rfl, hfirst⟩
  rw [htext] at htype hword ⊢
  intro offset
  obtain ⟨l, next, hdone, hl⟩ := htype.bind (Q := fun a => a = Literal.type ty)
    (fun a ha => reads_pure (congrArg Literal.type ha)) offset
  exact ⟨l, next, (literal_of_name hc hword offset).trans hdone, hl⟩

theorem readsBack_unit (depth : Nat) : (literal (depth + 1)).ReadsBack "unit" fun a => a = .unit := by
  constructor
  · exact fun _ => rfl
  · intro rest _
    have htrue : Refuses (do word "true"; return .bool true : Reader Literal) ("unit".toList ++ rest) :=
      refuses_wordConstant _ (not_prefix_of_stops (c := 't') rfl rfl)
    have hfalse : Refuses (do word "false"; return .bool false : Reader Literal)
        ("unit".toList ++ rest) :=
      refuses_wordConstant _ (not_prefix_of_stops (c := 'f') rfl rfl)
    exact htrue.orElse_reads (hfalse.orElse_reads ((reads_wordConstant "unit" .unit).orElse _))

/-- The words `true` and `false` are read before anything else is tried. -/
theorem readsBack_bool (depth : Nat) (value : Bool) :
    (literal (depth + 1)).ReadsBack (if value then "true" else "false")
      fun a => a = .bool value := by
  constructor
  · cases value <;> exact fun _ => rfl
  · intro rest _
    cases value with
    | true => exact (reads_wordConstant "true" (.bool true)).orElse _
    | false =>
      have htrue : Refuses (do word "true"; return .bool true : Reader Literal)
          ("false".toList ++ rest) :=
        refuses_wordConstant _ (not_prefix_of_stops (c := 't') rfl rfl)
      exact htrue.orElse_reads ((reads_wordConstant "false" (.bool false)).orElse _)

/-- No constant starts with a closing bracket. -/
theorem refuses_literal (depth : Nat) (rest : List Char) : (literal depth).Refuses (']' :: rest) := by
  cases depth with
  | zero => exact fun offset => ⟨offset, rfl⟩
  | succ depth =>
    refine (refuses_wordConstant _ (not_prefix_of_stops (c := 't') rfl rfl)).orElse ?_
    refine (refuses_wordConstant _ (not_prefix_of_stops (c := 'f') rfl rfl)).orElse ?_
    refine (refuses_wordConstant _ (not_prefix_of_stops (c := 'u') rfl rfl)).orElse ?_
    refine ((refuses_quoted rfl).bind _).orElse ?_
    refine (Refuses.bind (Refuses.bind (refuses_char rfl) _) _).orElse ?_
    refine ((refuses_float rfl rfl).bind _).orElse (((refuses_integer rfl rfl).bind _).orElse ?_)
    exact Refuses.bind (Refuses.bind (refuses_qualified rfl) _) _

theorem toList_list (items : List Literal) (rest : List Char) :
    ("[" ++ commaSeparated (items.map Literal.text) ++ "]").toList ++ rest =
      '[' :: ((commaSeparated (items.map Literal.text)).toList ++ ']' :: rest) := by
  simp only [String.toList_append, List.append_assoc]
  rfl

/-- A list is read back if its items are, one level deeper. -/
theorem readsBack_list {depth : Nat} {items : List Literal}
    (h : ∀ l ∈ items, (literal depth).ReadsBack l.text fun a => a = l) :
    (literal (depth + 1)).ReadsBack ("[" ++ commaSeparated (items.map Literal.text) ++ "]")
      fun a => a = .list items := by
  constructor
  · intro rest
    rw [toList_list]
    rfl
  · intro rest _
    rw [toList_list]
    apply reads_literal_of_no_word
    · exact not_constantWord rfl rfl rfl
    refine ((refuses_quoted rfl).bind _).orElse_reads (Reads.orElse ?_ _)
    have hlist : (bracketed '[' (separated (padded (literal depth))) ']').Reads
        ('[' :: ((commaSeparated (items.map Literal.text)).toList ++ ']' :: rest)) rest
        fun as => as.map id = items.map id :=
      reads_list h (refuses_literal depth rest) rfl rfl rfl
    refine hlist.bind fun as has => reads_pure ?_
    rw [List.map_id, List.map_id] at has
    rw [has]

end Reader

/-- The floats in the constant are finite. -/
def Literal.Finite (l : Literal) : Prop :=
  ∀ bits ∈ l.floats, Binary64.IsFinite bits

theorem Literal.finite_of_floats_eq_nil {l : Literal} (h : l.floats = []) : l.Finite := by
  rw [Literal.Finite, h]
  exact List.forall_mem_nil _

theorem Literal.finite_float {bits : UInt64} : (Literal.float bits).Finite ↔ Binary64.IsFinite bits :=
  List.forall_mem_singleton

theorem Literal.finite_list {items : List Literal} :
    (Literal.list items).Finite ↔ ∀ l ∈ items, l.Finite := by
  simp only [Literal.Finite, Literal.floats, Literal.allFloats_eq_flatMap, List.forall_mem_flatMap]

/-- No constant has an empty text, so a depth of at least its length is never zero. -/
theorem Literal.length_text_pos : ∀ l : Literal, 0 < l.text.toList.length
  | .unit => by decide
  | .bool true | .bool false => by decide
  | .int bits => by
    obtain ⟨c, cs, htext, -⟩ := Reader.exists_signedText_cons bits
    rw [Literal.text, htext]
    exact Nat.succ_pos _
  | .float bits => by
    rw [Literal.text]
    by_cases h : Binary64.IsFinite bits
    · obtain ⟨c, cs, htext, -⟩ := Reader.exists_text_cons h
      rw [htext]
      exact Nat.succ_pos _
    · rcases Binary64.text_of_not_isFinite h with htext | htext | htext <;> rw [htext] <;> decide
  | .string s => by
    rw [Literal.text, quote, String.toList_append, String.toList_append]
    exact Nat.succ_pos _
  | .type (.mk dialect name params) => by
    rw [Literal.text, TypeTree.toList_text, List.length_append, List.length_cons]
    omega
  | .list items => by
    rw [Literal.text, String.toList_append, String.toList_append]
    exact Nat.succ_pos _

/-- The items of a list are shorter than it. -/
theorem Literal.length_text_lt {items : List Literal} {l : Literal} (hl : l ∈ items) :
    l.text.toList.length < (Literal.list items).text.toList.length := by
  have hle := length_le_commaSeparated (List.mem_map_of_mem (f := Literal.text) hl)
  have hbracket : "[".toList.length = 1 := rfl
  rw [Literal.text, Literal.texts_eq_map, String.toList_append, String.toList_append,
    List.length_append, List.length_append]
  omega

namespace Reader

/-- **Constants are read back.**  The induction is on the depth: the text of an item is shorter than the
text of its list. -/
theorem readsBack_literal {depth : Nat} {l : Literal} (hnamed : l.Named) (hfinite : l.Finite)
    (hdepth : l.text.toList.length ≤ depth) : (literal depth).ReadsBack l.text fun a => a = l := by
  induction depth generalizing l with
  | zero => exact absurd l.length_text_pos (Nat.not_lt.2 hdepth)
  | succ depth ih =>
    cases l with
    | unit => exact readsBack_unit depth
    | bool value => exact readsBack_bool depth value
    | int bits => exact readsBack_int depth bits
    | float bits => exact readsBack_float depth (Literal.finite_float.1 hfinite)
    | string s => exact readsBack_string depth s
    | type ty =>
      obtain ⟨hty, hun⟩ := hnamed.types ty List.mem_cons_self
      exact readsBack_typeConstant hty hun hdepth
    | list items =>
      rw [Literal.text, Literal.texts_eq_map]
      refine readsBack_list fun l hl => ih (Literal.named_list.1 hnamed l hl)
        (Literal.finite_list.1 hfinite l hl) (Nat.le_of_lt_succ ?_)
      exact Nat.lt_of_lt_of_le (Literal.length_text_lt hl) hdepth

end Reader

/-! ### Drafts without places -/

/-- The mention without its place in the text. -/
def Mention.bare (m : Mention) : Mention :=
  ⟨m.name, 0⟩

theorem Mention.bare_eq_iff {m m' : Mention} : m.bare = m'.bare ↔ m.name = m'.name := by
  simp [Mention.bare]

/-- Parameters without places in the text. -/
def bareParams (params : List (Mention × TypeTree)) : List (Mention × TypeTree) :=
  params.map fun p => (p.1.bare, p.2)

/-- The node without places in the text. -/
def NodeDraft.bare (x : NodeDraft) : NodeDraft :=
  { x with results := x.results.map Mention.bare, operands := x.operands.map Mention.bare }

/-- The block without places in the text. -/
def BlockDraft.bare (b : BlockDraft) : BlockDraft :=
  ⟨bareParams b.params, b.returns.map Mention.bare⟩

/-- The graph without places in the text. -/
def GraphDraft.bare (draft : GraphDraft) : GraphDraft :=
  ⟨bareParams draft.params, draft.block.bare, draft.body.map NodeDraft.bare BlockDraft.bare⟩

namespace Reader

variable {rest after : List Char}

/-! ### Values -/

/-- Where the name stands is not read back, the name is. -/
theorem readsBack_mention {m : Mention} (h : IsValueName m.name) :
    mention.ReadsBack m.text fun a => a.bare = m.bare := by
  have htext : ∀ rest, m.text.toList ++ rest = '%' :: (m.name.toList ++ rest) := by
    intro rest
    rw [Mention.text, String.toList_append]
    rfl
  constructor
  · intro rest
    rw [htext]
    rfl
  · intro rest hrest
    rw [htext]
    exact (reads_mention h (stops_namePart_of_isApart hrest)).mono fun a => Mention.bare_eq_iff.2

theorem reads_operands {ms : List Mention} (h : ∀ m ∈ ms, IsValueName m.name) :
    operands.Reads ('(' :: ((mentionsText ms).toList ++ ')' :: rest)) rest
      fun as => as.map Mention.bare = ms.map Mention.bare :=
  reads_list (fun m hm => readsBack_mention (h m hm)) (refuses_mention rfl) rfl rfl rfl

/-- The results of a node as they are written. -/
def resultsText (ms : List Mention) : String :=
  if ms.isEmpty then "" else mentionsText ms ++ " = "

/-- Results are read up to the blank after the equals sign, and left out where there are none. -/
theorem exists_reads_results {ms : List Mention} {text : List Char}
    (h : ∀ m ∈ ms, IsValueName m.name) (hsolid : isSolid text = true)
    (hstops : stops (· = '%') text = true) : ∃ skipped, Blank skipped ∧
    (optional results).Reads ((resultsText ms).toList ++ text) (skipped ++ text)
      fun o => (o.getD []).map Mention.bare = ms.map Mention.bare := by
  cases ms with
  | nil =>
    -- Without results there is nothing to read, and what follows does not look like a mention.
    refine ⟨[], blank_nil, ?_⟩
    have hrefuses : results.Refuses text :=
      Refuses.bind (Refuses.bind ((refuses_mention hstops).padded blank_nil hsolid) _) _
    refine hrefuses.optional.mono fun o ho => ?_
    rw [ho]
    rfl
  | cons m ms =>
    -- The blank after the equals sign is left to be skipped.
    refine ⟨[' '], blank_cons rfl blank_nil, ?_⟩
    have htext : (resultsText (m :: ms)).toList ++ text =
        (commaSeparated ((m :: ms).map Mention.text)).toList ++ ([' '] ++ '=' :: ' ' :: text) := by
      rw [resultsText, if_neg (by simp), String.toList_append, List.append_assoc]
      rfl
    have hread : results.Reads ((resultsText (m :: ms)).toList ++ text) (' ' :: text)
        fun as => as.map Mention.bare = (m :: ms).map Mention.bare := by
      rw [htext]
      refine Reads.bind (reads_separated1 (blank_cons rfl blank_nil) rfl rfl rfl
        fun m' hm' => readsBack_mention (h m' hm')) fun as has => ?_
      exact (reads_char '=').bind fun _ _ => reads_pure has
    refine hread.optional.mono ?_
    rintro o ⟨as, rfl, has⟩
    exact has

/-! ### Types of results -/

/-- The types of a node's results as they are written. -/
def annotationText (tys : List TypeTree) : String :=
  if tys.isEmpty then "" else " : " ++ commaSeparated (TypeTree.texts tys)

/-- Types are read with the blanks after them, and left out where there are none. -/
theorem exists_reads_annotation {depth : Nat} {tys : List TypeTree} (h : ∀ ty ∈ tys, ty.Writable)
    (hdepth : (annotationText tys).toList.length ≤ depth) (hafter : Blank after)
    (hrest : isSolid rest = true) (hcomma : stops (· = ',') rest = true)
    (hcolon : stops (· = ':') rest = true) (hend : isApart (after ++ rest) = true) :
    ∃ skipped, Blank skipped ∧ (annotation? depth).Reads
      ((annotationText tys).toList ++ (after ++ rest)) (skipped ++ rest) fun a => a = tys := by
  cases tys with
  | nil =>
    refine ⟨after, hafter, ?_⟩
    refine Reads.bind (Refuses.optional ?_) fun o ho => reads_pure ?_
    · exact (reads_blanks hafter hrest).bind_refuses fun _ _ => (refuses_char hcolon).bind _
    · rw [ho]
      rfl
  | cons ty tys =>
    refine ⟨[], blank_nil, ?_⟩
    have htext : (annotationText (ty :: tys)).toList =
        ' ' :: ':' :: ' ' :: (commaSeparated ((ty :: tys).map TypeTree.text)).toList := by
      rw [annotationText, if_neg (by simp), String.toList_append, TypeTree.texts_eq_map]
      rfl
    have hitem : ∀ ty' ∈ ty :: tys, (type depth).ReadsBack ty'.text fun a => id a = id ty' := by
      intro ty' hty'
      refine readsBack_type (h ty' hty') ?_
      have hle := length_le_commaSeparated (List.mem_map_of_mem (f := TypeTree.text) hty')
      rw [htext] at hdepth
      simp only [List.length_cons] at hdepth
      omega
    -- The list of types takes the blanks after it, and so nothing is left to skip.
    have hread : Reads (do blanks; char ':'; blanks; separated1 (padded (type depth)))
        ((annotationText (ty :: tys)).toList ++ (after ++ rest)) rest
        fun as => as.map id = (ty :: tys).map id := by
      have hsolid : isSolid ((commaSeparated ((ty :: tys).map TypeTree.text)).toList ++
          (after ++ rest)) = true := by
        rw [List.map_cons, toList_commaSeparated_cons, List.append_assoc]
        exact (hitem ty List.mem_cons_self).solid _
      rw [htext]
      refine (reads_space rfl).bind fun _ _ => ?_
      refine (reads_char ':').bind fun _ _ => ?_
      exact (reads_space hsolid).bind fun _ _ =>
        reads_separated1 hafter hrest hcomma hend hitem
    refine hread.optional.bind fun o ho => reads_pure ?_
    obtain ⟨as, rfl, has⟩ := ho
    rw [List.map_id, List.map_id] at has
    exact has

/-! ### Attributes and parameters -/

theorem toList_entry (e : String × Literal) (rest : List Char) :
    (e.1 ++ " = " ++ e.2.text).toList ++ rest =
      e.1.toList ++ ' ' :: '=' :: ' ' :: (e.2.text.toList ++ rest) := by
  simp only [String.toList_append, List.append_assoc]
  rfl

/-- The blanks around the equals sign are those that are written. -/
theorem readsBack_entry {depth : Nat} {e : String × Literal} (hkey : IsName e.1) (hnamed : e.2.Named)
    (hfinite : e.2.Finite) (hdepth : e.2.text.toList.length ≤ depth) :
    ReadsBack (do
      let key ← name
      blanks
      char '='
      blanks
      let value ← literal depth
      return (key, value)) (e.1 ++ " = " ++ e.2.text) fun a => a = e := by
  have hback := readsBack_literal hnamed hfinite hdepth
  constructor
  · intro rest
    rw [toList_entry]
    exact isSolid_name hkey _
  · intro rest hrest
    rw [toList_entry]
    refine (reads_name hkey rfl).bind fun key hkey => ?_
    refine (reads_space rfl).bind fun _ _ => ?_
    refine (reads_char '=').bind fun _ _ => ?_
    refine (reads_space (hback.solid _)).bind fun _ _ => ?_
    refine (hback.reads rest hrest).bind fun value hvalue => reads_pure ?_
    rw [hkey, hvalue]

/-- The attributes of a node as they are written. -/
def attributesPart (es : List (String × Literal)) : String :=
  if es.isEmpty then "" else " \x7b" ++ attributesText es ++ "\x7d"

theorem toList_attributesPart {es : List (String × Literal)} (hne : es ≠ []) (rest : List Char) :
    (attributesPart es).toList ++ rest = ' ' :: '\x7b' :: ((commaSeparated
      (es.map fun e => e.1 ++ " = " ++ e.2.text)).toList ++ '\x7d' :: rest) := by
  rw [attributesPart, if_neg (by simpa using hne), String.toList_append, String.toList_append,
    List.append_assoc, List.append_assoc]
  rfl

/-- The value of an attribute is shorter than the attributes are. -/
theorem length_le_attributesPart {es : List (String × Literal)} {e : String × Literal} (he : e ∈ es) :
    e.2.text.toList.length ≤ (attributesPart es).toList.length := by
  have htext := congrArg List.length (toList_attributesPart (List.ne_nil_of_mem he) [])
  have hle := length_le_commaSeparated
    (List.mem_map_of_mem (f := fun e : String × Literal => e.1 ++ " = " ++ e.2.text) he)
  simp only [List.length_cons, List.length_append, String.toList_append, List.length_nil] at htext hle
  omega

/-- Attributes are read where they are written, and left out where there are none. -/
theorem reads_attributes {depth : Nat} {es : List (String × Literal)}
    (h : ∀ e ∈ es, IsName e.1 ∧ e.2.Named) (hfinite : ∀ e ∈ es, e.2.Finite)
    (hdepth : (attributesPart es).toList.length ≤ depth) (hafter : Blank after)
    (hrest : isSolid rest = true) (hbrace : stops (· = '\x7b') rest = true) :
    (attributes? depth).Reads ((attributesPart es).toList ++ (after ++ rest)) (after ++ rest)
      fun a => a = es := by
  cases es with
  | nil =>
    -- Nothing is written for no attributes, and no brace follows that could open some.
    refine Reads.bind (Refuses.optional ?_) fun o ho => reads_pure ?_
    · exact (reads_blanks hafter hrest).bind_refuses fun _ _ => (refuses_char hbrace).bind _
    · rw [ho]
      rfl
  | cons e es =>
    have hread : Reads (do blanks; attributes depth)
        ((attributesPart (e :: es)).toList ++ (after ++ rest)) (after ++ rest)
        fun as => as.map id = (e :: es).map id := by
      rw [toList_attributesPart (List.cons_ne_nil _ _)]
      refine (reads_space rfl).bind fun _ _ => ?_
      exact reads_list (fun e' he' => readsBack_entry (h e' he').1 (h e' he').2 (hfinite e' he')
        (Nat.le_trans (length_le_attributesPart he') hdepth)) ((refuses_name rfl).bind _) rfl rfl rfl
    refine hread.optional.bind fun o ho => reads_pure ?_
    obtain ⟨as, rfl, has⟩ := ho
    rw [List.map_id, List.map_id] at has
    exact has

/-- The blank after the colon is the one that is written. -/
theorem readsBack_param {depth : Nat} {p : Mention × TypeTree} (hname : IsValueName p.1.name)
    (hty : p.2.Writable) (hdepth : p.2.text.toList.length ≤ depth) :
    ReadsBack (do
      let value ← mention
      blanks
      char ':'
      blanks
      let ty ← type depth
      return (value, ty)) (p.1.text ++ ": " ++ p.2.text) fun a => (a.1.bare, a.2) = (p.1.bare, p.2) := by
  have hback := readsBack_type hty hdepth
  have htext : ∀ rest, (p.1.text ++ ": " ++ p.2.text).toList ++ rest =
      p.1.text.toList ++ ':' :: ' ' :: (p.2.text.toList ++ rest) := by
    intro rest
    simp only [String.toList_append, List.append_assoc]
    rfl
  constructor
  · intro rest
    rw [htext]
    exact (readsBack_mention hname).solid _
  · intro rest hrest
    rw [htext]
    refine ((readsBack_mention hname).reads _ rfl).bind fun m hm => ?_
    refine (reads_no_blanks rfl).bind fun _ _ => (reads_char ':').bind fun _ _ => ?_
    refine (reads_space (hback.solid _)).bind fun _ _ => ?_
    refine (hback.reads rest hrest).bind fun ty hty => reads_pure ?_
    rw [hm, hty]

theorem reads_params {depth : Nat} {ps : List (Mention × TypeTree)} (h : NamedParams ps)
    (hdepth : (paramsText ps).toList.length ≤ depth) :
    (params depth).Reads ('(' :: ((paramsText ps).toList ++ ')' :: rest)) rest
      fun as => bareParams as = bareParams ps := by
  refine reads_list (fun p hp => readsBack_param (h p hp).1 (h p hp).2 ?_)
    ((refuses_mention rfl).bind _) rfl rfl rfl
  have hle := length_le_commaSeparated (List.mem_map_of_mem
    (f := fun p : Mention × TypeTree => p.1.text ++ ": " ++ p.2.text) hp)
  simp only [paramsText, String.toList_append, List.length_append] at hdepth hle
  omega

end Reader

/-! ### Lines -/

/-- Lines as one sequence of characters. -/
def linesText (lines : List String) : List Char :=
  (joinLines lines).toList

theorem linesText_nil : linesText [] = [] := rfl

theorem linesText_cons (line : String) (lines : List String) :
    linesText (line :: lines) = line.toList ++ '\n' :: linesText lines := by
  rw [linesText, linesText, joinLines, joinLines, List.map_cons, String.join_cons,
    String.toList_append, String.toList_append, List.append_assoc]
  rfl

theorem linesText_append : ∀ a b : List String, linesText (a ++ b) = linesText a ++ linesText b
  | [], _ => rfl
  | line :: lines, b => by
    rw [List.cons_append, linesText_cons, linesText_cons, linesText_append lines b, List.append_assoc,
      List.cons_append]

theorem toList_indentation (indent : Nat) : (indentation indent).toList = List.replicate indent ' ' := by
  rw [indentation, String.toList_ofList]

theorem Reader.blank_indentation (indent : Nat) : Reader.Blank (indentation indent).toList := by
  intro c hc
  rw [toList_indentation] at hc
  rw [List.eq_of_mem_replicate hc]
  rfl

/-- The parameters of a block as they are written. -/
def paramsPart (ps : List (Mention × TypeTree)) : String :=
  if ps.isEmpty then "" else " ^(" ++ paramsText ps ++ ")"

/-- What stands in a block after its first line, and after the block. -/
def restText (indent : Nat) (body : BodyDraft) (returns : List Mention) (more : List Char) :
    List Char :=
  linesText (bodyLines (indent + 2) body) ++
    (linesText (returnLines (indent + 2) returns) ++ ((indentation indent).toList ++ '\x7d' :: more))

/-- A block as it is written, and what stands after it. -/
def blockText (indent : Nat) (head : BlockDraft) (body : BodyDraft) (more : List Char) : List Char :=
  '\x7b' :: ((paramsPart head.params).toList ++ '\n' :: restText indent body head.returns more)

/-- Blocks as they are written, each after a lead, and what stands after them. -/
def armsText (indent : Nat) (more : List Char) : String → ArmsDraft → List Char
  | _, .done => more
  | lead, .arm head body rest =>
    lead.toList ++ blockText indent head body (armsText indent more " else " rest)

/-- What comes after the arms is put at their end. -/
theorem armsText_append (indent : Nat) (more more' : List Char) : ∀ (lead : String)
    (arms : ArmsDraft), armsText indent more lead arms ++ more' =
      armsText indent (more ++ more') lead arms
  | _, .done => rfl
  | lead, .arm head body rest => by
    rw [armsText, armsText, ← armsText_append indent more more' " else " rest, blockText, blockText,
      restText, restText]
    simp only [List.append_assoc, List.cons_append]

/-- The line on which a node begins goes on with its first arm. -/
theorem linesText_armsLines (indent : Nat) : ∀ (line lead : String) (arms : ArmsDraft),
    linesText (armsLines indent line lead arms) = line.toList ++ armsText indent ['\n'] lead arms
  | line, lead, .done => by
    rw [armsLines, linesText_cons, armsText]
    rfl
  | line, lead, .arm head body rest => by
    rw [armsLines, linesText_cons, linesText_append, linesText_append,
      linesText_armsLines indent (indentation indent ++ "\x7d") " else " rest, armsText, blockText,
      restText, openingText, paramsPart]
    simp only [String.toList_append, List.append_assoc]
    rfl

/-- A node in a block: its line, its arms, and then what is left of the block. -/
theorem restText_node (indent : Nat) (head : NodeDraft) (arms : ArmsDraft) (rest : BodyDraft)
    (returns : List Mention) (more : List Char) :
    restText indent (.node head arms rest) returns more = (indentation (indent + 2)).toList ++
      (head.text.toList ++
        armsText (indent + 2) ('\n' :: restText indent rest returns more) " " arms) := by
  rw [restText, bodyLines, linesText_append, linesText_armsLines, String.toList_append,
    List.append_assoc, List.append_assoc, List.append_assoc, armsText_append]
  rfl

/-- The text of a node is made of those of its head, its arms and the nodes after it. -/
theorem length_linesText_node (indent : Nat) (head : NodeDraft) (arms : ArmsDraft)
    (rest : BodyDraft) : (linesText (bodyLines indent (.node head arms rest))).length =
      indent + head.text.toList.length + (armsText indent [] " " arms).length + 1 +
        (linesText (bodyLines indent rest)).length := by
  have harms := armsText_append indent [] ['\n'] " " arms
  rw [List.nil_append] at harms
  rw [bodyLines, linesText_append, linesText_armsLines, String.toList_append, toList_indentation, ← harms]
  simp only [List.length_append, List.length_replicate, List.length_singleton]
  omega

/-- The end of a block without values to return. -/
theorem restText_done (indent : Nat) (more : List Char) :
    restText indent .done [] more = (indentation indent).toList ++ '\x7d' :: more := rfl

/-- The end of a block with values to return. -/
theorem restText_returns (indent : Nat) (m : Mention) (ms : List Mention) (more : List Char) :
    restText indent .done (m :: ms) more = (indentation (indent + 2)).toList ++ ("return".toList ++
      ([' '] ++ ((mentionsText (m :: ms)).toList ++
        ('\n' :: (indentation indent).toList ++ '\x7d' :: more)))) := by
  rw [restText, bodyLines, linesText_nil, returnLines, if_neg (by simp), linesText_cons, linesText_nil]
  simp only [String.toList_append, List.append_assoc]
  rfl

/-- The text of a graph is the word, the parameters and the text of its block. -/
theorem GraphDraft.toList_text (draft : GraphDraft) : draft.text.toList =
    "graph".toList ++ '(' :: ((paramsText draft.params).toList ++ ')' :: ' ' ::
      blockText 0 ⟨[], draft.block.returns⟩ draft.body ['\n']) := by
  have hlines : draft.text.toList = linesText draft.lines := rfl
  rw [hlines, GraphDraft.lines, linesText_cons, linesText_append, linesText_append, linesText_cons,
    linesText_nil, blockText, restText]
  simp only [String.toList_append, List.append_assoc]
  rfl

/-! ### Nodes -/

/-- The floats in the node's attributes are finite. -/
def NodeDraft.Finite (x : NodeDraft) : Prop :=
  ∀ e ∈ x.attributes, e.2.Finite

theorem NodeDraft.toList_text (x : NodeDraft) : x.text.toList =
    (Reader.resultsText x.results).toList ++ (x.kind.text.toList ++ '(' ::
      ((mentionsText x.operands).toList ++ ')' :: ((Reader.attributesPart x.attributes).toList ++
        (Reader.annotationText x.types).toList))) := by
  rw [NodeDraft.text]
  simp only [String.toList_append, List.append_assoc]
  rfl

namespace Reader

variable {depth : Nat} {rest after : List Char}

/-- The text starts with a node, a return or the end of a block. -/
def startsItem : List Char → Bool
  | [] => false
  | c :: _ => c = '%' || c = '\x7d' || isNameStart c

/-- What stands in a block begins with a value, with a name or with the closing brace. -/
theorem startsItem_cases {text : List Char} (h : startsItem text = true) : ∃ c cs, text = c :: cs ∧
    (c = '%' ∨ c = '\x7d' ∨ isNameStart c = true) := by
  cases text with
  | nil => exact nomatch h
  | cons c cs =>
    simp only [startsItem, Bool.or_eq_true, decide_eq_true_eq] at h
    exact ⟨c, cs, rfl, or_assoc.1 h⟩

theorem startsItem_name {s : String} (hs : IsName s) (rest : List Char) :
    startsItem (s.toList ++ rest) = true := by
  obtain ⟨first, more, htext, hfirst, -⟩ := hs
  rw [htext, List.cons_append, startsItem, hfirst, Bool.or_true]

theorem isSolid_of_startsItem {text : List Char} (h : startsItem text = true) :
    isSolid text = true := by
  obtain ⟨c, cs, rfl, rfl | rfl | hc⟩ := startsItem_cases h
  · rfl
  · rfl
  · exact isSolid_of_isNamePart (isNamePart_of_isNameStart hc)

/-- Other signs do not begin anything that stands in a block. -/
theorem stops_of_startsItem {text : List Char} {d : Char} (h : startsItem text = true)
    (hpercent : d ≠ '%') (hbrace : d ≠ '\x7d') (hname : isNamePart d = false) :
    stops (· = d) text = true := by
  obtain ⟨c, cs, rfl, rfl | rfl | hc⟩ := startsItem_cases h
  · simp [stops, hpercent.symm]
  · simp [stops, hbrace.symm]
  · exact stops_of_isNamePart (isNamePart_of_isNameStart hc) hname

/-- What stands after attributes. -/
theorem exists_annotation_split (tys : List TypeTree) (hafter : Blank after)
    (hrest : isSolid rest = true) (hbrace : stops (· = '\x7b') rest = true) : ∃ skipped text,
    Blank skipped ∧ isSolid text = true ∧ stops (· = '\x7b') text = true ∧
      (annotationText tys).toList ++ (after ++ rest) = skipped ++ text := by
  cases tys with
  | nil => exact ⟨after, rest, hafter, hrest, hbrace, rfl⟩
  | cons ty tys =>
    rw [annotationText, if_neg (by simp), String.toList_append, List.append_assoc]
    exact ⟨[' '], _, blank_cons rfl blank_nil, rfl, rfl, rfl⟩

theorem isName_if : IsName "if" := ⟨'i', ['f'], rfl, rfl, List.all_eq_true.1 rfl⟩

theorem isName_raise : IsName "raise" := ⟨'r', ['a', 'i', 's', 'e'], rfl, rfl, List.all_eq_true.1 rfl⟩

theorem isName_return : IsName "return" := ⟨'r', ['e', 't', 'u', 'r', 'n'], rfl, rfl, List.all_eq_true.1 rfl⟩

/-- A single name does not start a node with an operator. -/
theorem refuses_opNode {s : String} (hs : IsName s) (hrest : stops isNamePart rest = true)
    (hpoint : stops (· = '.') rest = true) : (opNode depth).Refuses (s.toList ++ rest) :=
  (refuses_qualified_of_name hs hrest hpoint).bind _

/-- An operator with its operands is read up to what follows.  Only if it has types are the blanks there
read along with it. -/
theorem exists_reads_opNode {x : NodeDraft} {op : Operator} (hkind : x.kind = .op op) (hx : x.Named)
    (hfinite : x.Finite) (hattributes : (attributesPart x.attributes).toList.length ≤ depth)
    (htypes : (annotationText x.types).toList.length ≤ depth) (hafter : Blank after)
    (hrest : startsItem rest = true) (hend : isApart (after ++ rest) = true) :
    ∃ skipped, Blank skipped ∧ (opNode depth).Reads (x.kind.text.toList ++ '(' ::
      ((mentionsText x.operands).toList ++ ')' :: ((attributesPart x.attributes).toList ++
        ((annotationText x.types).toList ++ (after ++ rest))))) (skipped ++ rest)
      fun item => item.1.bare = { x.bare with results := [] } ∧ item.2 = .done := by
  have hsolid := isSolid_of_startsItem hrest
  have hstops : ∀ d, d ≠ '%' → d ≠ '\x7d' → isNamePart d = false → stops (· = d) rest = true :=
    fun d => stops_of_startsItem hrest
  obtain ⟨skipped, hskipped, hannotation⟩ := exists_reads_annotation hx.types htypes hafter hsolid
    (hstops ',' (by decide) (by decide) rfl) (hstops ':' (by decide) (by decide) rfl) hend
  -- Attributes are followed by types or by the next item, and neither starts with a brace.
  obtain ⟨blank, text, hblank, htext, hbrace, hsplit⟩ := exists_annotation_split x.types hafter hsolid
    (hstops '\x7b' (by decide) (by decide) rfl)
  have hread := reads_attributes hx.attributes hfinite hattributes hblank htext hbrace
  rw [← hsplit] at hread
  have hnames : IsName op.dialect ∧ IsName op.name := by
    have := hx.kind
    rwa [hkind] at this
  have hop : x.kind.text.toList = op.dialect.toList ++ '.' :: op.name.toList := by
    rw [hkind, Kind.text, Operator.text, String.toList_append, String.toList_append, List.append_assoc]
    rfl
  refine ⟨skipped, hskipped, ?_⟩
  rw [hop, List.append_assoc, List.cons_append]
  refine (reads_qualified hnames.1 hnames.2 rfl).bind fun op' hop' => ?_
  refine (reads_no_blanks rfl).bind fun _ _ => (reads_operands hx.operands).bind fun ms hms => ?_
  refine hread.bind fun es hes => hannotation.bind fun tys htys => reads_pure ⟨?_, rfl⟩
  subst hop' hes htys
  simp only [NodeDraft.bare, hms, hkind]
  rfl

/-- A raise has no types, so nothing after its attributes is tried. -/
theorem reads_raiseNode {x : NodeDraft} (hkind : x.kind = .raise) (hx : x.Named) (hfinite : x.Finite)
    (hattributes : (attributesPart x.attributes).toList.length ≤ depth) (hafter : Blank after)
    (hrest : startsItem rest = true) :
    (raiseNode depth).Reads (x.kind.text.toList ++ '(' ::
      ((mentionsText x.operands).toList ++ ')' :: ((attributesPart x.attributes).toList ++
        (after ++ rest)))) (after ++ rest)
      fun item => item.1.bare = { x.bare with results := [] } ∧ item.2 = .done := by
  have hbrace := stops_of_startsItem (d := '\x7b') hrest (by decide) (by decide) rfl
  have hread := reads_attributes hx.attributes hfinite hattributes hafter
    (isSolid_of_startsItem hrest) hbrace
  rw [hkind]
  have hkeyword : (keyword "raise").Reads (Kind.raise.text.toList ++ '(' ::
      ((mentionsText x.operands).toList ++ ')' :: ((attributesPart x.attributes).toList ++
        (after ++ rest)))) _ fun _ => True :=
    (reads_word "raise").bind fun _ _ => reads_no_blanks rfl
  refine hkeyword.bind fun _ _ => (reads_operands hx.operands).bind fun ms hms => ?_
  refine hread.bind fun es hes => reads_pure ⟨?_, rfl⟩
  subst hes
  simp only [NodeDraft.bare, hms, hkind, hx.raise hkind]
  rfl

/-- The block is read back. -/
def ReadsBlock (block : Reader (BlockDraft × BodyDraft)) (indent : Nat) (head : BlockDraft)
    (body : BodyDraft) : Prop :=
  ∀ more, block.Reads (blockText indent head body more) more fun b =>
    b.1.bare = head.bare ∧
      b.2.map NodeDraft.bare BlockDraft.bare = body.map NodeDraft.bare BlockDraft.bare

section Block

variable {block : Reader (BlockDraft × BodyDraft)} {indent : Nat}

/-- The types of a conditional, with the arms after them. -/
theorem exists_reads_annotation_arms (indent : Nat) (first second : BlockDraft)
    (firstBody secondBody : BodyDraft) (rest : List Char) {x : NodeDraft} (hx : x.Named)
    (htypes : (annotationText x.types).toList.length ≤ depth) :
    ∃ skipped, Blank skipped ∧ (annotation? depth).Reads
      ((annotationText x.types).toList ++
        armsText indent rest " " (.arm first firstBody (.arm second secondBody .done)))
      (skipped ++ blockText indent first firstBody
        (armsText indent rest " else " (.arm second secondBody .done))) fun a => a = x.types :=
  exists_reads_annotation hx.types htypes (blank_cons (c := ' ') rfl blank_nil) rfl rfl rfl rfl

/-- Both arms are read with their braces, and with the `else` between them. -/
theorem reads_conditional (rest : List Char) {x : NodeDraft} {first second : BlockDraft}
    {firstBody secondBody : BodyDraft} (hkind : x.kind = .conditional) (hx : x.Named)
    (htypes : (annotationText x.types).toList.length ≤ depth)
    (hfirst : ReadsBlock block indent first firstBody)
    (hsecond : ReadsBlock block indent second secondBody) :
    (conditional depth block).Reads (x.kind.text.toList ++ '(' ::
      ((mentionsText x.operands).toList ++ ')' :: ((annotationText x.types).toList ++
        armsText indent rest " " (.arm first firstBody (.arm second secondBody .done))))) rest
      fun item => item.1.bare = { x.bare with results := [] } ∧
        item.2.map NodeDraft.bare BlockDraft.bare =
          (Arms.arm first firstBody (.arm second secondBody .done)).map NodeDraft.bare
            BlockDraft.bare := by
  -- what stands after the first arm
  have helse : (keyword "else").Reads ("else".toList ++ ' ' :: blockText indent second secondBody rest)
      (blockText indent second secondBody rest) fun _ => True :=
    (reads_word "else").bind fun _ _ => reads_space rfl
  obtain ⟨skipped, hskipped, hannotation⟩ :=
    exists_reads_annotation_arms indent first second firstBody secondBody rest hx htypes
  have hkeyword : (keyword "if").Reads (Kind.conditional.text.toList ++ '(' ::
      ((mentionsText x.operands).toList ++ ')' :: ((annotationText x.types).toList ++
        armsText indent rest " " (.arm first firstBody (.arm second secondBody .done))))) _
      fun _ => True :=
    (reads_word "if").bind fun _ _ => reads_no_blanks rfl
  rw [hkind]
  refine hkeyword.bind fun _ _ => (reads_operands hx.operands).bind fun ms hms => ?_
  refine hannotation.bind fun tys htys => (reads_blanks hskipped rfl).bind fun _ _ => ?_
  refine (hfirst _).bind fun ⟨b₁, body₁⟩ h₁ => ?_
  refine (reads_space rfl).bind fun _ _ => helse.bind fun _ _ => ?_
  refine (hsecond rest).bind fun ⟨b₂, body₂⟩ h₂ => reads_pure ⟨?_, ?_⟩
  · subst htys
    simp only [NodeDraft.bare, hms, hkind, hx.conditional hkind]
    rfl
  · simp only [Arms.map, h₁.1, h₁.2, h₂.1, h₂.2]

/-- A conditional has two arms, and other nodes none. -/
theorem arms_cases {x : NodeDraft} {arms : ArmsDraft} (h : if x.kind = .conditional then
    arms.heads.length = 2 else arms.heads = []) :
    (x.kind ≠ .conditional ∧ arms = .done) ∨ (x.kind = .conditional ∧ ∃ first firstBody second
      secondBody, arms = .arm first firstBody (.arm second secondBody .done)) := by
  split at h
  · rename_i hkind
    refine Or.inr ⟨hkind, ?_⟩
    match arms, h with
    | .arm first firstBody (.arm second secondBody .done), _ =>
      exact ⟨first, firstBody, second, secondBody, rfl⟩
  · rename_i hkind
    refine Or.inl ⟨hkind, ?_⟩
    match arms, h with
    | .done, _ => rfl

/-- The kind of a node begins with a name. -/
theorem isName_kind {x : NodeDraft} (hx : x.Named) : ∃ s, IsName s ∧ ∃ more,
    x.kind.text.toList = s.toList ++ more := by
  cases hkind : x.kind with
  | conditional => exact ⟨"if", isName_if, [], rfl⟩
  | raise => exact ⟨"raise", isName_raise, [], rfl⟩
  | op op =>
    have hnamed := hx.kind
    rw [hkind] at hnamed
    refine ⟨op.dialect, hnamed.1, '.' :: op.name.toList, ?_⟩
    rw [Kind.text, Operator.text, String.toList_append, String.toList_append, List.append_assoc]
    rfl

/-- The blocks are read back. -/
def ReadsArms (block : Reader (BlockDraft × BodyDraft)) (indent : Nat) : ArmsDraft → Prop
  | .done => True
  | .arm head body rest => ReadsBlock block indent head body ∧ ReadsArms block indent rest

/-- A node and its arms, without its results. -/
theorem exists_reads_head {x : NodeDraft} {arms : ArmsDraft} (hx : x.Named) (hfinite : x.Finite)
    (hattributes : (attributesPart x.attributes).toList.length ≤ depth)
    (htypes : (annotationText x.types).toList.length ≤ depth)
    (hshape : if x.kind = .conditional then arms.heads.length = 2 else arms.heads = [])
    (harms : ReadsArms block indent arms) (hafter : Blank after) (hrest : startsItem rest = true)
    (hend : isApart (after ++ rest) = true) : ∃ skipped, Blank skipped ∧
    Reads (opNode depth <|> conditional depth block <|> raiseNode depth) (x.kind.text.toList ++ '(' ::
      ((mentionsText x.operands).toList ++ ')' :: ((attributesPart x.attributes).toList ++
        ((annotationText x.types).toList ++ armsText indent (after ++ rest) " " arms))))
      (skipped ++ rest) fun item => item.1.bare = { x.bare with results := [] } ∧
        item.2.map NodeDraft.bare BlockDraft.bare = arms.map NodeDraft.bare BlockDraft.bare := by
  -- Only the reader for this kind of node takes the text; those before it refuse the name.
  rcases arms_cases hshape with ⟨hkind, rfl⟩ | ⟨hkind, first, firstBody, second, secondBody, rfl⟩
  · cases hkind' : x.kind with
    | conditional => exact absurd hkind' hkind
    | op op =>
      obtain ⟨skipped, hskipped, hread⟩ := exists_reads_opNode hkind' hx hfinite hattributes htypes
        hafter hrest hend
      rw [hkind'] at hread
      refine ⟨skipped, hskipped, (hread.orElse _).mono fun item hitem => ⟨hitem.1, ?_⟩⟩
      rw [hitem.2]
    | raise =>
      have hread := reads_raiseNode hkind' hx hfinite hattributes hafter hrest
      rw [hkind'] at hread
      rw [hx.raise hkind']
      refine ⟨after, hafter, ?_⟩
      refine (refuses_opNode isName_raise rfl rfl).orElse_reads ?_
      refine Refuses.orElse_reads ?_ (hread.mono fun item hitem => ⟨hitem.1, by rw [hitem.2]⟩)
      exact Refuses.bind (Refuses.bind (refuses_word (not_prefix_of_stops (c := 'i') rfl rfl)) _) _
  · have hread := reads_conditional (after ++ rest) hkind hx htypes harms.1 harms.2.1
    refine ⟨after, hafter, ?_⟩
    rw [hkind] at hread ⊢
    rw [hx.conditional hkind]
    exact (refuses_opNode isName_if rfl rfl).orElse_reads (hread.orElse _)

/-- Up to its kind a node is read whatever follows. -/
theorem exists_reads_lead {x : NodeDraft} (hx : x.Named) (text : List Char) :
    isSolid (x.kind.text.toList ++ text) = true ∧ ∃ skipped, Blank skipped ∧
      (optional results).Reads ((resultsText x.results).toList ++ (x.kind.text.toList ++ text))
        (skipped ++ (x.kind.text.toList ++ text))
        fun o => (o.getD []).map Mention.bare = x.results.map Mention.bare := by
  obtain ⟨s, hs, more, hmore⟩ := isName_kind hx
  rw [hmore, List.append_assoc]
  exact ⟨isSolid_name hs _, exists_reads_results hx.results (isSolid_name hs _) (stops_name hs _ rfl)⟩

/-- A node, its results and its arms. -/
theorem exists_reads_node {x : NodeDraft} {arms : ArmsDraft} (hx : x.Named) (hfinite : x.Finite)
    (hdepth : x.text.toList.length ≤ depth)
    (hshape : if x.kind = .conditional then arms.heads.length = 2 else arms.heads = [])
    (harms : ReadsArms block indent arms) (hafter : Blank after) (hrest : startsItem rest = true)
    (hend : isApart (after ++ rest) = true) : ∃ skipped, Blank skipped ∧
    (node depth block).Reads (x.text.toList ++ armsText indent (after ++ rest) " " arms)
      (skipped ++ rest) fun item => item.1.bare = x.bare ∧
        item.2.map NodeDraft.bare BlockDraft.bare = arms.map NodeDraft.bare BlockDraft.bare := by
  rw [NodeDraft.toList_text] at hdepth ⊢
  simp only [List.length_append, List.length_cons] at hdepth
  -- The parts of a node are shorter than its text.
  have hattributes : (attributesPart x.attributes).toList.length ≤ depth := by omega
  have htypes : (annotationText x.types).toList.length ≤ depth := by omega
  obtain ⟨skipped, hskipped, hhead⟩ := exists_reads_head hx hfinite hattributes htypes hshape harms
    hafter hrest hend
  obtain ⟨hsolid, blank, hblank, hresults⟩ := exists_reads_lead hx
    ('(' :: ((mentionsText x.operands).toList ++ ')' :: ((attributesPart x.attributes).toList ++
      ((annotationText x.types).toList ++ armsText indent (after ++ rest) " " arms))))
  refine ⟨skipped, hskipped, ?_⟩
  simp only [List.append_assoc, List.cons_append]
  refine hresults.bind fun results hresults => ?_
  refine (reads_blanks hblank hsolid).bind fun _ _ => hhead.bind fun ⟨head, arms'⟩ h => ?_
  refine reads_pure ⟨?_, h.2⟩
  have hbare := h.1
  simp only [NodeDraft.bare, NodeDraft.mk.injEq] at hbare ⊢
  exact ⟨hresults, hbare.2⟩

end Block

end Reader

/-! ### Blocks -/

/-- Nodes that are read back: they follow the grammar, conditionals have two arms and other nodes none,
and floats are finite. -/
structure BodyDraft.Writable (body : BodyDraft) : Prop where
  named : BodyDraft.Named body
  proper : body.Proper NodeDraft.kind
  finite : ∀ x ∈ body.nodes, x.Finite

@[inherit_doc BodyDraft.Writable]
structure ArmsDraft.Writable (arms : ArmsDraft) : Prop where
  named : ArmsDraft.Named arms
  proper : arms.Proper NodeDraft.kind
  finite : ∀ x ∈ arms.nodes, x.Finite

theorem BodyDraft.Writable.node {head : NodeDraft} {arms : ArmsDraft} {rest : BodyDraft}
    (h : BodyDraft.Writable (.node head arms rest)) :
    (head.Named ∧ head.Finite ∧ if head.kind = .conditional then arms.heads.length = 2
      else arms.heads = []) ∧ ArmsDraft.Writable arms ∧ BodyDraft.Writable rest := by
  obtain ⟨hnamed, hproper, hfinite⟩ := h
  obtain ⟨hhead, harms, hrest⟩ := BodyDraft.named_node.1 hnamed
  rw [Body.nodes, List.forall_mem_cons, List.forall_mem_append] at hfinite
  exact ⟨⟨hhead, hfinite.1, hproper.1⟩, ⟨harms, hproper.2.1, hfinite.2.1⟩,
    hrest, hproper.2.2, hfinite.2.2⟩

theorem ArmsDraft.Writable.arm {head : BlockDraft} {body : BodyDraft} {rest : ArmsDraft}
    (h : ArmsDraft.Writable (.arm head body rest)) :
    head.Named ∧ BodyDraft.Writable body ∧ ArmsDraft.Writable rest := by
  obtain ⟨hnamed, hproper, hfinite⟩ := h
  obtain ⟨hhead, hbody, hrest⟩ := ArmsDraft.named_arm.1 hnamed
  rw [Arms.nodes, List.forall_mem_append] at hfinite
  exact ⟨hhead, ⟨hbody, hproper.1, hfinite.1⟩, hrest, hproper.2, hfinite.2⟩

theorem blockText_append (indent : Nat) (head : BlockDraft) (body : BodyDraft)
    (more more' : List Char) :
    blockText indent head body more ++ more' = blockText indent head body (more ++ more') := by
  rw [blockText, blockText, restText, restText]
  simp only [List.append_assoc, List.cons_append]

/-- What stands in a block from its first node on, without the blanks before it. -/
def itemsText (indent : Nat) : BodyDraft → List Mention → List Char → List Char
  | .done, [], more => '\x7d' :: more
  | .done, m :: ms, more => "return".toList ++ ([' '] ++ ((mentionsText (m :: ms)).toList ++
      ('\n' :: (indentation indent).toList ++ '\x7d' :: more)))
  | .node head arms rest, returns, more => head.text.toList ++
      armsText (indent + 2) ('\n' :: restText indent rest returns more) " " arms

theorem itemsText_node (indent : Nat) (head : NodeDraft) (arms : ArmsDraft) (rest : BodyDraft)
    (returns : List Mention) (more : List Char) :
    itemsText indent (.node head arms rest) returns more = head.text.toList ++
      armsText (indent + 2) ('\n' :: restText indent rest returns more) " " arms := rfl

/-- Before the next line of a block there is only its indentation. -/
theorem exists_restText (indent : Nat) (body : BodyDraft) (returns : List Mention)
    (more : List Char) : ∃ skipped, Reader.Blank skipped ∧
      restText indent body returns more = skipped ++ itemsText indent body returns more := by
  cases body with
  | done =>
    cases returns with
    | nil => exact ⟨_, Reader.blank_indentation indent, restText_done indent more⟩
    | cons m ms => exact ⟨_, Reader.blank_indentation (indent + 2), restText_returns indent m ms more⟩
  | node head arms rest =>
    exact ⟨_, Reader.blank_indentation (indent + 2), restText_node indent head arms rest returns more⟩

/-- A node starts with a value or a name. -/
theorem NodeDraft.exists_text_cons {x : NodeDraft} (hx : x.Named) : ∃ c cs, x.text.toList = c :: cs ∧
    (c = '%' ∨ isNameStart c = true) := by
  rw [NodeDraft.toList_text]
  cases hresults : x.results with
  | nil =>
    obtain ⟨s, ⟨first, rest, hs, hfirst, -⟩, text, htext⟩ := Reader.isName_kind hx
    rw [htext, hs]
    exact ⟨first, _, rfl, Or.inr hfirst⟩
  | cons m ms =>
    rw [Reader.resultsText, if_neg (by simp), String.toList_append, mentionsText, List.map_cons,
      toList_commaSeparated_cons, Mention.text, String.toList_append]
    exact ⟨'%', _, rfl, Or.inl rfl⟩

/-- The lines of a block begin with a node, with `return` or with the closing brace. -/
theorem startsItem_itemsText (indent : Nat) {body : BodyDraft} (hbody : BodyDraft.Named body)
    (returns : List Mention) (more : List Char) :
    Reader.startsItem (itemsText indent body returns more) = true := by
  cases body with
  | done =>
    cases returns with
    | nil => rfl
    | cons m ms => exact Reader.startsItem_name Reader.isName_return _
  | node head arms rest =>
    obtain ⟨c, cs, htext, hc⟩ := NodeDraft.exists_text_cons (BodyDraft.named_node.1 hbody).1
    rw [itemsText_node, htext, List.cons_append, Reader.startsItem]
    rcases hc with rfl | hc
    · rfl
    · rw [hc, Bool.or_true]

namespace Reader

variable {depth nesting indent : Nat} {block : Reader (BlockDraft × BodyDraft)} {more : List Char}

/-- Blocks are read back if their text is short enough. -/
theorem readsArms_of_length (hblock : ∀ {head : BlockDraft} {body : BodyDraft}, head.Named →
      BodyDraft.Writable body → (blockText indent head body []).length ≤ nesting →
      ReadsBlock block indent head body) :
    ∀ (lead : String) {arms : ArmsDraft}, ArmsDraft.Writable arms →
    (armsText indent [] lead arms).length ≤ nesting → ReadsArms block indent arms
  | _, .done, _, _ => trivial
  | lead, .arm head body rest, harms, hlength => by
    obtain ⟨hhead, hbody, hrest⟩ := harms.arm
    have hsplit := blockText_append indent head body [] (armsText indent [] " else " rest)
    rw [List.nil_append] at hsplit
    rw [armsText, ← hsplit, List.length_append, List.length_append] at hlength
    exact ⟨hblock hhead hbody (by omega), readsArms_of_length hblock " else " hrest (by omega)⟩

/-- A return is no node. -/
theorem refuses_node_return (block : Reader (BlockDraft × BodyDraft)) (text : List Char) :
    (node depth block).Refuses ("return".toList ++ ' ' :: text) := by
  have hresults : results.Refuses ("return".toList ++ ' ' :: text) :=
    Refuses.bind (Refuses.bind ((refuses_mention rfl).padded blank_nil rfl) _) _
  refine hresults.optional.bind_refuses fun _ _ => (reads_no_blanks rfl).bind_refuses fun _ _ => ?_
  refine Refuses.bind ((refuses_opNode isName_return rfl rfl).orElse (Refuses.orElse ?_ ?_)) _
  · exact Refuses.bind (Refuses.bind (refuses_word (not_prefix_of_stops (c := 'i') rfl rfl)) _) _
  · -- both words start with the same letter
    have hraise : ¬"raise".toList <+: "return".toList ++ ' ' :: text := fun h => by
      have := (List.cons_prefix_cons.1 (List.cons_prefix_cons.1 h).2).1
      exact absurd this (by decide)
    exact Refuses.bind (Refuses.bind (refuses_word hraise) _) _

theorem reads_nextIs (c : Char) (text : List Char) :
    (nextIs c).Reads text text fun a => a = decide (text.head? = some c) :=
  fun offset => ⟨_, offset, rfl, rfl⟩

/-- A node does not start with a closing brace. -/
theorem reads_nextIs_node {head : NodeDraft} (hhead : head.Named) {arms : ArmsDraft}
    {rest : BodyDraft} {returns : List Mention} :
    (nextIs '\x7d').Reads (itemsText indent (.node head arms rest) returns more)
      (itemsText indent (.node head arms rest) returns more) fun a => a = false := by
  refine (reads_nextIs '\x7d' _).mono fun a ha => ?_
  obtain ⟨c, cs, htext, hc⟩ := NodeDraft.exists_text_cons hhead
  rw [ha, itemsText_node, htext]
  refine decide_eq_false fun heq => ?_
  obtain rfl : c = '\x7d' := Option.some.inj heq
  rcases hc with hc | hc
  · exact absurd hc (by decide)
  · exact Bool.false_ne_true hc

/-- A return and what it returns, up to the end of the block. -/
theorem reads_return {m : Mention} {ms : List Mention} (h : ∀ m' ∈ m :: ms, IsValueName m'.name) :
    (item depth block).Reads (itemsText indent .done (m :: ms) more) ('\x7d' :: more) fun a =>
      ∃ values, a = .returns values ∧ values.map Mention.bare = (m :: ms).map Mention.bare := by
  have hblank : Blank ('\n' :: (indentation indent).toList) :=
    blank_cons rfl (blank_indentation indent)
  have hitems : (separated1 (padded mention)).Reads ([' '] ++ ((mentionsText (m :: ms)).toList ++
      ('\n' :: (indentation indent).toList ++ '\x7d' :: more))) ('\x7d' :: more)
      fun as => as.map Mention.bare = (m :: ms).map Mention.bare :=
    reads_separated1_padded hblank rfl rfl rfl (blank_cons rfl blank_nil)
      fun m' hm' => readsBack_mention (h m' hm')
  refine (Refuses.bind (refuses_node_return block _) _).orElse_reads ?_
  refine (reads_word "return").bind fun _ _ => ?_
  have hmentions : mentions.Reads ([' '] ++ ((mentionsText (m :: ms)).toList ++
      ('\n' :: (indentation indent).toList ++ '\x7d' :: more))) ('\x7d' :: more)
      fun as => as.map Mention.bare = (m :: ms).map Mention.bare := by
    refine hitems.optional.bind fun o ho => ?_
    obtain ⟨as, rfl, has⟩ := ho
    exact reads_pure has
  exact hmentions.bind fun values hvalues => reads_pure ⟨values, rfl, hvalues⟩

section Items

variable {returns : List Mention} (hblock : ∀ {head : BlockDraft} {body : BodyDraft}, head.Named →
    BodyDraft.Writable body → (blockText (indent + 2) head body []).length ≤ nesting →
    ReadsBlock block (indent + 2) head body) (hreturns : ∀ m ∈ returns, IsValueName m.name)
include hblock hreturns

/-- The items of a block up to its closing brace.  One more item is read for every node, and then the
return or the brace. -/
theorem reads_items : ∀ {body : BodyDraft} {budget before : List Char}, BodyDraft.Writable body →
    body.heads.length < budget.length →
    (linesText (bodyLines (indent + 2) body)).length ≤ depth →
    (linesText (bodyLines (indent + 2) body)).length ≤ nesting → Blank before →
    (items (item depth block) budget).Reads (before ++ itemsText indent body returns more)
      ('\x7d' :: more) fun b =>
        b.1.map NodeDraft.bare BlockDraft.bare = body.map NodeDraft.bare BlockDraft.bare ∧
          b.2.map Mention.bare = returns.map Mention.bare
  | .done, _ :: budget, before, _, _, _, _, hbefore => by
    cases returns with
    | nil =>
      refine (reads_blanks hbefore rfl).bind fun _ _ => (reads_nextIs '\x7d' _).bind fun a ha => ?_
      obtain rfl : a = true := ha
      exact reads_pure ⟨rfl, rfl⟩
    | cons m ms =>
      refine (reads_blanks hbefore rfl).bind fun _ _ => (reads_nextIs '\x7d' _).bind fun a ha => ?_
      obtain rfl : a = false := ha
      refine (reads_return hreturns).bind fun item hitem => ?_
      obtain ⟨values, rfl, hvalues⟩ := hitem
      exact (reads_no_blanks rfl).bind fun _ _ => reads_pure ⟨rfl, hvalues⟩
  | .node head arms rest, _ :: budget, before, hbody, hbudget, hdepth, hnesting, hbefore => by
    obtain ⟨⟨hhead, hfinite, hshape⟩, harms, hrest⟩ := hbody.node
    -- After the node come a line break and the indentation of what follows.
    obtain ⟨skipped, hskipped, hsplit⟩ := exists_restText indent rest returns more
    have hsolid := isSolid_of_startsItem (startsItem_itemsText indent hbody.named returns more)
    rw [length_linesText_node] at hdepth hnesting
    have hheadDepth : head.text.toList.length ≤ depth := by omega
    have hreadsArms := readsArms_of_length hblock " " harms (by omega)
    obtain ⟨blank, hblank, hnode⟩ := exists_reads_node hhead hfinite hheadDepth hshape hreadsArms
      (blank_cons (c := '\n') rfl hskipped) (startsItem_itemsText indent hrest.named returns more) rfl
    simp only [List.cons_append, ← hsplit] at hnode
    refine (reads_blanks hbefore hsolid).bind fun _ _ => (reads_nextIs_node hhead).bind fun a ha => ?_
    subst ha
    have hitem : (item depth block).Reads (itemsText indent (.node head arms rest) returns more)
        (blank ++ itemsText indent rest returns more) fun a => ∃ x, a = .node x ∧
          x.1.bare = head.bare ∧ x.2.map NodeDraft.bare BlockDraft.bare =
            arms.map NodeDraft.bare BlockDraft.bare :=
      Reads.orElse (hnode.bind fun x hx => reads_pure ⟨x, rfl, hx⟩) _
    -- One unit of the budget went to this node, and the rest is enough for the others.
    refine hitem.bind fun a ha => ?_
    obtain ⟨⟨head', arms'⟩, rfl, hhead', harms'⟩ := ha
    refine (reads_items hrest (Nat.lt_of_succ_lt_succ hbudget) (by omega) (by omega)
      hblank).bind fun b hb => ?_
    refine reads_pure ⟨?_, hb.2⟩
    rw [Body.map, Body.map, hhead', harms', hb.1]

end Items

/-- There are fewer items in a block than characters. -/
theorem length_heads_lt (indent : Nat) (returns : List Mention) (more : List Char) :
    ∀ {body : BodyDraft}, BodyDraft.Named body →
    body.heads.length < (itemsText indent body returns more).length
  | .done, _ => by
    cases returns <;> exact Nat.succ_pos _
  | .node head arms rest, h => by
    obtain ⟨hhead, -, hrest⟩ := BodyDraft.named_node.1 h
    obtain ⟨c, cs, htext, -⟩ := NodeDraft.exists_text_cons hhead
    obtain ⟨skipped, -, hsplit⟩ := exists_restText indent rest returns more
    have ih := length_heads_lt indent returns more hrest
    have harms := armsText_append (indent + 2) [] ('\n' :: restText indent rest returns more) " " arms
    rw [List.nil_append] at harms
    rw [itemsText_node, ← harms, htext, hsplit, Body.heads]
    simp only [List.length_append, List.length_cons]
    omega

/-- The parameters of a block, and the blanks around them. -/
theorem exists_reads_paramsPart {ps : List (Mention × TypeTree)} (h : NamedParams ps)
    (hdepth : (paramsPart ps).toList.length ≤ depth) {skipped text : List Char}
    (hskipped : Blank skipped) (htext : startsItem text = true) : ∃ middle before, Blank before ∧
    (blanks.Reads ((paramsPart ps).toList ++ '\n' :: (skipped ++ text)) middle fun _ => True) ∧
      (optional (do char '^'; params depth)).Reads middle (before ++ text)
        fun o => bareParams (o.getD []) = bareParams ps := by
  have hline : Blank ('\n' :: skipped) := blank_cons rfl hskipped
  cases ps with
  | nil =>
    -- The first item of a block does not begin with the sign that parameters begin with.
    have hcaret : stops (· = '^') text = true :=
      stops_of_startsItem htext (by decide) (by decide) rfl
    refine ⟨text, [], blank_nil, reads_blanks hline (isSolid_of_startsItem htext), ?_⟩
    refine (Refuses.optional ((refuses_char hcaret).bind _)).mono fun o ho => ?_
    rw [ho]
    rfl
  | cons p ps =>
    have hsplit : (paramsPart (p :: ps)).toList = ' ' :: '^' :: '(' ::
        ((paramsText (p :: ps)).toList ++ [')']) := by
      rw [paramsPart, if_neg (by simp), String.toList_append, String.toList_append, List.append_assoc]
      rfl
    have hshort : (paramsText (p :: ps)).toList.length ≤ depth := by
      rw [hsplit] at hdepth
      simp only [List.length_cons, List.length_append] at hdepth
      omega
    have hread : Reads (do char '^'; params depth)
        ('^' :: '(' :: ((paramsText (p :: ps)).toList ++ ')' :: '\n' :: (skipped ++ text)))
        ('\n' :: (skipped ++ text)) fun as => bareParams as = bareParams (p :: ps) :=
      (reads_char '^').bind fun _ _ => reads_params h hshort
    rw [hsplit]
    simp only [List.cons_append, List.append_assoc, List.nil_append]
    refine ⟨_, '\n' :: skipped, hline, reads_space rfl, hread.optional.mono ?_⟩
    rintro o ⟨as, rfl, has⟩
    exact has

/-- A block is longer than its parameters and its lines together. -/
theorem length_lt_blockText (indent : Nat) (head : BlockDraft) (body : BodyDraft) :
    (linesText (bodyLines (indent + 2) body)).length + (paramsPart head.params).toList.length + 2 ≤
      (blockText indent head body []).length := by
  rw [blockText, restText]
  simp only [List.length_append, List.length_cons]
  omega

/-- A block is read back if its text is no longer than blocks may nest. -/
theorem readsBlock {depth : Nat} : ∀ {nesting indent : Nat} {head : BlockDraft} {body : BodyDraft},
    nesting ≤ depth → head.Named → BodyDraft.Writable body →
    (blockText indent head body []).length ≤ nesting →
    ReadsBlock (Reader.block depth nesting) indent head body
  | 0, _, _, _, _, _, _, hlength => absurd hlength (Nat.not_succ_le_zero _)
  | nesting + 1, indent, head, body, hnesting, hhead, hbody, hlength => by
    intro more
    obtain ⟨skipped, hskipped, hsplit⟩ := exists_restText indent body head.returns more
    have hstart := startsItem_itemsText indent hbody.named head.returns more
    have hparts := length_lt_blockText indent head body
    -- The budget is the text that is left, which is longer than the block has items.
    have hitems : ∀ {before : List Char}, Blank before →
        Reads (fun cursor => items (item depth (Reader.block depth nesting)) cursor.rest cursor)
          (before ++ itemsText indent body head.returns more) ('\x7d' :: more) fun b =>
            b.1.map NodeDraft.bare BlockDraft.bare = body.map NodeDraft.bare BlockDraft.bare ∧
              b.2.map Mention.bare = head.returns.map Mention.bare := by
      intro before hbefore offset
      have hcount := length_heads_lt indent head.returns more hbody.named
      have hbudget : body.heads.length < (before ++ itemsText indent body head.returns more).length := by
        rw [List.length_append]
        omega
      exact reads_items (fun h₁ h₂ h₃ => readsBlock (by omega) h₁ h₂ h₃) hhead.returns hbody hbudget
        (by omega) (by omega) hbefore offset
    have hroom : (paramsPart head.params).toList.length ≤ depth := by omega
    obtain ⟨middle, before, hbefore, hblanks, hparams⟩ :=
      exists_reads_paramsPart hhead.params hroom hskipped hstart
    rw [blockText, hsplit]
    refine (reads_char '\x7b').bind fun _ _ => hblanks.bind fun _ _ => ?_
    refine hparams.bind fun params hparams => (hitems hbefore).bind fun ⟨body', returns⟩ hbody' => ?_
    refine (reads_char '\x7d').bind fun _ _ => reads_pure ⟨?_, hbody'.1⟩
    rw [BlockDraft.bare, BlockDraft.bare, hparams, hbody'.2]

/-- A graph is read back from its text. -/
theorem reads_graph {draft : GraphDraft} (hparams : NamedParams draft.params)
    (hreturns : ∀ m ∈ draft.block.returns, IsValueName m.name)
    (hblock : draft.block.params = []) (hbody : BodyDraft.Writable draft.body)
    (hdepth : draft.text.toList.length ≤ depth) :
    (graph depth).Reads draft.text.toList [] fun a => a.bare = draft.bare := by
  rw [GraphDraft.toList_text] at hdepth ⊢
  have hlength := congrArg List.length
    (blockText_append 0 ⟨[], draft.block.returns⟩ draft.body [] ['\n'])
  simp only [List.length_append, List.length_cons, List.nil_append] at hdepth hlength
  -- The text ends with a line break, which the padding takes.
  have hend : Blank ['\n'] := blank_cons rfl blank_nil
  rw [← List.nil_append ("graph".toList ++ _)]
  refine Reads.padded blank_nil rfl ?_ hend rfl
  have hkeyword : (keyword "graph").Reads ("graph".toList ++ '(' ::
      ((paramsText draft.params).toList ++ ')' :: ' ' ::
        blockText 0 ⟨[], draft.block.returns⟩ draft.body ['\n'])) _ fun _ => True :=
    (reads_word "graph").bind fun _ _ => reads_no_blanks rfl
  refine hkeyword.bind fun _ _ => (reads_params hparams (by omega)).bind fun ps hps => ?_
  refine (reads_space rfl).bind fun _ _ => ?_
  have hread : ReadsBlock (Reader.block depth depth) 0 ⟨[], draft.block.returns⟩ draft.body :=
    readsBlock (Nat.le_refl depth) ⟨List.forall_mem_nil _, hreturns⟩ hbody (by omega)
  refine (hread ['\n']).bind fun read hsame => reads_pure ?_
  obtain ⟨block, body⟩ := read
  obtain ⟨hhead, hbody'⟩ := hsame
  rw [GraphDraft.bare, GraphDraft.bare, hps]
  dsimp only at hhead hbody' ⊢
  rw [hhead, hbody', BlockDraft.bare, BlockDraft.bare, hblock]

end Reader

/-- A draft that follows the grammar is read back from its text, places in the text apart. -/
theorem GraphDraft.exists_ofText {draft : GraphDraft} (hnamed : draft.Named)
    (hblock : draft.block.params = []) (hproper : draft.body.Proper NodeDraft.kind)
    (hfinite : ∀ x ∈ draft.body.nodes, x.Finite) :
    ∃ draft', GraphDraft.ofText draft.text = .ok draft' ∧ draft'.bare = draft.bare := by
  have hlength : draft.text.toList.length ≤ draft.text.toList.length + 1 := Nat.le_succ _
  obtain ⟨draft', next, hread, hbare⟩ := Reader.reads_graph hnamed.params hnamed.returns hblock
    ⟨hnamed.body, hproper, hfinite⟩ hlength 0
  refine ⟨draft', ?_, hbare⟩
  rw [GraphDraft.ofText, Cursor.ofString]
  dsimp only
  rw [hread]
  rfl

end Text

end Unguard
