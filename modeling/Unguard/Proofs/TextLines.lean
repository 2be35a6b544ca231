import Unguard.Proofs.ReadingBack

/-!
# The lines of a text

No line of a text has a break in it, whatever strings the attributes hold, since a break in quotes is
written as an escape (`GraphDraft.unbroken_lines`).  So the lines can be told from the text
(`textLines_joinLines`).

Every node begins one line.  What stands first in a line tells whether it is one of these lines
(`writesNode`): the other lines open the graph, close a block or return values.  So a text has as many
such lines as its draft has nodes (`GraphDraft.countP_writesNode`).
-/

namespace Unguard

open Text

namespace Text

/-! ### Breaks -/

/-- The lines of a text in which also the last line is ended, without their ends. -/
def textLines (text : String) : List String :=
  (text.toList.splitOn '\n').dropLast.map String.ofList

/-- The text stays within a line. -/
def Unbroken (text : String) : Prop :=
  '\n' ∉ text.toList

instance (text : String) : Decidable (Unbroken text) :=
  inferInstanceAs (Decidable ('\n' ∉ text.toList))

/-- Lines without breaks are found again in the text that they make up. -/
theorem textLines_joinLines {lines : List String} (h : ∀ line ∈ lines, Unbroken line) :
    textLines (joinLines lines) = lines := by
  have hsplit : (linesText lines).splitOn '\n' = lines.map String.toList ++ [[]] := by
    induction lines with
    | nil => rfl
    | cons line lines ih =>
      obtain ⟨hline, hlines⟩ := List.forall_mem_cons.1 h
      have hbefore : ∀ c ∈ line.toList, (c == '\n') = false := fun c hc =>
        beq_false_of_ne fun heq => hline (heq ▸ hc)
      rw [List.splitOn] at ih ⊢
      rw [linesText_cons, List.splitOnP_append_cons_of_forall_mem hbefore _ rfl, ih hlines]
      rfl
  have htext : (joinLines lines).toList = linesText lines := rfl
  rw [textLines, htext, hsplit, List.dropLast_concat, List.map_map]
  exact List.map_id'' (fun line => String.ofList_toList) lines

section Unbroken

variable {a b : String}

theorem unbroken_append : Unbroken (a ++ b) ↔ Unbroken a ∧ Unbroken b := by
  rw [Unbroken, String.toList_append, List.mem_append, not_or]
  rfl

theorem Unbroken.append (ha : Unbroken a) (hb : Unbroken b) : Unbroken (a ++ b) :=
  unbroken_append.2 ⟨ha, hb⟩

/-- A line break is no part of a name. -/
theorem unbroken_of_isNamePart (h : ∀ c ∈ a.toList, isNamePart c = true) : Unbroken a :=
  fun hbreak => absurd (h _ hbreak) (by decide)

theorem unbroken_name (h : IsName a) : Unbroken a :=
  unbroken_of_isNamePart h.isNamePart

theorem unbroken_indentation (indent : Nat) : Unbroken (indentation indent) := by
  rw [Unbroken, toList_indentation]
  exact fun h => absurd (List.eq_of_mem_replicate h) (by decide)

/-- Commas and spaces do not break a line. -/
theorem unbroken_commaSeparated {texts : List String} (h : ∀ text ∈ texts, Unbroken text) :
    Unbroken (commaSeparated texts) := by
  cases texts with
  | nil => exact List.not_mem_nil
  | cons text texts =>
    rw [List.forall_mem_cons] at h
    rw [Unbroken, toList_commaSeparated_cons, List.mem_append, List.mem_flatMap]
    rintro (hbreak | ⟨other, hother, hbreak⟩)
    · exact h.1 hbreak
    · simp only [List.mem_cons, Char.reduceEq, false_or] at hbreak
      exact h.2 other hother hbreak

end Unbroken

/-! ### Types and constants -/

mutual

/-- Types are made of names and signs. -/
theorem unbroken_type : ∀ {ty : TypeTree}, ty.Writable → Unbroken ty.text
  | .mk dialect name [], ⟨hdialect, hname, _⟩ => by
    rw [TypeTree.text]
    exact ((unbroken_name hdialect).append (by decide)).append (unbroken_name hname)
  | .mk dialect name (ty :: tys), ⟨hdialect, hname, hparams⟩ => by
    have hhead := ((unbroken_name hdialect).append (b := ".") (by decide)).append
      (unbroken_name hname)
    rw [TypeTree.text, TypeTree.texts_eq_map]
    exact ((hhead.append (by decide)).append (unbroken_commaSeparated
      (List.forall_mem_map.2 (unbroken_types hparams)))).append (by decide)

theorem unbroken_types : ∀ {tys : List TypeTree}, TypeTree.AllWritable tys →
    ∀ ty ∈ tys, Unbroken ty.text
  | [], _ => List.forall_mem_nil _
  | _ :: _, ⟨hty, htys⟩ => List.forall_mem_cons.2 ⟨unbroken_type hty, unbroken_types htys⟩

end

/-- A break in quotes is written as an escape. -/
theorem unbroken_quote (s : String) : Unbroken (quote s) := by
  have hescape : ∀ c, '\n' ∉ escape c := by
    intro c
    rw [escape]
    split_ifs with hbackslash hquote hbreak htab
    · decide
    · decide
    · decide
    · decide
    · rw [List.mem_singleton]
      exact fun h => hbreak h.symm
  have hinside : Unbroken (String.ofList (s.toList.flatMap escape)) := by
    rw [Unbroken, String.toList_ofList, List.mem_flatMap]
    rintro ⟨c, -, hc⟩
    exact hescape c hc
  exact (Unbroken.append (by decide) hinside).append (by decide)

theorem unbroken_int (bits : UInt64) : Unbroken (signedText bits) := by
  rw [signedText]
  split
  · exact unbroken_of_isNamePart (isValueName_repr _).2
  · exact Unbroken.append (by decide) (unbroken_of_isNamePart (isValueName_repr _).2)

/-- A float is written in digits, or it is one of three words. -/
theorem unbroken_float (bits : UInt64) : Unbroken (Binary64.text bits) := by
  by_cases h : Binary64.IsFinite bits
  · obtain ⟨whole, fraction, htext, ⟨-, hwhole⟩, ⟨-, hfraction⟩, -⟩ := Binary64.exists_text h
    have hsign : '\n' ∉ if Binary64.isNegative bits then ['-'] else [] := by
      split <;> decide
    rw [Unbroken, htext, List.mem_append, List.mem_append, List.mem_cons]
    rintro (hbreak | hbreak | hbreak | hbreak)
    · exact hsign hbreak
    · exact absurd (hwhole _ hbreak) (by decide)
    · exact absurd hbreak (by decide)
    · exact absurd (hfraction _ hbreak) (by decide)
  · rcases Binary64.text_of_not_isFinite h with htext | htext | htext <;> rw [htext] <;> decide

mutual

/-- No constant breaks a line: a list is made of its items, commas and brackets. -/
theorem unbroken_literal : ∀ {l : Literal}, (∀ ty ∈ l.types, ty.Writable) → Unbroken l.text
  | .unit, _ => by decide
  | .bool true, _ => by decide
  | .bool false, _ => by decide
  | .int bits, _ => unbroken_int bits
  | .float bits, _ => unbroken_float bits
  | .string s, _ => unbroken_quote s
  | .type _, h => unbroken_type (h _ List.mem_cons_self)
  | .list items, h => by
    rw [Literal.text, Literal.texts_eq_map]
    exact (Unbroken.append (by decide) (unbroken_commaSeparated
      (List.forall_mem_map.2 (unbroken_literals h)))).append (by decide)

theorem unbroken_literals : ∀ {items : List Literal}, (∀ ty ∈ Literal.allTypes items, ty.Writable) →
    ∀ l ∈ items, Unbroken l.text
  | [], _ => List.forall_mem_nil _
  | _ :: _, h => by
    obtain ⟨hitem, hitems⟩ := List.forall_mem_append.1 h
    exact List.forall_mem_cons.2 ⟨unbroken_literal hitem, unbroken_literals hitems⟩

end

/-! ### Nodes and blocks -/

theorem unbroken_mention {m : Mention} (h : IsValueName m.name) : Unbroken m.text :=
  Unbroken.append (by decide) (unbroken_of_isNamePart h.2)

theorem unbroken_mentions {ms : List Mention} (h : ∀ m ∈ ms, IsValueName m.name) :
    Unbroken (mentionsText ms) :=
  unbroken_commaSeparated (List.forall_mem_map.2 fun m hm => unbroken_mention (h m hm))

theorem unbroken_params {ps : List (Mention × TypeTree)} (h : NamedParams ps) :
    Unbroken (paramsText ps) := by
  refine unbroken_commaSeparated (List.forall_mem_map.2 fun p hp => ?_)
  exact ((unbroken_mention (h p hp).1).append (by decide)).append (unbroken_type (h p hp).2)

theorem unbroken_attributes {es : List (String × Literal)} (h : ∀ e ∈ es, IsName e.1 ∧ e.2.Named) :
    Unbroken (attributesText es) := by
  refine unbroken_commaSeparated (List.forall_mem_map.2 fun e he => ?_)
  exact ((unbroken_name (h e he).1).append (by decide)).append
    (unbroken_literal fun ty hty => ((h e he).2.types ty hty).1)

theorem unbroken_kind {k : Kind} (h : Kind.Named k) : Unbroken k.text := by
  cases k with
  | conditional => decide
  | raise => decide
  | op name => exact ((unbroken_name h.1).append (by decide)).append (unbroken_name h.2)

/-- A node takes one line up to its first arm. -/
theorem unbroken_node {x : NodeDraft} (h : x.Named) : Unbroken x.text := by
  have hresults : Unbroken (if x.results.isEmpty then "" else mentionsText x.results ++ " = ") := by
    split
    · decide
    · exact (unbroken_mentions h.results).append (by decide)
  have hattributes : Unbroken (if x.attributes.isEmpty then ""
      else " \x7b" ++ attributesText x.attributes ++ "\x7d") := by
    split
    · decide
    · exact (Unbroken.append (by decide) (unbroken_attributes h.attributes)).append (by decide)
  have htypes : Unbroken (if x.types.isEmpty then ""
      else " : " ++ commaSeparated (TypeTree.texts x.types)) := by
    split
    · decide
    · rw [TypeTree.texts_eq_map]
      exact Unbroken.append (by decide) (unbroken_commaSeparated
        (List.forall_mem_map.2 fun ty hty => unbroken_type (h.types ty hty)))
  have hkind := (hresults.append (unbroken_kind h.kind)).append (b := "(") (by decide)
  have hoperands := (hkind.append (unbroken_mentions h.operands)).append (b := ")") (by decide)
  exact (hoperands.append hattributes).append htypes

theorem unbroken_opening {lead : String} {head : BlockDraft} (hlead : Unbroken lead)
    (h : head.Named) : Unbroken (openingText lead head) := by
  refine (hlead.append (by decide)).append ?_
  split
  · decide
  · exact (Unbroken.append (by decide) (unbroken_params h.params)).append (by decide)

theorem unbroken_returnLines (indent : Nat) {returns : List Mention}
    (h : ∀ m ∈ returns, IsValueName m.name) :
    ∀ line ∈ returnLines indent returns, Unbroken line := by
  rw [returnLines]
  split
  · exact List.forall_mem_nil _
  · rw [List.forall_mem_singleton]
    exact ((unbroken_indentation indent).append (by decide)).append (unbroken_mentions h)

mutual

theorem unbroken_bodyLines : ∀ {body : BodyDraft} (indent : Nat), BodyDraft.Named body →
    ∀ line ∈ bodyLines indent body, Unbroken line
  | .done, _, _ => List.forall_mem_nil _
  | .node head arms rest, indent, h => by
    obtain ⟨hhead, harms, hrest⟩ := BodyDraft.named_node.1 h
    have hline := (unbroken_indentation indent).append (unbroken_node hhead)
    rw [bodyLines, List.forall_mem_append]
    exact ⟨unbroken_armsLines indent hline (by decide) harms, unbroken_bodyLines indent hrest⟩

/-- The line of the node and the lines that close an arm are continued, but not broken. -/
theorem unbroken_armsLines : ∀ {arms : ArmsDraft} (indent : Nat) {line lead : String},
    Unbroken line → Unbroken lead → ArmsDraft.Named arms →
    ∀ written ∈ armsLines indent line lead arms, Unbroken written
  | .done, _, _, _, hline, _, _ => List.forall_mem_singleton.2 hline
  | .arm head body rest, indent, line, lead, hline, hlead, h => by
    obtain ⟨hhead, hbody, hrest⟩ := ArmsDraft.named_arm.1 h
    have hclose := (unbroken_indentation indent).append (b := "\x7d") (by decide)
    rw [armsLines, List.forall_mem_cons, List.forall_mem_append, List.forall_mem_append]
    exact ⟨hline.append (unbroken_opening hlead hhead), ⟨unbroken_bodyLines _ hbody,
      unbroken_returnLines _ hhead.returns⟩, unbroken_armsLines indent hclose (by decide) hrest⟩

end

/-- The breaks in the text of a graph are the ends of its lines. -/
theorem GraphDraft.unbroken_lines {draft : GraphDraft} (h : draft.Named) :
    ∀ line ∈ draft.lines, Unbroken line := by
  rw [GraphDraft.lines, List.forall_mem_cons, List.forall_mem_append, List.forall_mem_append,
    List.forall_mem_singleton]
  exact ⟨(Unbroken.append (by decide) (unbroken_params h.params)).append (by decide),
    ⟨unbroken_bodyLines 2 h.body, unbroken_returnLines 2 h.returns⟩, by decide⟩

/-! ### Lines of nodes -/

/-- Letters, digits and underscores, and the point between two names. -/
def isWordPart (c : Char) : Bool :=
  isNamePart c || c = '.'

/-- Whether the word is the kind of a node.  Of all words in a text, operators alone have a point. -/
def isKindWord (word : List Char) : Bool :=
  word = "if".toList || word = "raise".toList || word.contains '.'

/-- Whether a line of a text writes a node: after its spaces comes the first value that the node defines,
or else the kind of the node. -/
def writesNode (line : String) : Bool :=
  let text := line.toList.dropWhile (· = ' ')
  text.head? = some '%' || isKindWord (text.takeWhile isWordPart)

/-- The spaces before a line do not matter. -/
theorem writesNode_indentation (indent : Nat) (line : String) :
    writesNode (indentation indent ++ line) = writesNode line := by
  rw [writesNode, writesNode, String.toList_append, toList_indentation,
    List.dropWhile_append_of_pos fun c hc => by simp [List.eq_of_mem_replicate hc]]

theorem writesNode_of_value {line : String} {rest : List Char} (h : line.toList = '%' :: rest) :
    writesNode line = true := by
  rw [writesNode, h]
  rfl

/-- A line that begins with a word is told by this word. -/
theorem writesNode_of_word {line : String} (word rest : List Char) (h : line.toList = word ++ rest)
    (hne : word ≠ []) (hword : ∀ c ∈ word, isWordPart c = true)
    (hrest : Reader.stops isWordPart rest = true) : writesNode line = isKindWord word := by
  have htake : rest.takeWhile isWordPart = [] := by
    cases rest with
    | nil => rfl
    | cons c rest =>
      rw [Reader.stops, Bool.not_eq_true'] at hrest
      rw [List.takeWhile_cons_of_neg (by rw [hrest]; decide)]
  obtain ⟨c, more, rfl⟩ := List.exists_cons_of_ne_nil hne
  -- A word begins neither with a space nor with a percent sign.
  have hspace : c ≠ ' ' := by
    rintro rfl
    exact absurd (hword ' ' List.mem_cons_self) (by decide)
  have hpercent : c ≠ '%' := by
    rintro rfl
    exact absurd (hword '%' List.mem_cons_self) (by decide)
  have hdrop : (c :: more ++ rest).dropWhile (· = ' ') = c :: more ++ rest :=
    List.dropWhile_cons_of_neg (by simpa using hspace)
  rw [writesNode, h, hdrop, List.takeWhile_append_of_pos hword, htake, List.append_nil]
  simp [hpercent]

theorem not_writesNode_closing (more : String) : writesNode ("\x7d" ++ more) = false := by
  rw [writesNode, String.toList_append]
  rfl

/-- The kind of a node is told from all other words. -/
theorem isKindWord_kind {k : Kind} (h : Kind.Named k) :
    k.text.toList ≠ [] ∧ (∀ c ∈ k.text.toList, isWordPart c = true) ∧
      isKindWord k.text.toList = true := by
  cases k with
  | conditional => exact ⟨by decide, List.all_eq_true.1 rfl, rfl⟩
  | raise => exact ⟨by decide, List.all_eq_true.1 rfl, rfl⟩
  | op name =>
    have htext : (Kind.op name).text.toList = name.dialect.toList ++ '.' :: name.name.toList := by
      rw [Kind.text, Operator.text, String.toList_append, String.toList_append, List.append_assoc]
      rfl
    rw [htext]
    refine ⟨by simp, ?_, ?_⟩
    · rw [List.forall_mem_append, List.forall_mem_cons]
      exact ⟨fun c hc => Bool.or_eq_true_iff.2 (Or.inl (h.1.isNamePart c hc)), rfl,
        fun c hc => Bool.or_eq_true_iff.2 (Or.inl (h.2.isNamePart c hc))⟩
    · simp [isKindWord]

/-- The line of a node is told from its beginning, whatever follows on the same line. -/
theorem writesNode_node {x : NodeDraft} (h : x.Named) (indent : Nat) (more : String) :
    writesNode (indentation indent ++ x.text ++ more) = true := by
  rw [String.append_assoc, writesNode_indentation]
  have htext : (x.text ++ more).toList = _ :=
    String.toList_append.trans (congrArg (· ++ more.toList) x.toList_text)
  cases hresults : x.results with
  | cons m ms =>
    obtain ⟨rest, hrest⟩ : ∃ rest, (Reader.resultsText (m :: ms)).toList = '%' :: rest := by
      rw [Reader.resultsText, if_neg (by simp), String.toList_append, mentionsText, List.map_cons,
        toList_commaSeparated_cons, Mention.text, String.toList_append]
      exact ⟨_, rfl⟩
    rw [hresults, hrest] at htext
    exact writesNode_of_value htext
  | nil =>
    obtain ⟨hne, hparts, hkind⟩ := isKindWord_kind h.kind
    rw [hresults] at htext
    -- After the kind comes a parenthesis, which is no part of a word.
    have hline : (x.text ++ more).toList = x.kind.text.toList ++
        '(' :: ((mentionsText x.operands).toList ++ ')' ::
          ((Reader.attributesPart x.attributes).toList ++ (Reader.annotationText x.types).toList) ++
            more.toList) := by
      rw [htext]
      simp [Reader.resultsText]
    rw [writesNode_of_word _ _ hline hne hparts rfl, hkind]

/-- The word `return` has no point, and is none of the two other kinds. -/
theorem countP_returnLines (indent : Nat) (returns : List Mention) :
    (returnLines indent returns).countP writesNode = 0 := by
  rw [returnLines]
  split
  · rfl
  · have hline : writesNode (indentation indent ++ "return " ++ mentionsText returns) = false := by
      rw [String.append_assoc, writesNode_indentation]
      refine (writesNode_of_word "return".toList (' ' :: (mentionsText returns).toList) ?_ (by decide)
        (List.all_eq_true.1 rfl) rfl).trans rfl
      rw [String.toList_append]
      rfl
    simp [hline]

mutual

/-- Nodes have one line each that begins with them, at every depth. -/
theorem countP_bodyLines : ∀ {body : BodyDraft} (indent : Nat), BodyDraft.Named body →
    (bodyLines indent body).countP writesNode = body.nodes.length
  | .done, _, _ => rfl
  | .node head arms rest, indent, h => by
    obtain ⟨hhead, harms, hrest⟩ := BodyDraft.named_node.1 h
    rw [bodyLines, List.countP_append, countP_bodyLines indent hrest,
      countP_armsLines indent (writesNode_node hhead indent) harms, Body.nodes, List.length_cons,
      List.length_append]
    simp only [if_true]
    omega

/-- The line that the first arm goes on counts if it begins with a node; the lines that close an arm do
not count. -/
theorem countP_armsLines : ∀ {arms : ArmsDraft} (indent : Nat) {line lead : String} {writes : Bool},
    (∀ more, writesNode (line ++ more) = writes) → ArmsDraft.Named arms →
    (armsLines indent line lead arms).countP writesNode =
      (if writes then 1 else 0) + arms.nodes.length
  | .done, _, line, _, writes, hline, _ => by
    have hwrites := hline ""
    rw [String.append_empty] at hwrites
    rw [armsLines, List.countP_singleton, hwrites]
    rfl
  | .arm head body rest, indent, line, lead, writes, hline, h => by
    obtain ⟨-, hbody, hrest⟩ := ArmsDraft.named_arm.1 h
    have hclosing : ∀ more, writesNode (indentation indent ++ "\x7d" ++ more) = false := fun more => by
      rw [String.append_assoc, writesNode_indentation, not_writesNode_closing]
    rw [armsLines, List.countP_cons, List.countP_append, List.countP_append, countP_bodyLines _ hbody,
      countP_returnLines, countP_armsLines indent hclosing hrest, hline, Arms.nodes, List.length_append]
    simp only [Bool.false_eq_true, if_false]
    omega

end

/-- A text has as many lines that write a node as its draft has nodes. -/
theorem GraphDraft.countP_writesNode {draft : GraphDraft} (h : draft.Named) :
    (textLines draft.text).countP writesNode = draft.body.nodes.length := by
  have hfirst : writesNode ("graph(" ++ paramsText draft.params ++ ") \x7b") = false := by
    refine (writesNode_of_word "graph".toList ('(' :: ((paramsText draft.params).toList ++
      [')', ' ', '\x7b'])) ?_ (by decide) (List.all_eq_true.1 rfl) rfl).trans rfl
    rw [String.toList_append, String.toList_append]
    rfl
  have hlast : writesNode "\x7d" = false := not_writesNode_closing ""
  rw [GraphDraft.text, textLines_joinLines (draft.unbroken_lines h), GraphDraft.lines, List.countP_cons,
    List.countP_append, List.countP_append, countP_bodyLines 2 h.body, countP_returnLines, hfirst,
    List.countP_singleton, hlast]
  rfl

end Text

end Unguard
