import Unguard.Proofs.Marks
import Unguard.Proofs.Printable
import Unguard.Proofs.Refusing

/-!
# Numbers in a text

The text of a graph numbers its values from zero in the order in which it defines them, and wherever it
uses a value it has the number of the definition (`Graph.text_numbered`).  It holds for every graph that
comes from a text by passes, though the values of the graph itself are in another order by then.

First the marks of a draft are those of its text (`GraphDraft.marks_text`).  Unlike for reading the text
back, floats need not be finite for that.
-/

namespace Unguard

open Text

namespace Text

open Reader

/-! ### Marks of written texts -/

/-- The text has these marks, whatever comes after it. -/
def Marked (text : List Char) (ms : List (Mark String)) : Prop :=
  ∀ rest, marks (tokens (text ++ rest)) = ms ++ marks (tokens rest)

section Marked

variable {text text' : List Char} {ms ms' : List (Mark String)}

theorem Marked.append (h : Marked text ms) (h' : Marked text' ms') :
    Marked (text ++ text') (ms ++ ms') := by
  intro rest
  rw [List.append_assoc, h, h', List.append_assoc]

/-- Nothing is marked in a text without values, quotes and comments. -/
theorem marked_of_isPlain (h : ∀ c ∈ text, isPlain c = true) : Marked text [] := by
  intro rest
  rw [tokens_append h]
  exact (silent_tokens h).spells _

theorem marked_of_all (h : text.all isPlain = true) : Marked text [] :=
  marked_of_isPlain (List.all_eq_true.1 h)

theorem marked_name {name : String} (h : ∀ c ∈ name.toList, isNamePart c = true) :
    Marked name.toList [] :=
  marked_of_isPlain fun c hc => isPlain_of_isNamePart (h c hc)

/-- Texts with commas between them. -/
theorem marked_commaSeparated {ι : Type} {items : List ι} {text : ι → String}
    {ms : ι → List (Mark String)} (h : ∀ i ∈ items, Marked (text i).toList (ms i)) :
    Marked (commaSeparated (items.map text)).toList (items.flatMap ms) := by
  have hcomma : Marked [',', ' '] [] := marked_of_all rfl
  have hmore : ∀ items : List ι, (∀ i ∈ items, Marked (text i).toList (ms i)) →
      Marked ((items.map text).flatMap fun t => ',' :: ' ' :: t.toList) (items.flatMap ms) := by
    intro items h
    induction items with
    | nil => exact marked_of_all rfl
    | cons i items ih =>
      obtain ⟨hi, hitems⟩ := List.forall_mem_cons.1 h
      exact (hcomma.append hi).append (ih hitems)
  cases items with
  | nil => exact marked_of_all rfl
  | cons i items =>
    obtain ⟨hi, hitems⟩ := List.forall_mem_cons.1 h
    rw [List.map_cons, toList_commaSeparated_cons]
    exact hi.append (hmore items hitems)

theorem marked_commaSeparated_nil {ι : Type} {items : List ι} {text : ι → String}
    (h : ∀ i ∈ items, Marked (text i).toList []) :
    Marked (commaSeparated (items.map text)).toList [] := by
  have hitems := marked_commaSeparated h
  rwa [List.flatMap_eq_nil_iff.2 fun _ _ => rfl] at hitems

end Marked

/-! ### Types and constants -/

mutual

/-- There is nothing in the text of a type that could be a mark. -/
theorem marked_type : ∀ {ty : TypeTree}, ty.Writable → Marked ty.text.toList []
  | .mk dialect name params, ⟨hdialect, hname, hparams⟩ => by
    have hpoint : Marked ['.'] [] := marked_of_all rfl
    have hhead := (marked_name hdialect.isNamePart).append
      (hpoint.append (marked_name hname.isNamePart))
    rw [TypeTree.toList_text, ← List.singleton_append, ← List.append_assoc ['.'], ← List.append_assoc]
    refine hhead.append ?_
    cases params with
    | nil => exact marked_of_all rfl
    | cons _ _ =>
      have hopen : Marked ['('] [] := marked_of_all rfl
      have hclose : Marked [')'] [] := marked_of_all rfl
      exact hopen.append ((marked_commaSeparated_nil (marked_types hparams)).append hclose)

theorem marked_types : ∀ {tys : List TypeTree}, TypeTree.AllWritable tys →
    ∀ ty ∈ tys, Marked ty.text.toList []
  | [], _ => List.forall_mem_nil _
  | _ :: _, ⟨hty, htys⟩ => List.forall_mem_cons.2 ⟨marked_type hty, marked_types htys⟩

end

/-- Nothing in quotes is marked. -/
theorem marked_quote (s : String) : Marked (quote s).toList [] := by
  -- Escaped characters are passed over two at a time, so no quote ends the text too early.
  have hquoted : ∀ cs rest : List Char,
      tokensQuoted (cs.flatMap escape ++ '"' :: rest) = tokens rest := by
    intro cs rest
    induction cs with
    | nil =>
      rw [List.flatMap_nil, List.nil_append, tokensQuoted, if_neg (by decide), if_pos rfl]
    | cons c cs ih =>
      rw [List.flatMap_cons, List.append_assoc]
      rcases escape_cases c with ⟨d, hc, -⟩ | ⟨hc, hescape, hquote⟩
      · rw [hc, List.cons_append, tokensQuoted, if_pos rfl, List.cons_append, tokensEscaped,
          List.nil_append, ih]
      · rw [hc, List.cons_append, tokensQuoted, if_neg hescape, if_neg hquote, List.nil_append, ih]
  intro rest
  have htext : (quote s).toList ++ rest = '"' :: (s.toList.flatMap escape ++ '"' :: rest) := by
    simp [quote, String.toList_append, String.toList_ofList]
  rw [htext, tokens_quote, hquoted]
  rfl

theorem marked_digits {text : List Char} (h : ∀ c ∈ text, c.isDigit = true) : Marked text [] :=
  marked_of_isPlain fun c hc => isPlain_of_isNamePart (isNamePart_of_isDigit (h c hc))

theorem marked_int (bits : UInt64) : Marked (signedText bits).toList [] := by
  rw [signedText]
  split
  · exact marked_name (isValueName_repr _).2
  · rw [String.toList_append]
    have hsign : Marked "-".toList [] := marked_of_all rfl
    exact hsign.append (marked_name (isValueName_repr _).2)

/-- Nor is there in a float, even if it is written as a word. -/
theorem marked_float (bits : UInt64) : Marked (Binary64.text bits).toList [] := by
  by_cases h : Binary64.IsFinite bits
  · obtain ⟨whole, fraction, htext, ⟨-, hwhole⟩, ⟨-, hfraction⟩, -⟩ := Binary64.exists_text h
    have hsign : Marked (if Binary64.isNegative bits then ['-'] else []) [] := by
      split
      · exact marked_of_all rfl
      · exact marked_of_all rfl
    have hpoint : Marked ['.'] [] := marked_of_all rfl
    rw [htext, ← List.singleton_append]
    exact hsign.append ((marked_digits hwhole).append (hpoint.append (marked_digits hfraction)))
  · rcases Binary64.text_of_not_isFinite h with htext | htext | htext <;> rw [htext] <;>
      exact marked_of_all rfl

mutual

/-- Nothing in a constant is marked. -/
theorem marked_literal : ∀ {l : Literal}, (∀ ty ∈ l.types, ty.Writable) → Marked l.text.toList []
  | .unit, _ => marked_of_all rfl
  | .bool true, _ => marked_of_all rfl
  | .bool false, _ => marked_of_all rfl
  | .int bits, _ => marked_int bits
  | .float bits, _ => marked_float bits
  | .string s, _ => marked_quote s
  | .type _, h => marked_type (h _ List.mem_cons_self)
  | .list items, h => by
    have hopen : Marked "[".toList [] := marked_of_all rfl
    have hclose : Marked "]".toList [] := marked_of_all rfl
    rw [Literal.text, Literal.texts_eq_map, String.toList_append, String.toList_append]
    exact (hopen.append (marked_commaSeparated_nil (marked_literals h))).append hclose

theorem marked_literals : ∀ {items : List Literal}, (∀ ty ∈ Literal.allTypes items, ty.Writable) →
    ∀ l ∈ items, Marked l.text.toList []
  | [], _ => List.forall_mem_nil _
  | _ :: _, h => by
    obtain ⟨hitem, hitems⟩ := List.forall_mem_append.1 h
    exact List.forall_mem_cons.2 ⟨marked_literal hitem, marked_literals hitems⟩

end

/-! ### Nodes -/

/-- Blanks before a text have no tokens. -/
theorem tokens_blank_append {blank : List Char} (h : Blank blank) (rest : List Char) :
    tokens (blank ++ rest) = tokens rest := by
  induction blank with
  | nil => rfl
  | cons c cs ih =>
    obtain ⟨hc, hcs⟩ := List.forall_mem_cons.1 h
    rw [List.cons_append, tokens_of_isBlank hc, ih hcs]

theorem marked_blank {blank : List Char} (h : Blank blank) : Marked blank [] := by
  intro rest
  rw [tokens_blank_append h]
  rfl

/-- A mention is one token, if its name ends where it should. -/
theorem tokens_mention {m : Mention} (h : IsValueName m.name) {rest : List Char}
    (hrest : stops isNamePart rest = true) :
    tokens (m.text.toList ++ rest) = .value m.name :: tokens rest := by
  have hvalue := tokens_value_append h.2 hrest
  rw [String.ofList_toList] at hvalue
  rw [Mention.text, String.toList_append, List.append_assoc]
  exact hvalue

/-- A list of mentions has the tokens of the mentions and the commas between them. -/
theorem tokens_mentions {ms : List Mention} (h : ∀ m ∈ ms, IsValueName m.name) {rest : List Char}
    (hrest : stops isNamePart rest = true) : tokens ((mentionsText ms).toList ++ rest) =
      listed (ms.map Mention.name) ++ tokens rest := by
  -- A name ends only where the text after it stops one, so the induction carries that along.
  have hmore : ∀ ms : List Mention, (∀ m ∈ ms, IsValueName m.name) →
      stops isNamePart ((ms.map Mention.text).flatMap (fun t => ',' :: ' ' :: t.toList) ++ rest) = true ∧
      tokens ((ms.map Mention.text).flatMap (fun t => ',' :: ' ' :: t.toList) ++ rest) =
        (ms.map Mention.name).flatMap (fun name => [.sign ',', .value name]) ++ tokens rest := by
    intro ms h
    induction ms with
    | nil => exact ⟨hrest, rfl⟩
    | cons m ms ih =>
      obtain ⟨hm, hms⟩ := List.forall_mem_cons.1 h
      obtain ⟨hstops, htokens⟩ := ih hms
      refine ⟨rfl, ?_⟩
      rw [List.map_cons, List.flatMap_cons, List.append_assoc, List.cons_append, List.cons_append,
        tokens_of_isPlain (by decide), tokens_of_isBlank (by decide), tokens_mention hm hstops, htokens]
      rfl
  cases ms with
  | nil => rfl
  | cons m ms =>
    obtain ⟨hm, hms⟩ := List.forall_mem_cons.1 h
    obtain ⟨hstops, htokens⟩ := hmore ms hms
    rw [mentionsText, List.map_cons, toList_commaSeparated_cons, List.append_assoc,
      tokens_mention hm hstops, htokens]
    rfl

/-- Values are all defined or all used, as the sign after them says. -/
theorem marked_mentions {ms : List Mention} (h : ∀ m ∈ ms, IsValueName m.name) {blank : List Char}
    (hblank : Blank blank) {c : Char} (hplain : isPlain c = true)
    (hsign : (isBlank c || isNamePart c) = false) (hcomma : c ≠ ',') :
    Marked ((mentionsText ms).toList ++ (blank ++ [c]))
      ((ms.map Mention.name).map (if c = ':' || c = '=' then .definition else .use)) := by
  intro rest
  -- The last name ends before the blanks or before the sign.
  have hstops : stops isNamePart (blank ++ [c] ++ rest) = true := by
    cases blank with
    | nil =>
      rw [Bool.or_eq_false_iff] at hsign
      simp [stops, hsign.2]
    | cons d ds =>
      have hd := (List.forall_mem_cons.1 hblank).1
      simp only [isBlank, Bool.or_eq_true, decide_eq_true_eq] at hd
      rcases hd with (((rfl | rfl) | rfl) | rfl) | rfl <;> rfl
  have htokens : tokens (blank ++ [c] ++ rest) = .sign c :: tokens rest := by
    rw [List.append_assoc, tokens_blank_append hblank, List.singleton_append, tokens_of_isPlain hplain,
      hsign]
    rfl
  have hspells := spells_listed (ms.map Mention.name) hcomma (tokens rest)
  rw [List.append_assoc, tokens_mentions h hstops, htokens]
  rwa [List.append_assoc, List.singleton_append] at hspells

theorem marked_kind {k : Kind} (h : Kind.Named k) : Marked k.text.toList [] := by
  cases k with
  | conditional => exact marked_name isName_if.isNamePart
  | raise => exact marked_name isName_raise.isNamePart
  | op name =>
    have hpoint : Marked ".".toList [] := marked_of_all rfl
    rw [Kind.text, Operator.text, String.toList_append, String.toList_append]
    exact ((marked_name h.1.isNamePart).append hpoint).append (marked_name h.2.isNamePart)

/-- Results are definitions because of the equals sign after them. -/
theorem marked_results {ms : List Mention} (h : ∀ m ∈ ms, IsValueName m.name) :
    Marked (resultsText ms).toList ((ms.map Mention.name).map .definition) := by
  cases ms with
  | nil => exact marked_of_all rfl
  | cons m ms =>
    have hspace : Marked [' '] [] := marked_of_all rfl
    have hresults := (marked_mentions h (blank_cons (c := ' ') rfl blank_nil) (c := '=') rfl rfl
      (by decide)).append hspace
    rw [resultsText, if_neg (by simp), String.toList_append]
    simpa using hresults

/-- Keys, equals signs and constants have no values in them. -/
theorem marked_attributes {es : List (String × Literal)} (h : ∀ e ∈ es, IsName e.1 ∧ e.2.Named) :
    Marked (attributesPart es).toList [] := by
  rw [attributesPart]
  split
  · exact marked_of_all rfl
  · have hopen : Marked " \x7b".toList [] := marked_of_all rfl
    have hclose : Marked "\x7d".toList [] := marked_of_all rfl
    have hequals : Marked " = ".toList [] := marked_of_all rfl
    have hentries : Marked (attributesText es).toList [] := by
      refine marked_commaSeparated_nil fun e he => ?_
      rw [String.toList_append, String.toList_append]
      exact ((marked_name (h e he).1.isNamePart).append hequals).append
        (marked_literal fun ty hty => ((h e he).2.types ty hty).1)
    rw [String.toList_append, String.toList_append]
    exact (hopen.append hentries).append hclose

theorem marked_annotationText {tys : List TypeTree} (h : ∀ ty ∈ tys, ty.Writable) :
    Marked (annotationText tys).toList [] := by
  rw [annotationText]
  split
  · exact marked_of_all rfl
  · have hcolon : Marked " : ".toList [] := marked_of_all rfl
    rw [String.toList_append, TypeTree.texts_eq_map]
    exact hcolon.append (marked_commaSeparated_nil fun ty hty => marked_type (h ty hty))

/-- The line of a node defines its results, then it uses its operands. -/
theorem marked_node {x : NodeDraft} (h : x.Named) : Marked x.text.toList
    ((x.results.map Mention.name).map .definition ++ (x.operands.map Mention.name).map .use) := by
  have hopen : Marked ['('] [] := marked_of_all rfl
  have hoperands := marked_mentions h.operands blank_nil (c := ')') rfl rfl (by decide)
  have hend := (hoperands.append (marked_attributes h.attributes)).append (marked_annotationText h.types)
  have hnode := (marked_results h.results).append ((marked_kind h.kind).append (hopen.append hend))
  rw [NodeDraft.toList_text]
  simpa using hnode

/-! ### Blocks -/

/-- Parameters are definitions because of the colon after each. -/
theorem marked_params {ps : List (Mention × TypeTree)} (h : NamedParams ps) :
    Marked (paramsText ps).toList ((ps.map fun p => p.1.name).map .definition) := by
  have hparams : Marked (paramsText ps).toList (ps.flatMap fun p => [.definition p.1.name]) := by
    refine marked_commaSeparated fun p hp => ?_
    have hspace : Marked [' '] [] := marked_of_all rfl
    have hmention := marked_mentions (List.forall_mem_singleton.2 (h p hp).1) blank_nil (c := ':') rfl
      rfl (by decide)
    have hparam := (hmention.append hspace).append (marked_type (h p hp).2)
    rw [String.toList_append, String.toList_append]
    simpa [mentionsText, commaSeparated] using hparam
  rwa [← List.map_eq_flatMap, ← Function.comp_def, ← List.map_map] at hparams

theorem marked_paramsPart {ps : List (Mention × TypeTree)} (h : NamedParams ps) :
    Marked (paramsPart ps).toList ((ps.map fun p => p.1.name).map .definition) := by
  cases ps with
  | nil => exact marked_of_all rfl
  | cons p ps =>
    have hopen : Marked " ^(".toList [] := marked_of_all rfl
    have hclose : Marked ")".toList [] := marked_of_all rfl
    rw [paramsPart, if_neg (by simp), String.toList_append, String.toList_append]
    simpa using (hopen.append (marked_params h)).append hclose

mutual

/-- A block to its end.  Its last values are told to be used by the brace after them, so what follows the
nodes is part of the statement. -/
theorem BodyDraft.marks_restText : ∀ {body : BodyDraft} (indent : Nat) {returns : List Mention}
    (more : List Char), BodyDraft.Named body → (∀ m ∈ returns, IsValueName m.name) →
    Text.marks (tokens (restText indent body returns more)) = BodyDraft.marks body ++
      ((returns.map Mention.name).map .use ++ Text.marks (tokens more))
  | .done, indent, [], more, _, _ => by
    have hclose : Marked ['\x7d'] [] := marked_of_all rfl
    rw [restText_done]
    simpa [BodyDraft.marks, Body.marks] using
      ((marked_blank (blank_indentation indent)).append hclose) more
  | .done, indent, m :: ms, more, _, hreturns => by
    have hspace : Marked [' '] [] := marked_of_all rfl
    -- The mentions of the return are followed by the closing brace, so they are uses.
    have hend := marked_mentions hreturns (blank_cons (c := '\n') rfl (blank_indentation indent))
      (c := '\x7d') rfl rfl (by decide)
    have hreturn := (marked_blank (blank_indentation (indent + 2))).append
      ((marked_name isName_return.isNamePart).append (hspace.append hend))
    rw [restText_returns]
    simpa [BodyDraft.marks, Body.marks] using hreturn more
  | .node head arms rest, indent, returns, more, hbody, hreturns => by
    obtain ⟨hhead, harms, hrest⟩ := BodyDraft.named_node.1 hbody
    have hnode := (marked_blank (blank_indentation (indent + 2))).append (marked_node hhead)
    -- The arms come right after the line of the node, and the rest after them.
    have hmore := ArmsDraft.marks_armsText (indent + 2) ('\n' :: restText indent rest returns more)
      " " (List.all_eq_true.1 rfl) harms
    rw [restText_node, ← List.append_assoc, hnode, hmore, tokens_of_isBlank rfl,
      BodyDraft.marks_restText indent more hrest hreturns, BodyDraft.marks_node]
    simp only [List.append_assoc, List.nil_append]

/-- Blocks with leads before them. -/
theorem ArmsDraft.marks_armsText : ∀ {arms : ArmsDraft} (indent : Nat) (more : List Char)
    (lead : String), (∀ c ∈ lead.toList, isPlain c = true) → ArmsDraft.Named arms →
    Text.marks (tokens (armsText indent more lead arms)) =
      ArmsDraft.marks arms ++ Text.marks (tokens more)
  | .done, _, _, _, _, _ => rfl
  | .arm head body rest, indent, more, lead, hlead, harms => by
    obtain ⟨hhead, hbody, hrest⟩ := ArmsDraft.named_arm.1 harms
    have hopen : Marked ['\x7b'] [] := marked_of_all rfl
    have hparams := (marked_of_isPlain hlead).append (hopen.append (marked_paramsPart hhead.params))
    have hbodyMarks := BodyDraft.marks_restText indent (armsText indent more " else " rest) hbody
      hhead.returns
    have hmore := ArmsDraft.marks_armsText indent more " else " (List.all_eq_true.1 rfl) hrest
    have htext : armsText indent more lead (.arm head body rest) = (lead.toList ++ (['\x7b'] ++
        (paramsPart head.params).toList)) ++ '\n' :: restText indent body head.returns
          (armsText indent more " else " rest) := by
      rw [armsText, blockText]
      simp
    rw [htext, hparams, tokens_of_isBlank rfl, hbodyMarks, hmore, ArmsDraft.marks_arm]
    simp only [List.append_assoc, List.nil_append]

end

/-- The marks of a text are those of the draft that it was written from. -/
theorem GraphDraft.marks_text {draft : GraphDraft} (h : draft.Named) :
    marksOf draft.text = ArmsDraft.marks draft.toArms := by
  have hopen : Marked ['('] [] := marked_of_all rfl
  have hclose : Marked [')'] [] := marked_of_all rfl
  have hgraph : Marked "graph".toList [] := marked_of_all rfl
  have hparams := hgraph.append (hopen.append ((marked_params h.params).append hclose))
  have hnamed : BlockDraft.Named ⟨[], draft.block.returns⟩ := ⟨List.forall_mem_nil _, h.returns⟩
  have hblock := ArmsDraft.marks_armsText 0 ['\n'] " " (List.all_eq_true.1 rfl)
    (ArmsDraft.named_arm.2 ⟨hnamed, h.body, ArmsDraft.named_done⟩)
  have htext : draft.text.toList = ("graph".toList ++ (['('] ++ ((paramsText draft.params).toList ++
      [')']))) ++ armsText 0 ['\n'] " " (.arm ⟨[], draft.block.returns⟩ draft.body .done) := by
    rw [GraphDraft.toList_text, armsText, armsText]
    simp
  rw [marksOf, htext, hparams, hblock, tokens_of_isBlank rfl, tokens, Text.marks, GraphDraft.toArms,
    ArmsDraft.marks_arm, ArmsDraft.marks_arm]
  simp only [List.append_assoc, List.nil_append, List.append_nil, List.map_nil]

end Text

/-! ### Marks of a graph -/

section Pairs

variable {ν β ν' β' α γ : Type} {R : ν → ν' → Prop} {S : β → β' → Prop} {f : α → γ}
  {outputs inputs : ν → List α} {params returns : β → List α} {outputs' inputs' : ν' → List γ}
  {params' returns' : β' → List γ}

mutual

/-- Trees of the same shape have the same marks, up to the names of values. -/
theorem Body.Pairs.map_marks (hR : ∀ x y, R x y →
      (outputs x).map f = outputs' y ∧ (inputs x).map f = inputs' y)
    (hS : ∀ b c, S b c → (params b).map f = params' c ∧ (returns b).map f = returns' c) :
    ∀ {a : Body ν β} {b : Body ν' β'}, a.Pairs R S b →
      (a.marks outputs inputs params returns).map (Mark.map f) =
        b.marks outputs' inputs' params' returns'
  | .done, .done, _ => rfl
  | .node _ _ _, .node _ _ _, ⟨hx, harms, hrest⟩ => by
    rw [Body.marks, Body.marks, List.map_append, List.map_append, List.map_append,
      Mark.map_map_definition, Mark.map_map_use, (hR _ _ hx).1, (hR _ _ hx).2,
      Arms.Pairs.map_marks hR hS harms, Body.Pairs.map_marks hR hS hrest]

@[inherit_doc Body.Pairs.map_marks]
theorem Arms.Pairs.map_marks (hR : ∀ x y, R x y →
      (outputs x).map f = outputs' y ∧ (inputs x).map f = inputs' y)
    (hS : ∀ b c, S b c → (params b).map f = params' c ∧ (returns b).map f = returns' c) :
    ∀ {a : Arms ν β} {b : Arms ν' β'}, a.Pairs R S b →
      (a.marks outputs inputs params returns).map (Mark.map f) =
        b.marks outputs' inputs' params' returns'
  | .done, .done, _ => rfl
  | .arm _ _ _, .arm _ _ _, ⟨hb, hbody, hrest⟩ => by
    rw [Arms.marks, Arms.marks, List.map_append, List.map_append, List.map_append,
      Mark.map_map_definition, Mark.map_map_use, (hS _ _ hb).1, (hS _ _ hb).2,
      Body.Pairs.map_marks hR hS hbody, Arms.Pairs.map_marks hR hS hrest]

end

end Pairs

/-- The marks of a graph that has this tree. -/
def BlockTree.marks (t : BlockTree) : List (Mark ValueId) :=
  t.toArms.marks NodeView.outputs NodeView.inputs BlockView.params BlockView.returns

theorem BlockTree.filterMap_marks (t : BlockTree) :
    t.marks.filterMap Mark.definition? = t.definitions := by
  rw [BlockTree.marks, Arms.filterMap_marks, t.definitions_eq, BlockTrees.definitions_eq_collect]

/-- The definitions among the marks are those of the tree. -/
theorem BlockTree.definition_mem_marks_iff {t : BlockTree} {v : ValueId} :
    .definition v ∈ t.marks ↔ v ∈ t.definitions := by
  rw [← t.filterMap_marks, List.mem_filterMap]
  constructor
  · exact fun h => ⟨_, h, rfl⟩
  · rintro ⟨m, hm, hv⟩
    cases m with
    | definition w =>
      obtain rfl := Option.some.inj hv
      exact hm
    | use w => cases hv

/-- What is used in a whole tree is defined in it. -/
theorem Arms.WellFormed.mem_definitions_of_mem_marks {t : BlockTree}
    (hwf : t.toArms.WellFormed []) {m : Mark ValueId} (hm : m ∈ t.marks) : m.value ∈ t.definitions := by
  cases m with
  | definition v => exact BlockTree.definition_mem_marks_iff.1 hm
  | use v =>
    rw [t.definitions_eq]
    exact (hwf.scope.mem_of_mentions (Arms.use_mem_marks_iff.1 hm)).resolve_left List.not_mem_nil

namespace Graph

/-- The marks of a draft are those of the tree, where the values have the names of the draft. -/
theorem TreeWritten.map_marks {g : Graph} {nm : ValueId → String} {t : BlockTree} {draft : GraphDraft}
    (h : g.TreeWritten nm t draft) : t.marks.map (Mark.map nm) = ArmsDraft.marks draft.toArms :=
  Arms.Pairs.map_marks (fun _ _ hx => ⟨hx.outputs, hx.inputs⟩) (fun _ _ hb => ⟨hb.params, hb.returns⟩) h

/-- **Numbers in a text.**  Let a graph be read from a text and go through any sequence of passes.  The
definitions in its text are numbered from zero on, from left to right.  The text has a mark for each mark
of the tree, and a value is written, wherever it is defined or used, as its place among the definitions;
every value that is used is defined, so nothing is written but numbers. -/
theorem text_numbered (source : String) (g₀ g : Graph) (runs : List PassRun)
    (hread : Graph.ofText source = .ok g₀) (hruns : g₀.applyRuns runs = .ok g) :
    ∃ (t : BlockTree) (text : String), g.tree = .ok t ∧ g.text = .ok text ∧
      (marksOf text).filterMap Mark.definition? = (List.range t.definitions.length).map Nat.repr ∧
      marksOf text = t.marks.map (Mark.map fun v => (t.definitions.idxOf v).repr) ∧
      t.marks.filterMap Mark.definition? = t.definitions ∧ t.definitions.Nodup ∧
      (∀ v, .use v ∈ t.marks → .definition v ∈ t.marks) ∧
      ∀ m ∈ marksOf text, ∃ i < t.definitions.length, m.value = i.repr := by
  obtain ⟨t₀, hholds₀⟩ := printable_ofText hread
  have hkept : KeptByPasses (fun _ => True) Printable := keptByPasses_printable
  obtain ⟨t, hg, hwf, hshape, hprintable⟩ :=
    hkept.of_runs (fun r _ => by cases r <;> trivial) hholds₀ hruns
  obtain ⟨draft, hdraft, hnamed, -⟩ := hprintable.exists_draft hg hwf hshape
  have htext : g.text = .ok draft.text := by
    rw [hg.text_eq hshape, textOf, hdraft]
    rfl
  have hnodup : t.definitions.Nodup := t.definitions_eq ▸ hwf.definitions
  -- A value that the tree does not define would be a question mark, but every marked value is defined.
  have hname : ∀ v ∈ t.definitions, placeName t.definitions v = (t.definitions.idxOf v).repr := by
    intro v hv
    obtain ⟨i, -, rfl, hi⟩ := exists_placeName hv
    exact hi
  have hmarks : marksOf draft.text =
      t.marks.map (Mark.map fun v => (t.definitions.idxOf v).repr) := by
    rw [GraphDraft.marks_text hnamed, ← (treeWritten_of_outlineGraph hdraft).1.map_marks]
    exact List.map_congr_left fun m hm => Mark.map_congr (hname _ (hwf.mem_definitions_of_mem_marks hm))
  refine ⟨t, draft.text, hg.tree_eq, htext, ?_, hmarks, t.filterMap_marks, hnodup, fun v hv =>
    BlockTree.definition_mem_marks_iff.2 (hwf.mem_definitions_of_mem_marks hv), fun m hm => ?_⟩
  · rw [GraphDraft.marks_text hnamed, ArmsDraft.marks, Arms.filterMap_marks]
    have hnames := (treeWritten_of_outlineGraph hdraft).1.names_eq
    rw [← t.definitions_eq, map_placeName hnodup] at hnames
    exact hnames.symm
  · rw [hmarks] at hm
    obtain ⟨m', hm', rfl⟩ := List.mem_map.1 hm
    exact ⟨_, List.idxOf_lt_length_of_mem (hwf.mem_definitions_of_mem_marks hm'), Mark.value_map _ m'⟩

/-- A computation that can be hoisted out of its arm, with a percent sign and an infinity in a constant,
and a node that uses it. -/
def hoistedQuery : String :=
  "graph(%c: a.b, %x: a.t) \x7b %y = if(%c) : a.t \x7b %u = a.f(%x) \x7bs = [\"%?\", 1.0e999]\x7d " ++
    ": a.t return %u \x7d else \x7b raise() return %x \x7d %d = a.g(%y, %c) : a.u return %d, %y \x7d"

/-- The copy is the last value of the graph and the third one of the text. -/
theorem text_numbered_hoistedQuery : ∃ g₀ g t text, Graph.ofText hoistedQuery = .ok g₀ ∧
    g₀.applyRuns [.hoisting (.ofList [⟨"a", "f"⟩]) 2] = .ok g ∧ g.tree = .ok t ∧
    t.definitions = [⟨0⟩, ⟨1⟩, ⟨5⟩, ⟨4⟩] ∧ g.text = .ok text ∧
    marksOf text = [.definition "0", .definition "1", .definition "2", .use "1", .definition "3",
      .use "2", .use "0", .use "3", .use "2"] := by
  have hrun : (Graph.ofText hoistedQuery).toOption.bind (fun g₀ =>
      (g₀.applyRuns [.hoisting (.ofList [⟨"a", "f"⟩]) 2]).toOption.bind fun g =>
        g.tree.toOption.map BlockTree.marks) = some [.definition ⟨0⟩, .definition ⟨1⟩, .definition ⟨5⟩,
          .use ⟨1⟩, .definition ⟨4⟩, .use ⟨5⟩, .use ⟨0⟩, .use ⟨4⟩, .use ⟨5⟩] := by
    decide +kernel
  simp only [Option.bind_eq_some_iff, Option.map_eq_some_iff, toOption_eq_some_iff] at hrun
  obtain ⟨g₀, hread, g, hruns, t, htree, ht⟩ := hrun
  obtain ⟨t', text, htree', htext, -, hmarks, hdefinitions, -⟩ :=
    text_numbered hoistedQuery g₀ g _ hread hruns
  obtain rfl := Except.ok.inj (htree.symm.trans htree')
  have hvalues : t.definitions = [⟨0⟩, ⟨1⟩, ⟨5⟩, ⟨4⟩] := by
    rw [← hdefinitions, ht]
    rfl
  refine ⟨g₀, g, t, text, hread, hruns, htree, hvalues, htext, ?_⟩
  rw [hmarks, ht, hvalues]
  decide +kernel

end Graph

end Unguard
