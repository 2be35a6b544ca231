import Unguard.Proofs.Drafting

/-!
# Definitions and uses in a text

Where a text defines values and where it uses them can be seen without reading it by the grammar.
`tokens` finds the values and the signs of a text, and a value is defined if a colon follows, or an
equals sign, perhaps after more values and commas (`defines`).  What comes out are the marks of the
text, from left to right.

Drafts and trees have marks as well (`Arms.marks`): a node defines its outputs, uses its inputs and then
comes what its arms hold, and a block starts with its parameters and ends with what it returns.
-/

namespace Unguard

/-- A place where a value is defined, or where one is used. -/
inductive Mark (α : Type)
  | definition (value : α)
  | use (value : α)
deriving DecidableEq, Repr

namespace Mark

variable {α β : Type}

def map (f : α → β) : Mark α → Mark β
  | definition value => definition (f value)
  | use value => use (f value)

def value : Mark α → α
  | definition value => value
  | use value => value

/-- The value, if this is its definition. -/
def definition? : Mark α → Option α
  | definition value => some value
  | use _ => none

theorem value_map (f : α → β) (m : Mark α) : (m.map f).value = f m.value := by
  cases m <;> rfl

theorem map_congr {f g : α → β} {m : Mark α} (h : f m.value = g m.value) : m.map f = m.map g := by
  cases m with
  | definition v => exact congrArg definition h
  | use v => exact congrArg use h

theorem map_map_definition (f : α → β) (values : List α) :
    (values.map definition).map (map f) = (values.map f).map definition := by
  rw [List.map_map, List.map_map]
  rfl

theorem map_map_use (f : α → β) (values : List α) :
    (values.map use).map (map f) = (values.map f).map use := by
  rw [List.map_map, List.map_map]
  rfl

theorem filterMap_definition (values : List α) :
    (values.map definition).filterMap definition? = values := by
  rw [List.filterMap_map]
  exact List.filterMap_some

theorem filterMap_use (values : List α) : (values.map use).filterMap definition? = [] := by
  rw [List.filterMap_map]
  exact List.filterMap_none values

end Mark

/-! ### Marks of a text -/

namespace Text

open Reader

inductive Token
  /-- A percent sign and the name after it. -/
  | value (name : String)
  /-- What is neither a blank nor part of a name. -/
  | sign (c : Char)
deriving DecidableEq, Repr

mutual

/-- The values and the signs of a text.  Words, numbers, blanks, comments and all that is quoted are
passed. -/
def tokens : List Char → List Token
  | [] => []
  | c :: cs =>
    if c = '%' then .value (String.ofList (cs.takeWhile isNamePart)) :: tokens cs
    else if c = '"' then tokensQuoted cs
    else if c = '/' ∧ cs.head? = some '/' then tokensCommented cs
    else if isBlank c || isNamePart c then tokens cs
    else .sign c :: tokens cs

/-- The tokens after the quote that ends here. -/
def tokensQuoted : List Char → List Token
  | [] => []
  | c :: cs =>
    if c = '\\' then tokensEscaped cs else if c = '"' then tokens cs else tokensQuoted cs

/-- The same after a backslash. -/
def tokensEscaped : List Char → List Token
  | [] => []
  | _ :: cs => tokensQuoted cs

/-- The tokens after this line. -/
def tokensCommented : List Char → List Token
  | [] => []
  | c :: cs => if c = '\n' then tokens cs else tokensCommented cs

end

/-- Whether a value is defined where these tokens follow it. -/
def defines : List Token → Bool
  | .sign ',' :: .value _ :: rest => defines rest
  | .sign c :: _ => c = ':' || c = '='
  | _ => false

/-- The marks of a text that has these tokens. -/
def marks : List Token → List (Mark String)
  | [] => []
  | .value name :: rest => (if defines rest then .definition name else .use name) :: marks rest
  | .sign _ :: rest => marks rest

/-- The marks of a text, from left to right. -/
def marksOf (text : String) : List (Mark String) :=
  marks (tokens text.toList)

example : marksOf "%a, %b = f.g(%c, %a) \x7bk = \"%d\"\x7d : t.u // %e" =
    [.definition "a", .definition "b", .use "c", .use "a"] := by decide +kernel

/-! ### Tokens -/

section Tokens

variable {c : Char} {text rest : List Char}

/-- There are no values among the tokens. -/
def Silent (ts : List Token) : Prop :=
  ∀ t ∈ ts, ∃ c, t = .sign c

theorem silent_nil : Silent [] :=
  List.forall_mem_nil _

theorem silent_sign (c : Char) : Silent [.sign c] :=
  List.forall_mem_singleton.2 ⟨c, rfl⟩

theorem Silent.append {ts us : List Token} (hts : Silent ts) (hus : Silent us) : Silent (ts ++ us) :=
  List.forall_mem_append.2 ⟨hts, hus⟩

theorem tokens_value (rest : List Char) : tokens ('%' :: rest) =
    .value (String.ofList (rest.takeWhile isNamePart)) :: tokens rest := by
  rw [tokens, if_pos rfl]

theorem tokens_quote (rest : List Char) : tokens ('"' :: rest) = tokensQuoted rest := by
  rw [tokens, if_neg (by decide), if_pos rfl]

theorem tokens_comment (rest : List Char) : tokens ('/' :: '/' :: rest) = tokensCommented rest := by
  rw [tokens, if_neg (by decide), if_neg (by decide), if_pos ⟨rfl, rfl⟩, tokensCommented,
    if_neg (by decide)]

/-- A plain character is a sign, unless it is blank or part of a name. -/
theorem tokens_of_isPlain (hc : isPlain c = true) (rest : List Char) : tokens (c :: rest) =
    (if isBlank c || isNamePart c then [] else [.sign c]) ++ tokens rest := by
  simp only [isPlain, Bool.and_eq_true, decide_eq_true_eq] at hc
  rw [tokens, if_neg hc.1.1, if_neg hc.1.2, if_neg fun h => hc.2 h.1]
  split <;> rfl

theorem tokens_of_isBlank (hc : isBlank c = true) (rest : List Char) :
    tokens (c :: rest) = tokens rest := by
  have hplain : isPlain c = true := by
    simp only [isBlank, Bool.or_eq_true, decide_eq_true_eq] at hc
    rcases hc with (((rfl | rfl) | rfl) | rfl) | rfl <;> rfl
  rw [tokens_of_isPlain hplain, hc]
  rfl

/-- A text without values, quotes and comments can be split off. -/
theorem tokens_append (h : ∀ c ∈ text, isPlain c = true) (rest : List Char) :
    tokens (text ++ rest) = tokens text ++ tokens rest := by
  induction text with
  | nil => rw [tokens, List.nil_append, List.nil_append]
  | cons c cs ih =>
    obtain ⟨hc, hcs⟩ := List.forall_mem_cons.1 h
    rw [List.cons_append, tokens_of_isPlain hc, tokens_of_isPlain hc, ih hcs, List.append_assoc]

/-- No value comes out of plain characters. -/
theorem silent_tokens (h : ∀ c ∈ text, isPlain c = true) : Silent (tokens text) := by
  induction text with
  | nil =>
    rw [tokens]
    exact silent_nil
  | cons c cs ih =>
    obtain ⟨hc, hcs⟩ := List.forall_mem_cons.1 h
    rw [tokens_of_isPlain hc]
    refine Silent.append ?_ (ih hcs)
    split
    · exact silent_nil
    · exact silent_sign c

/-- Names have no tokens. -/
theorem tokens_append_of_isNamePart (h : ∀ c ∈ text, isNamePart c = true) (rest : List Char) :
    tokens (text ++ rest) = tokens rest := by
  induction text with
  | nil => rfl
  | cons c cs ih =>
    obtain ⟨hc, hcs⟩ := List.forall_mem_cons.1 h
    rw [List.cons_append, tokens_of_isPlain (isPlain_of_isNamePart hc), hc, Bool.or_true, if_pos rfl,
      ih hcs]
    rfl

/-- A value ends where its name does. -/
theorem tokens_value_append (h : ∀ c ∈ text, isNamePart c = true)
    (hrest : stops isNamePart rest = true) :
    tokens ('%' :: (text ++ rest)) = .value (String.ofList text) :: tokens rest := by
  have hstop : rest.takeWhile isNamePart = [] := by
    cases rest with
    | nil => rfl
    | cons c cs => exact List.takeWhile_cons_of_neg (by simpa [stops] using hrest)
  rw [tokens_value, tokens_append_of_isNamePart h, List.takeWhile_append_of_pos h, hstop,
    List.append_nil]

end Tokens

/-! ### Spelling -/

/-- The marks of these tokens are `ms`, whatever follows. -/
def Spells (ts : List Token) (ms : List (Mark String)) : Prop :=
  ∀ rest, marks (ts ++ rest) = ms ++ marks rest

section Spells

variable {ts us : List Token} {ms ms' : List (Mark String)}

theorem Spells.append (h : Spells ts ms) (h' : Spells us ms') : Spells (ts ++ us) (ms ++ ms') := by
  intro rest
  rw [List.append_assoc, h, h', List.append_assoc]

/-- Signs are not marked. -/
theorem Silent.spells (h : Silent ts) : Spells ts [] := by
  intro rest
  induction ts with
  | nil => rfl
  | cons t ts ih =>
    obtain ⟨⟨c, rfl⟩, hts⟩ := List.forall_mem_cons.1 h
    exact ih hts

/-- Values with commas between them. -/
def listed : List String → List Token
  | [] => []
  | name :: names => .value name :: names.flatMap fun name => [.sign ',', .value name]

/-- Values with commas between them are all defined, or all used. -/
theorem marks_listed (names : List String) (rest : List Token) : marks (listed names ++ rest) =
    names.map (if defines rest then .definition else .use) ++ marks rest := by
  have hmore : ∀ names : List String,
      defines (names.flatMap (fun name => [.sign ',', .value name]) ++ rest) = defines rest ∧
      marks (names.flatMap (fun name => [.sign ',', .value name]) ++ rest) =
        names.map (if defines rest then .definition else .use) ++ marks rest := by
    intro names
    induction names with
    | nil => exact ⟨rfl, rfl⟩
    | cons name names ih =>
      refine ⟨ih.1, ?_⟩
      rw [List.flatMap_cons, List.append_assoc, List.cons_append, List.cons_append, List.nil_append,
        marks, marks, ih.1, ih.2]
      split <;> rfl
  cases names with
  | nil => rfl
  | cons name names =>
    rw [listed, List.cons_append, marks, (hmore names).1, (hmore names).2]
    split <;> rfl

/-- Only a colon or an equals sign makes definitions of what is before it. -/
theorem defines_sign {c : Char} (hc : c ≠ ',') (rest : List Token) :
    defines (.sign c :: rest) = (c = ':' || c = '=' : Bool) := by
  rw [defines.eq_def]
  split
  · rename_i heq
    cases heq
    exact absurd rfl hc
  · rename_i heq
    cases heq
    rfl
  · rename_i hsign
    exact (hsign c rest rfl).elim

/-- The sign after values with commas between them says what they are. -/
theorem spells_listed (names : List String) {c : Char} (hc : c ≠ ',') :
    Spells (listed names ++ [.sign c])
      (names.map (if c = ':' || c = '=' then .definition else .use)) := by
  intro rest
  rw [List.append_assoc, marks_listed, List.singleton_append, defines_sign hc, marks]

end Spells

end Text

/-! ### Marks of trees -/

section Trees

variable {ν β ν' β' α γ : Type} {outputs inputs : ν → List α} {params returns : β → List α}

mutual

/-- The marks of some nodes, given what a node defines and uses, and what a block does. -/
def Body.marks (outputs inputs : ν → List α) (params returns : β → List α) :
    Body ν β → List (Mark α)
  | .done => []
  | .node head arms rest =>
    (outputs head).map .definition ++ (inputs head).map .use ++
      arms.marks outputs inputs params returns ++ rest.marks outputs inputs params returns

/-- The marks of some blocks. -/
def Arms.marks (outputs inputs : ν → List α) (params returns : β → List α) :
    Arms ν β → List (Mark α)
  | .done => []
  | .arm head body rest =>
    (params head).map .definition ++ body.marks outputs inputs params returns ++
      (returns head).map .use ++ rest.marks outputs inputs params returns

end

mutual

/-- The definitions among the marks. -/
theorem Body.filterMap_marks : ∀ body : Body ν β,
    (body.marks outputs inputs params returns).filterMap Mark.definition? = body.collect outputs params
  | .done => rfl
  | .node head arms rest => by
    rw [Body.marks, Body.collect, List.filterMap_append, List.filterMap_append, List.filterMap_append,
      Mark.filterMap_definition, Mark.filterMap_use, List.append_nil, Arms.filterMap_marks arms,
      Body.filterMap_marks rest, List.append_assoc]

@[inherit_doc Body.filterMap_marks]
theorem Arms.filterMap_marks : ∀ arms : Arms ν β,
    (arms.marks outputs inputs params returns).filterMap Mark.definition? = arms.collect outputs params
  | .done => rfl
  | .arm head body rest => by
    rw [Arms.marks, Arms.collect, List.filterMap_append, List.filterMap_append, List.filterMap_append,
      Mark.filterMap_definition, Mark.filterMap_use, List.append_nil, Arms.filterMap_marks rest,
      Body.filterMap_marks body, List.append_assoc]

end

mutual

/-- The values that are used are the inputs of nodes and what blocks return. -/
theorem Body.use_mem_marks_iff {v : α} : ∀ {body : Body ν β},
    .use v ∈ body.marks outputs inputs params returns ↔ v ∈ body.collect inputs returns
  | .done => iff_of_false List.not_mem_nil List.not_mem_nil
  | .node head arms rest => by
    simp [Body.marks, Body.collect, Arms.use_mem_marks_iff, Body.use_mem_marks_iff]

@[inherit_doc Body.use_mem_marks_iff]
theorem Arms.use_mem_marks_iff {v : α} : ∀ {arms : Arms ν β},
    .use v ∈ arms.marks outputs inputs params returns ↔ v ∈ arms.collect inputs returns
  | .done => iff_of_false List.not_mem_nil List.not_mem_nil
  | .arm head body rest => by
    simp [Arms.marks, Arms.collect, Arms.use_mem_marks_iff, Body.use_mem_marks_iff, or_left_comm]

end

end Trees

namespace Text

def BodyDraft.marks (body : BodyDraft) : List (Mark String) :=
  Body.marks (fun d => d.results.map Mention.name) (fun d => d.operands.map Mention.name)
    (fun b => b.params.map fun p => p.1.name) (fun b => b.returns.map Mention.name) body

def ArmsDraft.marks (arms : ArmsDraft) : List (Mark String) :=
  Arms.marks (fun d => d.results.map Mention.name) (fun d => d.operands.map Mention.name)
    (fun b => b.params.map fun p => p.1.name) (fun b => b.returns.map Mention.name) arms

theorem BodyDraft.marks_node (head : NodeDraft) (arms : ArmsDraft) (rest : BodyDraft) :
    BodyDraft.marks (.node head arms rest) = (head.results.map Mention.name).map .definition ++
      (head.operands.map Mention.name).map .use ++ ArmsDraft.marks arms ++ BodyDraft.marks rest := by
  rw [BodyDraft.marks, Body.marks, ArmsDraft.marks, BodyDraft.marks]

theorem ArmsDraft.marks_arm (head : BlockDraft) (body : BodyDraft) (rest : ArmsDraft) :
    ArmsDraft.marks (.arm head body rest) = (head.params.map fun p => p.1.name).map .definition ++
      BodyDraft.marks body ++ (head.returns.map Mention.name).map .use ++ ArmsDraft.marks rest := by
  rw [ArmsDraft.marks, Arms.marks, ArmsDraft.marks, BodyDraft.marks]

/-- The marks of a graph as written.  Its own block may have parameters too. -/
def GraphDraft.marks (draft : GraphDraft) : List (Mark String) :=
  (draft.params.map fun p => p.1.name).map .definition ++
    ArmsDraft.marks (.arm draft.block draft.body .done)

end Text

end Unguard
