import Unguard.Proofs.Lexemes
import Unguard.Proofs.Reading

/-!
# What the grammar lets through

A draft can be written so that it is read back only if its names are names of the grammar.
`GraphDraft.Named` says so, and everything that is read satisfies it (`GraphDraft.named_of_ofText`).

One case takes more than following the grammar: a type that stands as a constant is tried after the
words `true`, `false` and `unit`, so a type that was read does not begin with one of them.
-/

namespace Unguard

open Text

/-! ### Drafts that follow the grammar -/

mutual

/-- Every dialect and every name in the type is a name of the grammar. -/
def TypeTree.Writable : TypeTree → Prop
  | .mk dialect name params => IsName dialect ∧ IsName name ∧ TypeTree.AllWritable params

@[inherit_doc TypeTree.Writable]
def TypeTree.AllWritable : List TypeTree → Prop
  | [] => True
  | ty :: tys => ty.Writable ∧ TypeTree.AllWritable tys

end

theorem TypeTree.allWritable_iff : ∀ {tys : List TypeTree},
    TypeTree.AllWritable tys ↔ ∀ ty ∈ tys, ty.Writable
  | [] => iff_of_true trivial fun _ h => nomatch h
  | ty :: tys => by
    rw [TypeTree.AllWritable, List.forall_mem_cons, TypeTree.allWritable_iff]

theorem TypeTree.texts_eq_map : ∀ tys : List TypeTree, TypeTree.texts tys = tys.map TypeTree.text
  | [] => rfl
  | ty :: tys => by rw [TypeTree.texts, List.map_cons, TypeTree.texts_eq_map tys]

def TypeTree.dialect : TypeTree → String
  | .mk dialect _ _ => dialect

/-- The words that are read as constants of their own. -/
def constantWords : List String :=
  ["true", "false", "unit"]

/-- The type is not taken for another constant. -/
def TypeTree.Unreserved (ty : TypeTree) : Prop :=
  ∀ w ∈ constantWords, ¬w.toList <+: ty.dialect.toList

namespace Text

mutual

/-- The types in a constant. -/
def Literal.types : Literal → List TypeTree
  | .type ty => [ty]
  | .list items => Literal.allTypes items
  | .unit | .bool _ | .int _ | .float _ | .string _ => []

@[inherit_doc Literal.types]
def Literal.allTypes : List Literal → List TypeTree
  | [] => []
  | item :: items => item.types ++ Literal.allTypes items

end

mutual

/-- The floats in a constant. -/
def Literal.floats : Literal → List UInt64
  | .float bits => [bits]
  | .list items => Literal.allFloats items
  | .unit | .bool _ | .int _ | .string _ | .type _ => []

@[inherit_doc Literal.floats]
def Literal.allFloats : List Literal → List UInt64
  | [] => []
  | item :: items => item.floats ++ Literal.allFloats items

end

theorem Literal.allTypes_eq_flatMap : ∀ items : List Literal,
    Literal.allTypes items = items.flatMap Literal.types
  | [] => rfl
  | item :: items => by
    rw [Literal.allTypes, List.flatMap_cons, Literal.allTypes_eq_flatMap items]

theorem Literal.allFloats_eq_flatMap : ∀ items : List Literal,
    Literal.allFloats items = items.flatMap Literal.floats
  | [] => rfl
  | item :: items => by
    rw [Literal.allFloats, List.flatMap_cons, Literal.allFloats_eq_flatMap items]

theorem Literal.texts_eq_map : ∀ items : List Literal, Literal.texts items = items.map Literal.text
  | [] => rfl
  | item :: items => by rw [Literal.texts, List.map_cons, Literal.texts_eq_map items]

/-- The types in the constant can be written and are not taken for other constants, and its floats are
numbers. -/
structure Literal.Named (l : Literal) : Prop where
  types : ∀ ty ∈ l.types, ty.Writable ∧ ty.Unreserved
  floats : ∀ bits ∈ l.floats, Binary64.IsNumber bits

theorem Literal.named_of_nil {l : Literal} (htypes : l.types = []) (hfloats : l.floats = []) : l.Named := by
  constructor
  · rw [htypes]
    exact List.forall_mem_nil _
  · rw [hfloats]
    exact List.forall_mem_nil _

/-- A list can be written if its items can. -/
theorem Literal.named_list {items : List Literal} : (Literal.list items).Named ↔
    ∀ l ∈ items, l.Named := by
  have htypes : (Literal.list items).types = items.flatMap Literal.types :=
    Literal.allTypes_eq_flatMap items
  have hfloats : (Literal.list items).floats = items.flatMap Literal.floats :=
    Literal.allFloats_eq_flatMap items
  constructor
  · intro h l hl
    exact ⟨fun ty hty => h.types ty (htypes ▸ List.mem_flatMap.2 ⟨l, hl, hty⟩),
      fun bits hbits => h.floats bits (hfloats ▸ List.mem_flatMap.2 ⟨l, hl, hbits⟩)⟩
  · intro h
    constructor
    · intro ty hty
      obtain ⟨l, hl, hty⟩ := List.mem_flatMap.1 (htypes ▸ hty)
      exact (h l hl).types ty hty
    · intro bits hbits
      obtain ⟨l, hl, hbits⟩ := List.mem_flatMap.1 (hfloats ▸ hbits)
      exact (h l hl).floats bits hbits

/-- The names of the operator are names of the grammar. -/
def Kind.Named : Kind → Prop
  | .op name => IsName name.dialect ∧ IsName name.name
  | .conditional | .raise => True

/-- The node follows the grammar. -/
structure NodeDraft.Named (x : NodeDraft) : Prop where
  kind : Kind.Named x.kind
  results : ∀ m ∈ x.results, IsValueName m.name
  operands : ∀ m ∈ x.operands, IsValueName m.name
  attributes : ∀ e ∈ x.attributes, IsName e.1 ∧ e.2.Named
  types : ∀ ty ∈ x.types, ty.Writable
  conditional : x.kind = .conditional → x.attributes = []
  raise : x.kind = .raise → x.types = []

/-- The parameters follow the grammar. -/
def NamedParams (params : List (Mention × TypeTree)) : Prop :=
  ∀ p ∈ params, IsValueName p.1.name ∧ p.2.Writable

/-- The block follows the grammar. -/
structure BlockDraft.Named (b : BlockDraft) : Prop where
  params : NamedParams b.params
  returns : ∀ m ∈ b.returns, IsValueName m.name

/-- The nodes, at every depth, follow the grammar. -/
structure BodyDraft.Named (body : BodyDraft) : Prop where
  nodes : ∀ x ∈ body.nodes, x.Named
  blocks : ∀ b ∈ body.blocks, b.Named

@[inherit_doc BodyDraft.Named]
structure ArmsDraft.Named (arms : ArmsDraft) : Prop where
  nodes : ∀ x ∈ arms.nodes, x.Named
  blocks : ∀ b ∈ arms.blocks, b.Named

theorem BodyDraft.named_done : BodyDraft.Named .done :=
  ⟨nofun, nofun⟩

/-- Nodes follow the grammar one by one, with all that is inside them. -/
theorem BodyDraft.named_node {head : NodeDraft} {arms : ArmsDraft} {rest : BodyDraft} :
    BodyDraft.Named (.node head arms rest) ↔
      head.Named ∧ ArmsDraft.Named arms ∧ BodyDraft.Named rest := by
  constructor
  · rintro ⟨hnodes, hblocks⟩
    rw [Body.nodes, List.forall_mem_cons, List.forall_mem_append] at hnodes
    rw [Body.blocks, List.forall_mem_append] at hblocks
    exact ⟨hnodes.1, ⟨hnodes.2.1, hblocks.1⟩, hnodes.2.2, hblocks.2⟩
  · rintro ⟨hhead, harms, hrest⟩
    exact ⟨List.forall_mem_cons.2 ⟨hhead, List.forall_mem_append.2 ⟨harms.nodes, hrest.nodes⟩⟩,
      List.forall_mem_append.2 ⟨harms.blocks, hrest.blocks⟩⟩

theorem ArmsDraft.named_done : ArmsDraft.Named .done :=
  ⟨nofun, nofun⟩

theorem ArmsDraft.named_arm {head : BlockDraft} {body : BodyDraft} {rest : ArmsDraft} :
    ArmsDraft.Named (.arm head body rest) ↔
      head.Named ∧ BodyDraft.Named body ∧ ArmsDraft.Named rest := by
  constructor
  · rintro ⟨hnodes, hblocks⟩
    rw [Arms.nodes, List.forall_mem_append] at hnodes
    rw [Arms.blocks, List.forall_mem_cons, List.forall_mem_append] at hblocks
    exact ⟨hblocks.1, ⟨hnodes.1, hblocks.2.1⟩, hnodes.2, hblocks.2.2⟩
  · rintro ⟨hhead, hbody, hrest⟩
    exact ⟨List.forall_mem_append.2 ⟨hbody.nodes, hrest.nodes⟩,
      List.forall_mem_cons.2 ⟨hhead, List.forall_mem_append.2 ⟨hbody.blocks, hrest.blocks⟩⟩⟩

/-- The graph follows the grammar. -/
structure GraphDraft.Named (draft : GraphDraft) : Prop where
  params : NamedParams draft.params
  returns : ∀ m ∈ draft.block.returns, IsValueName m.name
  body : BodyDraft.Named draft.body

/-! ### What the smallest parts give -/

namespace Reader

variable {α β : Type} {P : α → Prop} {Q : β → Prop}

theorem satisfy_gives (p : Char → Bool) : (satisfy p).Gives fun c => p c = true :=
  (follows_satisfy fun _ _ => trivial).mono fun _ _ h => h.1

theorem takeWhile_gives (p : Char → Bool) : (takeWhile p).Gives fun cs => ∀ c ∈ cs, p c = true :=
  (follows_takeWhile fun _ _ => trivial).mono fun _ _ h => h.1

/-- A run of at least one character is not empty. -/
theorem takeWhile1_gives (p : Char → Bool) :
    (takeWhile1 p).Gives fun cs => cs ≠ [] ∧ ∀ c ∈ cs, p c = true :=
  (satisfy_gives p).bind fun _ hfirst => (takeWhile_gives p).bind fun _ hmore =>
    yields_pure ⟨List.cons_ne_nil _ _, List.forall_mem_cons.2 ⟨hfirst, hmore⟩⟩

/-- What is read as a name is one. -/
theorem name_gives : name.Gives IsName :=
  (satisfy_gives _).bind fun first hfirst => (takeWhile_gives _).bind fun more hmore =>
    yields_pure ⟨first, more, String.toList_ofList, hfirst, hmore⟩

theorem mention_gives : mention.Gives fun m => IsValueName m.name := by
  refine gives_bind fun _ => gives_bind fun _ => (takeWhile1_gives _).bind fun cs hcs => yields_pure ?_
  rwa [IsValueName, String.toList_ofList]

theorem qualified_gives : qualified.Gives fun op => IsName op.dialect ∧ IsName op.name :=
  name_gives.bind fun _ hdialect => gives_bind fun _ => name_gives.bind fun _ hname =>
    yields_pure ⟨hdialect, hname⟩

/-! ### Types and constants -/

/-- Types are made of names at every depth. -/
theorem type_gives : ∀ depth : Nat, (type depth).Gives TypeTree.Writable
  | 0 => follows_fail
  | depth + 1 => by
    refine qualified_gives.bind fun head hhead => ?_
    refine ((type_gives depth).padded.separated.bracketed rfl rfl).optional.bind fun params hparams => ?_
    exact yields_pure ⟨hhead.1, hhead.2, TypeTree.allWritable_iff.2 (forall_mem_getD hparams)⟩

/-- A choice gives what its first alternative gives, or what the second one gives where the first one
fails. -/
theorem orElse_eq_done {p q : Reader α} {cursor next : Cursor} {a : α}
    (h : (p <|> q) cursor = .done a next) :
    p cursor = .done a next ∨ ((∃ stop, p cursor = .failed stop) ∧ q cursor = .done a next) := by
  change Reader.orElse p (fun _ => q) cursor = _ at h
  rw [Reader.orElse] at h
  split at h
  · rename_i value after hvalue
    exact Or.inl (hvalue.trans h)
  · rename_i stop hstop
    exact Or.inr ⟨⟨stop, hstop⟩, h⟩

/-- A sequence gives something only if both its parts do. -/
theorem bind_eq_done {p : Reader α} {q : α → Reader β} {cursor next : Cursor} {b : β}
    (h : (p >>= q) cursor = .done b next) :
    ∃ a middle, p cursor = .done a middle ∧ q a middle = .done b next := by
  change Reader.bind p q cursor = _ at h
  rw [Reader.bind] at h
  split at h
  · rename_i a middle ha
    exact ⟨a, middle, ha, h⟩
  · cases h

/-- A word that fails is not what the text begins with. -/
theorem not_prefix_of_word {w : String} {a : α} {cursor : Cursor} {stop : Nat}
    (h : (do word w; Pure.pure a : Reader α) cursor = .failed stop) :
    ¬w.toList <+: cursor.rest := by
  rintro ⟨more, hmore⟩
  obtain ⟨rest, offset⟩ := cursor
  obtain rfl : w.toList ++ more = rest := hmore
  have hread : Reads (do word w; Pure.pure a : Reader α) (w.toList ++ more) more fun _ => True :=
    (reads_word w).bind fun _ _ => reads_pure trivial
  obtain ⟨value, next, hdone, -⟩ := hread offset
  rw [hdone] at h
  exact nomatch h

theorem satisfy_eq_done {p : Char → Bool} {cursor next : Cursor} {c : Char}
    (h : satisfy p cursor = .done c next) : cursor.rest = c :: next.rest := by
  rw [satisfy] at h
  split at h
  · rename_i hrest
    split at h
    · cases h
      exact hrest
    · cases h
  · cases h

theorem char_eq_done {c : Char} {cursor next : Cursor} {u : Unit} (h : char c cursor = .done u next) :
    cursor.rest = c :: next.rest := by
  obtain ⟨d, after, hd, h⟩ := bind_eq_done h
  cases h
  rw [satisfy_eq_done hd, of_decide_eq_true ((satisfy_gives _).of_done hd)]

/-- Nothing is lost where a run is cut off. -/
theorem span_append (p : Char → Bool) : ∀ (text : List Char) (offset : Nat),
    (Cursor.span p text offset).1 ++ (Cursor.span p text offset).2.rest = text
  | [], _ => rfl
  | c :: cs, offset => by
    rw [Cursor.span]
    split
    · exact congrArg (c :: ·) (span_append p cs _)
    · rfl

/-- A name that was read stands at the beginning of what was left. -/
theorem name_eq_done {cursor next : Cursor} {s : String} (h : name cursor = .done s next) :
    cursor.rest = s.toList ++ next.rest := by
  obtain ⟨first, after, hfirst, h⟩ := bind_eq_done h
  obtain ⟨more, after', hmore, h⟩ := bind_eq_done h
  cases h
  cases hmore
  rw [satisfy_eq_done hfirst, String.toList_ofList, List.cons_append, span_append]

/-- A type that is read stands in the text with its dialect first and then the point. -/
theorem rest_of_type {depth : Nat} {cursor next : Cursor} {ty : TypeTree}
    (h : type (depth + 1) cursor = .done ty next) :
    ∃ more, cursor.rest = ty.dialect.toList ++ '.' :: more := by
  obtain ⟨head, after, hhead, h⟩ := bind_eq_done h
  obtain ⟨params, after', -, h⟩ := bind_eq_done h
  obtain ⟨dialect, after₁, hdialect, hhead⟩ := bind_eq_done hhead
  obtain ⟨u, after₂, hpoint, hhead⟩ := bind_eq_done hhead
  obtain ⟨n, after₃, -, hhead⟩ := bind_eq_done hhead
  cases hhead
  cases h
  refine ⟨after₂.rest, ?_⟩
  rw [name_eq_done hdialect, char_eq_done hpoint]
  rfl

/-- Whatever decimal is written, the nearest float is a number, perhaps an infinite one. -/
theorem float_gives : float.Gives Binary64.IsNumber := by
  refine gives_bind fun negative => gives_bind fun whole => gives_bind fun _ => ?_
  refine gives_bind fun fraction => gives_bind fun exponent => yields_pure ?_
  rw [Binary64.IsNumber, Binary64.code_bits _ (Binary64.ofDecimal_le _)]
  exact Binary64.ofDecimal_le _

/-- Types can be taken for words.  The words come first in the grammar, so a type that was read does not
begin with one of them. -/
theorem literal_gives : ∀ depth : Nat, (literal depth).Gives Literal.Named
  | 0 => follows_fail
  | depth + 1 => by
    have hlist : Reader.Gives (do return Literal.list (← bracketed '[' (separated (padded
        (literal depth))) ']')) Literal.Named :=
      ((literal_gives depth).padded.separated.bracketed rfl rfl).bind fun _ hnamed =>
        yields_pure (Literal.named_list.2 hnamed)
    have hfloat : Reader.Gives (do return Literal.float (← float)) Literal.Named :=
      float_gives.bind fun _ hbits => yields_pure ⟨nofun, List.forall_mem_singleton.2 hbits⟩
    refine gives_iff.2 fun cursor l next h => ?_
    rw [literal] at h
    obtain h | ⟨⟨_, htrue⟩, h⟩ := orElse_eq_done h
    · exact (gives_bind fun _ => yields_pure (Literal.named_of_nil rfl rfl)).of_done h
    obtain h | ⟨⟨_, hfalse⟩, h⟩ := orElse_eq_done h
    · exact (gives_bind fun _ => yields_pure (Literal.named_of_nil rfl rfl)).of_done h
    obtain h | ⟨⟨_, hunit⟩, h⟩ := orElse_eq_done h
    · exact (gives_bind fun _ => yields_pure (Literal.named_of_nil rfl rfl)).of_done h
    obtain h | ⟨-, h⟩ := orElse_eq_done h
    · exact (gives_bind fun _ => yields_pure (Literal.named_of_nil rfl rfl)).of_done h
    obtain h | ⟨-, h⟩ := orElse_eq_done h
    · exact hlist.of_done h
    obtain h | ⟨-, h⟩ := orElse_eq_done h
    · exact hfloat.of_done h
    obtain h | ⟨-, h⟩ := orElse_eq_done h
    · exact (gives_bind fun _ => yields_pure (Literal.named_of_nil rfl rfl)).of_done h
    -- only now is it a type, and none of the words stands at its beginning
    obtain ⟨ty, after, hty, h⟩ := bind_eq_done h
    cases h
    refine ⟨List.forall_mem_singleton.2 ⟨(type_gives _).of_done hty, fun w hw hprefix => ?_⟩, nofun⟩
    obtain ⟨more, hmore⟩ := rest_of_type hty
    have hrest := hprefix.trans (hmore ▸ List.prefix_append _ _)
    simp only [constantWords, List.mem_cons, List.not_mem_nil, or_false] at hw
    rcases hw with rfl | rfl | rfl
    · exact not_prefix_of_word htrue hrest
    · exact not_prefix_of_word hfalse hrest
    · exact not_prefix_of_word hunit hrest

/-! ### Nodes and blocks -/

/-- Keys are names, and constants can be written. -/
theorem attributes_gives (depth : Nat) :
    (attributes? depth).Gives fun es => ∀ e ∈ es, IsName e.1 ∧ e.2.Named := by
  have hentry : (entry depth).Gives fun e => IsName e.1 ∧ e.2.Named :=
    Yields.padded <| name_gives.bind fun _ hkey => gives_bind fun _ => gives_bind fun _ =>
      gives_bind fun _ => (literal_gives depth).bind fun _ hvalue => yields_pure ⟨hkey, hvalue⟩
  have hattributes : (attributes depth).Gives fun es => ∀ e ∈ es, IsName e.1 ∧ e.2.Named :=
    hentry.separated.bracketed rfl rfl
  exact (Yields.optional (gives_bind fun _ => hattributes)).bind fun _ h =>
    yields_pure (forall_mem_getD h)

theorem mentions_gives : mentions.Gives fun ms => ∀ m ∈ ms, IsValueName m.name :=
  mention_gives.padded.separated

theorem operands_gives : operands.Gives fun ms => ∀ m ∈ ms, IsValueName m.name :=
  mentions_gives.bracketed rfl rfl

theorem annotation_gives (depth : Nat) :
    (annotation? depth).Gives fun tys => ∀ ty ∈ tys, ty.Writable :=
  (Yields.optional (gives_bind fun _ => gives_bind fun _ => gives_bind fun _ =>
    (type_gives depth).padded.separated1)).bind fun _ h => yields_pure (forall_mem_getD h)

theorem params_gives (depth : Nat) : (params depth).Gives NamedParams := by
  have hparam : (param depth).Gives fun p => IsValueName p.1.name ∧ p.2.Writable :=
    Yields.padded <| mention_gives.bind fun _ hvalue => gives_bind fun _ => gives_bind fun _ =>
      gives_bind fun _ => (type_gives depth).bind fun _ hty => yields_pure ⟨hvalue, hty⟩
  exact hparam.separated.bracketed rfl rfl

/-- A node as it is read, before its results are known. -/
def NamedItem (item : NodeItem) : Prop :=
  ({ item.1 with results := [] } : NodeDraft).Named ∧ ArmsDraft.Named item.2

/-- A node with an operator has no arms. -/
theorem opNode_named (depth : Nat) : (opNode depth).Gives NamedItem := by
  refine qualified_gives.bind fun op hop => gives_bind fun _ => ?_
  refine operands_gives.bind fun operands hoperands => ?_
  refine (attributes_gives depth).bind fun attributes hattributes => ?_
  refine (annotation_gives depth).bind fun types htypes => yields_pure ⟨?_, ArmsDraft.named_done⟩
  exact ⟨hop, nofun, hoperands, hattributes, htypes, nofun, nofun⟩

/-- A raise has no types and no arms. -/
theorem raiseNode_named (depth : Nat) : (raiseNode depth).Gives NamedItem := by
  refine gives_bind fun _ => operands_gives.bind fun operands hoperands => ?_
  refine (attributes_gives depth).bind fun attributes hattributes =>
    yields_pure ⟨?_, ArmsDraft.named_done⟩
  exact ⟨trivial, nofun, hoperands, hattributes, nofun, nofun, fun _ => rfl⟩

section Block

variable {block : Reader (BlockDraft × BodyDraft)}
  (hblock : block.Gives fun b => b.1.Named ∧ BodyDraft.Named b.2)
include hblock

/-- A conditional has no attributes, and its two arms follow the grammar. -/
theorem conditional_named (depth : Nat) : (conditional depth block).Gives NamedItem := by
  refine gives_bind fun _ => operands_gives.bind fun operands hoperands => ?_
  refine (annotation_gives depth).bind fun types htypes => gives_bind fun _ => ?_
  refine hblock.bind fun ⟨first, firstBody⟩ hfirst => gives_bind fun _ => gives_bind fun _ => ?_
  refine hblock.bind fun ⟨second, secondBody⟩ hsecond => yields_pure ⟨?_, ?_⟩
  · exact ⟨trivial, nofun, hoperands, nofun, htypes, fun _ => rfl, nofun⟩
  · exact ArmsDraft.named_arm.2 ⟨hfirst.1, hfirst.2,
      ArmsDraft.named_arm.2 ⟨hsecond.1, hsecond.2, ArmsDraft.named_done⟩⟩

/-- Only the results of a node are missing before, and they are values. -/
theorem node_named (depth : Nat) :
    (node depth block).Gives fun item => item.1.Named ∧ ArmsDraft.Named item.2 := by
  have hresults : results.Gives fun ms => ∀ m ∈ ms, IsValueName m.name :=
    mention_gives.padded.separated1.bind fun _ h => gives_bind fun _ => yields_pure h
  refine hresults.optional.bind fun results hresults => gives_bind fun _ => ?_
  refine Yields.bind ((opNode_named depth).orElse
    ((conditional_named hblock depth).orElse (raiseNode_named depth))) fun ⟨head, arms⟩ h => ?_
  refine yields_pure ⟨?_, h.2⟩
  exact { h.1 with results := forall_mem_getD hresults }

/-- The items of a block follow the grammar, up to the return that ends it. -/
theorem items_named (depth : Nat) : ∀ budget : List Char, (items (item depth block) budget).Gives
    fun b => BodyDraft.Named b.1 ∧ ∀ m ∈ b.2, IsValueName m.name
  | [] => follows_fail
  | _ :: budget => by
    refine gives_bind fun _ => gives_bind fun closed => ?_
    split
    · exact yields_pure ⟨BodyDraft.named_done, nofun⟩
    · have hitem : (item depth block).Gives fun
          | .node item => item.1.Named ∧ ArmsDraft.Named item.2
          | .returns values => ∀ m ∈ values, IsValueName m.name :=
        Follows.orElse ((node_named hblock depth).bind fun _ h => yields_pure h)
          (gives_bind fun _ => mentions_gives.bind fun _ h => yields_pure h)
      refine hitem.bind fun item h => ?_
      split
      · refine (items_named depth budget).bind fun ⟨rest, returns⟩ hrest => yields_pure ?_
        exact ⟨BodyDraft.named_node.2 ⟨h.1, h.2, hrest.1⟩, hrest.2⟩
      · exact gives_bind fun _ => yields_pure ⟨BodyDraft.named_done, h⟩

end Block

/-- At every depth of nesting, blocks follow the grammar. -/
theorem block_named (depth : Nat) : ∀ nesting : Nat,
    (block depth nesting).Gives fun b => b.1.Named ∧ BodyDraft.Named b.2
  | 0 => follows_fail
  | nesting + 1 => by
    refine gives_bind fun _ => gives_bind fun _ => ?_
    have hparams : Gives (do char '^'; params depth) NamedParams := gives_bind fun _ => params_gives depth
    refine hparams.optional.bind fun params hparams => ?_
    have hitems := follows_rest (items_named (block_named depth nesting) depth)
    refine Yields.bind hitems fun ⟨body, returns⟩ h => gives_bind fun _ => yields_pure ⟨⟨?_, h.2⟩, h.1⟩
    exact forall_mem_getD hparams

theorem graph_named (depth : Nat) : (graph depth).Gives GraphDraft.Named := by
  refine Yields.padded (gives_bind fun _ => (params_gives depth).bind fun params hparams => ?_)
  refine gives_bind fun _ => (block_named depth depth).bind fun ⟨block, body⟩ h => yields_pure ?_
  exact ⟨hparams, h.1.returns, h.2⟩

end Reader

/-- What is read follows the grammar. -/
theorem GraphDraft.named_of_ofText {source : String} {draft : GraphDraft}
    (h : GraphDraft.ofText source = .ok draft) : draft.Named := by
  rw [GraphDraft.ofText] at h
  split at h
  · cases h
  · rename_i hgraph
    split at h
    · obtain rfl := Except.ok.inj h
      exact (Reader.graph_named _).of_done hgraph
    · cases h

end Text

end Unguard
