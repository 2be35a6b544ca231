import Mathlib.Logic.Relation
import Unguard.Proofs.Copying
import Unguard.Proofs.Edits
import Unguard.Proofs.Reading

/-!
# What basic edits make

Copying and erasing are edits on a large scale, and so is building a graph from a draft.  Copying and
building change the tables by effects that take their preconditions for granted.  Here it is shown that
the preconditions are always met: each of these is a sequence of basic edits, every one of which checks
what it needs and goes through (`Graph.editedTo_copy`, `Graph.editedTo_erase`, `Graph.editedTo_ofText`).

The precondition that matters is that of a new node: the blocks it will own exist, are different, and
have no owner.  They were made just before, which is what `Graph.GrowsArms` says.
-/

namespace Unguard

/-- Copying and erasing are made of the other edits. -/
def Edit.IsBasic : Edit → Prop
  | .copy _ _ | .erase _ => False
  | _ => True

namespace Graph

/-- One basic edit leads from `g` to `g'`. -/
def StepsTo (g g' : Graph) : Prop :=
  ∃ e : Edit, e.IsBasic ∧ e.apply g = .ok g'

/-- Basic edits lead from `g` to `g'`. -/
def EditedTo : Graph → Graph → Prop :=
  Relation.ReflTransGen StepsTo

variable {g g₀ g' : Graph}

theorem EditedTo.refl (g : Graph) : g.EditedTo g :=
  Relation.ReflTransGen.refl

/-- A graph to which basic edits lead is what some list of them makes of the graph they start with. -/
theorem EditedTo.exists_edits (h : g₀.EditedTo g) :
    ∃ edits : List Edit, (∀ e ∈ edits, e.IsBasic) ∧ edits.foldlM Edit.apply g₀ = .ok g := by
  induction h with
  | refl => exact ⟨[], nofun, rfl⟩
  | tail _ hstep ih =>
    obtain ⟨edits, hbasic, hedits⟩ := ih
    obtain ⟨e, he, happly⟩ := hstep
    refine ⟨edits ++ [e], fun d hd => ?_, ?_⟩
    · rcases List.mem_append.1 hd with hd | hd
      · exact hbasic d hd
      · exact List.mem_singleton.1 hd ▸ he
    · rw [List.foldlM_append, hedits, ok_bind, List.foldlM_cons, happly]
      rfl

/-- What basic edits keep is kept along the way. -/
theorem EditedTo.keeps {P : Graph → Prop} (h : g₀.EditedTo g)
    (hP : ∀ {g g' : Graph} (e : Edit), e.IsBasic → P g → e.apply g = .ok g' → P g') (h₀ : P g₀) :
    P g := by
  induction h with
  | refl => exact h₀
  | tail _ hstep ih =>
    obtain ⟨e, he, happly⟩ := hstep
    exact hP e he ih happly

/-! ### Effects whose preconditions are met -/

namespace EditedTo

theorem edit (h : g₀.EditedTo g) (e : Edit) (he : e.IsBasic) (happly : e.apply g = .ok g') :
    g₀.EditedTo g' :=
  Relation.ReflTransGen.tail h ⟨e, he, happly⟩

theorem newBlock (h : g₀.EditedTo g) : g₀.EditedTo g.newBlock.2 :=
  h.edit .newBlock trivial rfl

/-- The effect of an edit can be had by the edit, if what it asks for is there. -/
theorem allocParam (h : g₀.EditedTo g) {b : BlockId} (hb : b.index < g.blocks.size) (label : Label) :
    g₀.EditedTo (g.allocParam b label).2 := by
  obtain ⟨block, hblock⟩ := g.exists_block? hb
  refine h.edit (.newParam b label) trivial ?_
  rw [Edit.apply, newParam, g.block_eq_ok_iff.2 hblock]
  rfl

theorem assignReturns (h : g₀.EditedTo g) {b : BlockId} (hb : b.index < g.blocks.size)
    (values : List ValueId) : g₀.EditedTo (g.assignReturns b values) := by
  obtain ⟨block, hblock⟩ := g.exists_block? hb
  refine h.edit (.setReturns b values) trivial ?_
  rw [Edit.apply, setReturns, g.block_eq_ok_iff.2 hblock]
  rfl

/-- A node that stands nowhere yet can be appended. -/
theorem attachLast (h : g₀.EditedTo g) {b : BlockId} {n : NodeId} {node : Node}
    (hb : b.index < g.blocks.size) (hnode : g.node? n = some node) (hparent : node.parent = none) :
    g₀.EditedTo (g.attachLast b n) := by
  obtain ⟨block, hblock⟩ := g.exists_block? hb
  refine h.edit (.append b n) trivial ?_
  rw [Edit.apply, append, g.node_eq_ok_iff.2 hnode, ok_bind, hparent]
  dsimp only
  rw [g.block_eq_ok_iff.2 hblock]
  rfl

end EditedTo

/-- Blocks can be owned exactly if they exist, are free and different from each other. -/
theorem ownershipFault?_eq_none_iff {n : NodeId} : ∀ {bs taken : List BlockId},
    g.ownershipFault? n taken bs = none ↔
      (∀ b ∈ bs, b ≠ top ∧ ∃ block, g.block? b = some block ∧ block.owner = none) ∧
        (∀ b ∈ bs, b ∉ taken) ∧ bs.Nodup
  | [], _ => by simp [ownershipFault?]
  | b :: bs, taken => by
    have ih := @ownershipFault?_eq_none_iff n bs (b :: taken)
    rw [ownershipFault?, List.forall_mem_cons, List.forall_mem_cons, List.nodup_cons]
    by_cases htop : b = top
    · simp [htop]
    rw [if_neg htop]
    cases hblock : g.block? b with
    | none => simp
    | some block =>
      by_cases htaken : b ∈ taken
      · simp [htaken]
      cases howner : block.owner with
      | some owner => simp [htaken, howner]
      | none =>
        simp only [htaken, if_false, ih, List.mem_cons, not_or, ne_eq, htop, not_false_eq_true,
          Option.some.injEq, exists_eq_left', howner, true_and]
        -- The blocks after `b` are looked at with `b` among the taken ones, so none of them is `b`.
        constructor
        · rintro ⟨hfree, hnot, hnodup⟩
          exact ⟨hfree, fun c hc => (hnot c hc).2, fun hin => (hnot b hin).1 rfl, hnodup⟩
        · rintro ⟨hfree, hnot, hin, hnodup⟩
          exact ⟨hfree, fun c hc => ⟨fun heq => hin (heq ▸ hc), hnot c hc⟩, hnodup⟩

/-- Blocks that have just been made can be owned by a new node. -/
theorem GrowsArms.editedTo_allocNode {g₁ : Graph} {arms : BlockTrees} {spec : NodeSpec}
    (h : GrowsArms arms g g₁) (hpos : 0 < g.blocks.size) (hblocks : spec.blocks = arms.headIds)
    (hedited : g₀.EditedTo g₁) : g₀.EditedTo (g₁.allocNode spec).2 := by
  have hblockIds : arms.blockIds.Nodup :=
    h.extension.blockIds.nodup_iff.2 (nodup_newIds BlockId.mk_injective)
  have hfault : g₁.ownershipFault? ⟨g₁.nodes.size⟩ [] spec.blocks = none := by
    rw [hblocks]
    refine ownershipFault?_eq_none_iff.2 ⟨fun b hb => ⟨fun htop => ?_, h.stand.exists_head hb⟩,
      fun _ _ => List.not_mem_nil, Arms.headIds_sublist_blockIds.nodup hblockIds⟩
    have hle := (h.extension.index_of_mem_blockIds (Arms.headIds_subset_blockIds hb)).1
    rw [htop] at hle
    exact absurd hle (Nat.not_le.2 hpos)
  refine hedited.edit (.newNode spec) trivial ?_
  rw [Edit.apply, newNode, hfault]
  rfl

/-- A node over its blocks, at the end of block `b`. -/
theorem GrowsArms.editedTo_node {g₁ : Graph} {arms : BlockTrees} {spec : NodeSpec} {b : BlockId}
    (h : GrowsArms arms g g₁) (hb : b.index < g.blocks.size) (hblocks : spec.blocks = arms.headIds)
    (hedited : g₀.EditedTo g₁) :
    g₀.EditedTo ((g₁.allocNode spec).2.attachLast b ⟨g₁.nodes.size⟩) := by
  have hnode := h.editedTo_allocNode (Nat.lt_of_le_of_lt (Nat.zero_le _) hb) hblocks hedited
  refine hnode.attachLast ?_ (show _ = some (newEntry g₁ spec) from ?_) rfl
  · rw [size_blocks_allocNode]
    exact Nat.lt_of_lt_of_le hb h.extension.blocks_le
  · rw [node?_allocNode, if_pos rfl]

/-! ### Erasing -/

/-- Erasing is made of basic edits, so nothing has to be shown of it as a whole. -/
theorem keptByErasing_editedTo (g₀ : Graph) : KeptByErasing g₀.EditedTo where
  detach h hok := h.edit (.detach _) trivial hok
  clearReturns h hok := h.edit (.setReturns _ _) trivial hok
  release h hok := h.edit (.release _) trivial hok
  remove h hok := h.edit (.remove _) trivial hok

theorem editedTo_erase {n : NodeId} (h : g.erase n = .ok g') : g.EditedTo g' :=
  (keptByErasing_editedTo g).erase (EditedTo.refl g) h

end Graph

/-! ### Copying -/

namespace Copying

open Unguard.Graph

variable {g₀ : Graph}

/-- The parameters of a copy are new parameters, one after another. -/
theorem copyParams_edited {g : Graph} : ∀ (params : List ValueId) {made : List ValueId} {c : Copying},
    g₀.EditedTo c.graph → Opened made g c.graph →
    g₀.EditedTo (c.copyParams ⟨g.blocks.size⟩ params).graph ∧
      ∃ new, Opened new g (c.copyParams ⟨g.blocks.size⟩ params).graph
  | [], made, c, h, ho => ⟨h, made, ho⟩
  | v :: params, made, c, h, ho => by
    have hlt := ho.index_lt
    exact copyParams_edited params (c := ⟨_, c.subst.insert v ⟨c.graph.values.size⟩⟩)
      (h.allocParam hlt (c.graph.labelOf v)) (ho.allocParam (c.graph.labelOf v))

mutual

/-- Copies of nodes, whatever they hold, are made by basic edits. -/
theorem copyNodes_edited : ∀ (body : NodeTrees) {c : Copying} {b : BlockId}, g₀.EditedTo c.graph →
    b.index < c.graph.blocks.size → g₀.EditedTo (c.copyNodes b body).graph ∧
      ∃ body', Grows b (· ++ body'.headIds) body' c.graph (c.copyNodes b body).graph
  | .done, c, b, h, _ => ⟨h, .done, by simpa [copyNodes] using Grows.done c.graph b⟩
  | .node head arms rest, c, b, h, hb => by
    have hpos : 0 < c.graph.blocks.size := Nat.lt_of_le_of_lt (Nat.zero_le _) hb
    -- The blocks of the node are copied before the node, which is then put at the end of `b`.
    obtain ⟨harms, arms', hgrows, hblocks⟩ := copyArms_edited arms h hpos
    set c₁ := (c.copyArms arms).2
    set spec := c₁.headSpec head (head.inputs.map c.subst.resolve) arms'.headIds with hspec
    have hnode := hgrows.editedTo_node hb (show spec.blocks = arms'.headIds from rfl) harms
    have hgrows' := hgrows.node (show spec.blocks = arms'.headIds from rfl) hb
      (placed_attachLast _ b ⟨c₁.graph.nodes.size⟩)
    -- The rest is copied under the names that the copy of the node has added.
    obtain ⟨hrest, rest', hgrowsRest⟩ := copyNodes_edited rest
      (c := ⟨(c₁.graph.allocNode spec).2.attachLast b ⟨c₁.graph.nodes.size⟩,
        c₁.subst.insertAll head.outputs (c₁.graph.newOutputs spec)⟩) hnode
      (Nat.lt_of_lt_of_le hb hgrows'.extension.blocks_le)
    have hstep : c.copyNodes b (.node head arms rest) =
        copyNodes ⟨(c₁.graph.allocNode spec).2.attachLast b ⟨c₁.graph.nodes.size⟩,
          c₁.subst.insertAll head.outputs (c₁.graph.newOutputs spec)⟩ b rest := by
      have hhead := c₁.copyHead_eq head (head.inputs.map c.subst.resolve) arms'.headIds
      rw [← hblocks] at hhead
      change copyNodes ⟨(c₁.copyHead head (head.inputs.map c.subst.resolve) _).2.graph.attachLast b _,
        (c₁.copyHead head (head.inputs.map c.subst.resolve) _).2.subst⟩ b rest = _
      rw [hhead, hspec, hblocks]
    have hall := hgrows'.trans hgrowsRest hb
    simp only [List.append_assoc] at hall
    rw [hstep]
    exact ⟨hrest, Body.node (c₁.graph.newView spec) arms' rest', hall⟩

/-- Copies of blocks are opened, filled and closed by basic edits. -/
theorem copyArms_edited : ∀ (arms : BlockTrees) {c : Copying}, g₀.EditedTo c.graph →
    0 < c.graph.blocks.size → g₀.EditedTo (c.copyArms arms).2.graph ∧
      ∃ arms', GrowsArms arms' c.graph (c.copyArms arms).2.graph ∧
        (c.copyArms arms).1 = arms'.headIds
  | .done, c, h, _ => ⟨h, .done, GrowsArms.done c.graph, rfl⟩
  | .arm head body rest, c, h, hpos => by
    obtain ⟨hparams, params, hopened⟩ := copyParams_edited head.params
      (c := ⟨c.graph.newBlock.2, c.subst⟩) h.newBlock (opened_newBlock c.graph)
    set c₁ := copyParams ⟨c.graph.newBlock.2, c.subst⟩ ⟨c.graph.blocks.size⟩ head.params
    have hlt := hopened.index_lt
    obtain ⟨hbody, body', hgrows⟩ := copyNodes_edited body hparams hlt
    set c₂ := c₁.copyNodes ⟨c.graph.blocks.size⟩ body
    have hlt₂ := Nat.lt_of_lt_of_le hlt hgrows.extension.blocks_le
    have harm := Grows.arm hopened hgrows (List.nil_append _) (head.returns.map c₂.subst.resolve)
    obtain ⟨hrest, rest', hgrowsRest, hblocks⟩ := copyArms_edited rest
      (c := ⟨c₂.graph.assignReturns ⟨c.graph.blocks.size⟩ (head.returns.map c₂.subst.resolve),
        c₂.subst⟩) (hbody.assignReturns hlt₂ _)
      (Nat.lt_of_lt_of_le hpos harm.extension.blocks_le)
    exact ⟨hrest, _, harm.append hgrowsRest,
      congrArg (List.cons (BlockId.mk c.graph.blocks.size)) hblocks⟩

end

theorem copyNode_edited {c : Copying} (h : g₀.EditedTo c.graph) (hpos : 0 < c.graph.blocks.size)
    (head : NodeView) (arms : BlockTrees) : g₀.EditedTo (c.copyNode head arms).2.graph := by
  obtain ⟨harms, arms', hgrows, hblocks⟩ := copyArms_edited arms h hpos
  set c₁ := (c.copyArms arms).2
  change g₀.EditedTo (c₁.copyHead head (head.inputs.map c.subst.resolve) _).2.graph
  rw [hblocks, copyHead_eq]
  exact hgrows.editedTo_allocNode hpos rfl harms

end Copying

/-- A copy is made by basic edits. -/
theorem Graph.editedTo_copy {g : Graph} {n m : NodeId} {names : Renaming} {c : Copying}
    (hpos : 0 < g.blocks.size) (h : g.copy n names = .ok (m, c)) : g.EditedTo c.graph := by
  obtain ⟨node, -, h⟩ := bind_eq_ok_iff.1 h
  obtain ⟨arms, -, h⟩ := bind_eq_ok_iff.1 h
  have hc : (Copying.copyNode ⟨g, names⟩ (node.view n) arms).2 = c :=
    congrArg Prod.snd (Except.ok.inj h)
  rw [← hc]
  exact Copying.copyNode_edited (c := ⟨g, names⟩) (Graph.EditedTo.refl g) hpos _ _

/-! ### Building -/

namespace Graph.EditedTo

variable {g₀ g : Graph}

theorem intern {t : TypeTable} (h : g₀.EditedTo { g with types := t }) (entry : TypeEntry) :
    g₀.EditedTo { g with types := (t.intern entry).2 } :=
  h.edit (.internType entry) trivial rfl

mutual

/-- A type is interned after its parameters, each by an edit of its own. -/
theorem internTree : ∀ {t : TypeTable}, g₀.EditedTo { g with types := t } → ∀ tree : TypeTree,
    g₀.EditedTo { g with types := (t.internTree tree).2 }
  | _, h, .mk _ _ params => (internTrees h params).intern _

theorem internTrees : ∀ {t : TypeTable}, g₀.EditedTo { g with types := t } →
    ∀ trees : List TypeTree, g₀.EditedTo { g with types := (t.internTrees trees).2 }
  | _, h, [] => h
  | _, h, tree :: trees => internTrees (internTree h tree) trees

end

open Text

mutual

theorem internLiteral : ∀ {t : TypeTable}, g₀.EditedTo { g with types := t } → ∀ l : Literal,
    g₀.EditedTo { g with types := (l.intern t).2 }
  | _, h, .unit | _, h, .bool _ | _, h, .int _ | _, h, .float _ | _, h, .string _ => h
  | _, h, .type ty => h.internTree ty
  | _, h, .list items => internLiterals h items

theorem internLiterals : ∀ {t : TypeTable}, g₀.EditedTo { g with types := t } →
    ∀ ls : List Literal, g₀.EditedTo { g with types := (Literal.internAll t ls).2 }
  | _, h, [] => h
  | _, h, l :: ls => internLiterals (internLiteral h l) ls

end

theorem internAttributes : ∀ {t : TypeTable}, g₀.EditedTo { g with types := t } →
    ∀ es : List (String × Literal), g₀.EditedTo { g with types := (Text.internAttributes t es).2 }
  | _, h, [] => h
  | _, h, (_, l) :: es => internAttributes (h.internLiteral l) es

theorem internLabels : ∀ {t : TypeTable}, g₀.EditedTo { g with types := t } →
    ∀ (ms : List Mention) (tys : List TypeTree),
      g₀.EditedTo { g with types := (Text.internLabels t ms tys).2 }
  | _, h, [], _ => h
  | _, h, _ :: _, [] => h
  | _, h, _ :: ms, ty :: tys => internLabels (h.internTree ty) ms tys

end Graph.EditedTo

namespace Text

open Unguard.Graph

variable {g₀ : Graph}

theorem buildParams_edited : ∀ {params : List (Mention × TypeTree)} {g g' : Graph}
    {scope scope' : Scope} {b : BlockId}, buildParams g scope b params = .ok (g', scope') →
    g₀.EditedTo g → b.index < g.blocks.size → g₀.EditedTo g'
  | [], g, g', scope, scope', b, h, hedited, _ => by
    cases h
    exact hedited
  | (m, ty) :: params, g, g', scope, scope', b, h, hedited, hb => by
    rw [buildParams] at h
    obtain ⟨scope₁, -, h⟩ := bind_eq_ok_iff.1 h
    have htypes : g₀.EditedTo { g with types := (g.types.internTree ty).2 } := hedited.internTree ty
    refine buildParams_edited h (htypes.allocParam hb _) ?_
    rwa [size_blocks_modifyBlock]

mutual

/-- What a draft describes is built by basic edits, from the inside out. -/
theorem buildNodes_edited : ∀ {draft : BodyDraft} {g g' : Graph} {scope scope' : Scope} {b : BlockId},
    buildNodes g scope b draft = .ok (g', scope') → g₀.EditedTo g → b.index < g.blocks.size →
    g.Mirrored → g₀.EditedTo g'
  | .done, g, g', scope, scope', b, h, hedited, _, _ => by
    cases h
    exact hedited
  | .node head arms rest, g, g', scope, scope', b, h, hedited, hb, hm => by
    obtain ⟨-, inputs, -, blocks, g₁, harms, scope₁, -, h⟩ := buildNodes_node_iff.1 h
    have hpos : 0 < g.blocks.size := Nat.lt_of_le_of_lt (Nat.zero_le _) hb
    have hedited₁ := buildArms_edited harms
      ((hedited.internAttributes head.attributes).internLabels head.results head.types) hpos
      (hm.withTypes _)
    obtain ⟨arms', rfl, hbuilt⟩ := buildArms_built harms (hm.withTypes _)
    have hbuilt := hbuilt.ofTypes
    have hblocks : (head.spec g.types inputs arms'.headIds).blocks = arms'.headIds := rfl
    have hnode := hbuilt.grows.editedTo_node hb hblocks hedited₁
    exact buildNodes_edited h hnode (hbuilt.index_lt_withNode hb) (hbuilt.mirrored_withNode b)

theorem buildArms_edited : ∀ {draft : ArmsDraft} {g g' : Graph} {scope : Scope}
    {blocks : List BlockId}, buildArms g scope draft = .ok (blocks, g') → g₀.EditedTo g →
    0 < g.blocks.size → g.Mirrored → g₀.EditedTo g'
  | .done, g, g', scope, blocks, h, hedited, _, _ => by
    cases h
    exact hedited
  | .arm head body rest, g, g', scope, blocks, h, hedited, hpos, hm => by
    obtain ⟨g₁, scope₁, hparams, g₂, scope₂, hbody, returns, -, more, hrest, -⟩ :=
      buildArms_arm_iff.1 h
    obtain ⟨params, hopened, hm₁, -⟩ := buildParams_opened (opened_newBlock g) hm.newBlock hparams
    have hlt := hopened.index_lt
    have hparamsEdited := buildParams_edited hparams hedited.newBlock (opened_newBlock g).index_lt
    have hedited₂ := buildNodes_edited hbody hparamsEdited hlt hm₁
    obtain ⟨body', hbuilt⟩ := buildNodes_built hbody hlt hm₁
    have hlt₂ := Nat.lt_of_lt_of_le hlt hbuilt.grows.extension.blocks_le
    refine buildArms_edited hrest (hedited₂.assignReturns hlt₂ returns) ?_
      (hbuilt.mirrored.assignReturns _ _)
    rw [size_blocks_assignReturns]
    exact Nat.lt_of_le_of_lt (Nat.zero_le _) hlt₂

end

theorem GraphDraft.build_edited {draft : GraphDraft} {g : Graph} (h : draft.build = .ok g) :
    Graph.empty.EditedTo g := by
  obtain ⟨g₁, scope₁, hparams, g₂, scope₂, hbody, returns, -, more, hrest, -⟩ :=
    buildArms_arm_iff.1 (GraphDraft.build_eq_ok_iff.1 h)
  cases hrest
  obtain ⟨params, hopened, hm, -⟩ := buildParams_opened (opened_newBlock void) mirrored_empty hparams
  have hlt := hopened.index_lt
  have hedited := buildNodes_edited hbody
    (buildParams_edited hparams (EditedTo.refl empty) Nat.zero_lt_one) hlt hm
  obtain ⟨body, hbuilt⟩ := buildNodes_built hbody hlt hm
  exact hedited.assignReturns (Nat.lt_of_lt_of_le hlt hbuilt.grows.extension.blocks_le) returns

end Text

/-- Every graph that was read can be built from nothing by basic edits. -/
theorem Graph.editedTo_ofText {source : String} {g : Graph} (h : Graph.ofText source = .ok g) :
    Graph.empty.EditedTo g := by
  rw [Graph.ofText] at h
  obtain ⟨draft, -, h⟩ := bind_eq_ok_iff.1 h
  exact Text.GraphDraft.build_edited h

end Unguard
