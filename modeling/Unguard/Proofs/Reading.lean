import Unguard.Proofs.Building
import Unguard.Proofs.Conditionals
import Unguard.Proofs.Growing
import Unguard.Proofs.Trails

/-!
# What is read from a text

A graph that was read represents a tree, the tree is well-formed, conditionals in it have two arms and
other nodes none (`Graph.ofText_represents`).

The last comes from the grammar: `Reader.Gives` says what a reader can give, and is followed through
the readers of nodes and blocks.  The rest comes from how a draft is built: scopes hold values that are
visible, and what is built stands as the draft has it.
-/

namespace Unguard

/-! ### The shape of drafts -/

section Proper

variable {ν β ν' β' : Type}

mutual

/-- Conditionals have two arms, other nodes none. -/
def Body.Proper (kind : ν → Kind) : Body ν β → Prop
  | .done => True
  | .node head arms rest =>
    (if kind head = .conditional then arms.heads.length = 2 else arms.heads = []) ∧
      arms.Proper kind ∧ rest.Proper kind

@[inherit_doc Body.Proper]
def Arms.Proper (kind : ν → Kind) : Arms ν β → Prop
  | .done => True
  | .arm _ body rest => body.Proper kind ∧ rest.Proper kind

end

mutual

/-- Only the kinds of the nodes matter. -/
theorem Body.proper_of_map_eq {kind : ν → Kind} {kind' : ν' → Kind} {k : β → Unit} {k' : β' → Unit} :
    ∀ {body : Body ν β} {body' : Body ν' β'}, body.map kind k = body'.map kind' k' →
    body.Proper kind → body'.Proper kind'
  | .done, .done, _, _ => trivial
  | .done, .node _ _ _, h, _ => nomatch h
  | .node _ _ _, .done, h, _ => nomatch h
  | .node x xs a, .node y ys b, h, ⟨hx, hxs, ha⟩ => by
    simp only [Body.map, Body.node.injEq] at h
    obtain ⟨hxy, harms, hrest⟩ := h
    have hheads := congrArg Arms.heads harms
    rw [Arms.heads_map, Arms.heads_map] at hheads
    refine ⟨?_, Arms.proper_of_map_eq harms hxs, Body.proper_of_map_eq hrest ha⟩
    rw [← hxy]
    split at hx
    · rename_i hkind
      rw [if_pos hkind, ← List.length_map (f := k'), ← hheads, List.length_map]
      exact hx
    · rename_i hkind
      rw [if_neg hkind, ← List.map_eq_nil_iff (f := k'), ← hheads, hx]
      rfl

@[inherit_doc Body.proper_of_map_eq]
theorem Arms.proper_of_map_eq {kind : ν → Kind} {kind' : ν' → Kind} {k : β → Unit} {k' : β' → Unit} :
    ∀ {arms : Arms ν β} {arms' : Arms ν' β'}, arms.map kind k = arms'.map kind' k' →
    arms.Proper kind → arms'.Proper kind'
  | .done, .done, _, _ => trivial
  | .done, .arm _ _ _, h, _ => nomatch h
  | .arm _ _ _, .done, h, _ => nomatch h
  | .arm x xs a, .arm y ys b, h, ⟨hxs, ha⟩ => by
    simp only [Arms.map, Arms.arm.injEq] at h
    exact ⟨Body.proper_of_map_eq h.2.1 hxs, Arms.proper_of_map_eq h.2.2 ha⟩

end

end Proper

mutual

/-- What holds at the outermost level holds at every depth. -/
theorem Body.Proper.allNodes : ∀ {body : NodeTrees}, body.Proper NodeView.kind →
    ∀ p ∈ body.subtrees, if p.1.kind = .conditional then p.2.heads.length = 2 else p.2.heads = []
  | .node head arms rest, ⟨hhead, harms, hrest⟩, p, hp => by
    rw [Body.subtrees, List.mem_cons, List.mem_append] at hp
    rcases hp with rfl | hp | hp
    · exact hhead
    · exact harms.shaped p hp
    · exact hrest.allNodes p hp

theorem Arms.Proper.shaped : ∀ {arms : BlockTrees}, arms.Proper NodeView.kind → arms.Shaped
  | .arm head body rest, ⟨hbody, hrest⟩, p, hp => by
    rw [Arms.subtrees, List.mem_append] at hp
    rcases hp with hp | hp
    · exact hbody.allNodes p hp
    · exact hrest.shaped p hp

end

namespace Text.Reader

/-- A node with an operator has no arms. -/
theorem opNode_gives (depth : Nat) : (opNode depth).Gives fun item =>
    (Body.node item.1 item.2 .done).Proper NodeDraft.kind := by
  refine gives_bind fun op => gives_bind fun _ => gives_bind fun operands => gives_bind fun attributes =>
    gives_bind fun types => yields_pure ⟨?_, trivial, trivial⟩
  rw [if_neg nofun]
  rfl

theorem raiseNode_gives (depth : Nat) : (raiseNode depth).Gives fun item =>
    (Body.node item.1 item.2 .done).Proper NodeDraft.kind := by
  refine gives_bind fun _ => gives_bind fun operands => gives_bind fun attributes =>
    yields_pure ⟨?_, trivial, trivial⟩
  rw [if_neg nofun]
  rfl

section Block

variable {block : Reader (BlockDraft × BodyDraft)} (hblock : block.Gives fun b =>
  b.2.Proper NodeDraft.kind)
include hblock

/-- A conditional has two arms, with what was read in them. -/
theorem conditional_gives (depth : Nat) : (conditional depth block).Gives fun item =>
    (Body.node item.1 item.2 .done).Proper NodeDraft.kind := by
  refine gives_bind fun _ => gives_bind fun operands => gives_bind fun types => gives_bind fun _ => ?_
  refine hblock.bind fun ⟨first, firstBody⟩ hfirst => gives_bind fun _ => gives_bind fun _ => ?_
  refine hblock.bind fun ⟨second, secondBody⟩ hsecond => yields_pure ?_
  exact ⟨rfl, ⟨hfirst, hsecond, trivial⟩, trivial⟩

theorem node_gives (depth : Nat) : (node depth block).Gives fun item =>
    (Body.node item.1 item.2 .done).Proper NodeDraft.kind := by
  refine gives_bind fun results => gives_bind fun _ => ?_
  refine Yields.bind ((opNode_gives depth).orElse
    ((conditional_gives hblock depth).orElse (raiseNode_gives depth))) fun ⟨head, arms⟩ h => ?_
  exact yields_pure h

/-- Whether there is a return at the end does not matter to the nodes before it. -/
theorem items_gives (depth : Nat) : ∀ budget : List Char, (items (item depth block) budget).Gives
    fun b => b.1.Proper NodeDraft.kind
  | [] => follows_fail
  | _ :: budget => by
    refine gives_bind fun _ => gives_bind fun closed => ?_
    split
    · exact yields_pure trivial
    · have hitem : (item depth block).Gives fun
          | .node item => (Body.node item.1 item.2 .done).Proper NodeDraft.kind
          | .returns _ => True :=
        Follows.orElse ((node_gives hblock depth).bind fun _ h => yields_pure h)
          (gives_bind fun _ => gives_bind fun _ => yields_pure trivial)
      refine hitem.bind fun item h => ?_
      split
      · rename_i head arms
        refine (items_gives depth budget).bind fun ⟨rest, returns⟩ hrest => yields_pure ?_
        exact ⟨h.1, h.2.1, hrest⟩
      · exact gives_bind fun _ => yields_pure trivial

end Block

/-- At every depth of nesting, conditionals have two arms and other nodes none. -/
theorem block_gives (depth : Nat) : ∀ nesting : Nat, (block depth nesting).Gives fun b =>
    b.2.Proper NodeDraft.kind
  | 0 => follows_fail
  | nesting + 1 => by
    refine gives_bind fun _ => gives_bind fun _ => gives_bind fun params => ?_
    have hitems := follows_rest (items_gives (block_gives depth nesting) depth)
    exact Yields.bind hitems fun ⟨body, returns⟩ h => gives_bind fun _ => yields_pure h

theorem graph_gives (depth : Nat) : (graph depth).Gives fun draft =>
    draft.body.Proper NodeDraft.kind := by
  refine gives_bind fun _ => ?_
  refine Yields.bind (P := fun draft : GraphDraft => draft.body.Proper NodeDraft.kind) ?_
    fun _ h => gives_bind fun _ => yields_pure h
  refine gives_bind fun _ => gives_bind fun params => gives_bind fun _ => ?_
  exact (block_gives depth depth).bind fun ⟨block, body⟩ h => yields_pure h

end Text.Reader

/-- In a draft that was read, conditionals have two arms and other nodes none. -/
theorem Text.GraphDraft.proper_of_ofText {source : String} {draft : Text.GraphDraft}
    (h : Text.GraphDraft.ofText source = .ok draft) : draft.body.Proper Text.NodeDraft.kind := by
  rw [Text.GraphDraft.ofText] at h
  split at h
  · exact nomatch h
  · rename_i hgraph
    split at h
    · obtain rfl := Except.ok.inj h
      exact (Text.Reader.graph_gives _).of_done hgraph
    · exact nomatch h

/-! ### Building -/

namespace Graph

variable {g g' : Graph}

/-- Types do not matter to what stands in a graph. -/
theorem Extends.ofTypes {edit : BlockId → List NodeId → List NodeId} {ns : List NodeId}
    {bs : List BlockId} {vs : List ValueId} {types : TypeTable}
    (h : Extends edit ns bs vs { g with types } g') : Extends edit ns bs vs g g' :=
  ⟨h.nodes_le, h.blocks_le, h.values_le, h.node?, h.block?, h.value?, h.ids, h.blockIds,
    h.definitions⟩

theorem GrowsArms.ofTypes {arms : BlockTrees} {types : TypeTable}
    (h : GrowsArms arms { g with types } g') : GrowsArms arms g g' :=
  ⟨h.extension.ofTypes, h.stand⟩

theorem Opened.withTypes {params : List ValueId} (h : Opened params g g') (types : TypeTable) :
    Opened params g { g' with types } :=
  ⟨⟨h.extension.nodes_le, h.extension.blocks_le, h.extension.values_le, h.extension.node?,
    h.extension.block?, h.extension.value?, h.extension.ids, h.extension.blockIds,
    h.extension.definitions⟩, h.block⟩

end Graph

namespace Text

open Unguard.Graph

/-- The values visible at a place. -/
def Scope.values (s : Scope) : List ValueId :=
  s.entries.map Prod.snd

/-- A mention is resolved to a value of the scope. -/
theorem Scope.mem_values_of_resolve {s : Scope} {m : Mention} {v : ValueId}
    (h : s.resolve m = .ok v) : v ∈ s.values := by
  rw [Scope.resolve] at h
  split at h
  · rename_i w hw
    obtain rfl := Except.ok.inj h
    obtain ⟨before, after, hentries, -⟩ := List.lookup_eq_some_iff.1 hw
    rw [Scope.values, hentries]
    simp
  · exact nomatch h

theorem Scope.values_define {s s' : Scope} {m : Mention} {v : ValueId} (h : s.define m v = .ok s') :
    s'.values = v :: s.values := by
  rw [Scope.define] at h
  split at h
  · exact nomatch h
  · obtain rfl := Except.ok.inj h
    rfl

/-- Nothing comes into scope but what is defined. -/
theorem Scope.values_defineAll : ∀ {ms : List Mention} {vs : List ValueId} {s s' : Scope},
    s.defineAll ms vs = .ok s' → s'.values ⊆ vs ++ s.values
  | [], _, s, s', h => by
    obtain rfl := Except.ok.inj h
    exact List.subset_append_right _ _
  | _ :: _, [], s, s', h => by
    obtain rfl := Except.ok.inj h
    exact List.Subset.refl _
  | m :: ms, v :: vs, s, s', h => by
    rw [Scope.defineAll] at h
    obtain ⟨s₁, h₁, h⟩ := bind_eq_ok_iff.1 h
    have hs := Scope.values_defineAll h
    rw [Scope.values_define h₁] at hs
    refine List.Subset.trans hs fun w hw => ?_
    simp only [List.mem_append, List.mem_cons] at hw ⊢
    tauto

/-- All operands are values of the scope. -/
theorem subset_of_traverse_resolve {s : Scope} : ∀ {ms : List Mention} {vs : List ValueId},
    traverse s.resolve ms = .ok vs → vs ⊆ s.values
  | [], vs, h => by
    obtain rfl := Except.ok.inj h
    exact List.nil_subset _
  | m :: ms, vs, h => by
    rw [traverse] at h
    obtain ⟨v, hv, h⟩ := bind_eq_ok_iff.1 h
    obtain ⟨rest, hrest, h⟩ := bind_eq_ok_iff.1 h
    obtain rfl := Except.ok.inj h
    exact List.cons_subset.2 ⟨Scope.mem_values_of_resolve hv, subset_of_traverse_resolve hrest⟩

/-- The parameters of an open block are built one after another, and come into scope. -/
theorem buildParams_opened {g₀ : Graph} : ∀ {params : List (Mention × TypeTree)}
    {made : List ValueId} {g g' : Graph} {scope scope' : Scope}, Opened made g₀ g → g.Mirrored →
    buildParams g scope ⟨g₀.blocks.size⟩ params = .ok (g', scope') →
    ∃ new, Opened (made ++ new) g₀ g' ∧ g'.Mirrored ∧ scope'.values ⊆ new ++ scope.values
  | [], made, g, g', scope, scope', ho, hm, h => by
    cases h
    exact ⟨[], (List.append_nil made).symm ▸ ho, hm, List.Subset.refl _⟩
  | (m, ty) :: params, made, g, g', scope, scope', ho, hm, h => by
    rw [buildParams] at h
    obtain ⟨scope₁, hscope, h⟩ := bind_eq_ok_iff.1 h
    obtain ⟨new, hnew, hm', hvalues⟩ := buildParams_opened ((ho.withTypes _).allocParam _)
      ((hm.withTypes _).allocParam _ _) h
    refine ⟨⟨g.values.size⟩ :: new, ?_, hm', ?_⟩
    · rwa [List.append_assoc] at hnew
    · rw [Scope.values_define hscope] at hvalues
      refine List.Subset.trans hvalues fun w hw => ?_
      simp only [List.mem_append, List.mem_cons] at hw ⊢
      tauto

/-- The nodes have been built at the end of block `b`. -/
structure Built (b : BlockId) (scope scope' : Scope) (draft : BodyDraft) (body : NodeTrees)
    (g g' : Graph) : Prop where
  grows : Grows b (· ++ body.headIds) body g g'
  same : draft.map NodeDraft.kind (fun _ => ()) = body.map NodeView.kind fun _ => ()
  visible : body.Scoped scope.values
  values : scope'.values ⊆ body.outputs ++ scope.values
  mirrored : g'.Mirrored

/-- The blocks have been built. -/
structure BuiltArms (scope : Scope) (draft : ArmsDraft) (arms : BlockTrees) (g g' : Graph) :
    Prop where
  grows : GrowsArms arms g g'
  same : draft.map NodeDraft.kind (fun _ => ()) = arms.map NodeView.kind fun _ => ()
  visible : arms.Scoped scope.values
  mirrored : g'.Mirrored

section Steps

variable {g g₁ g₂ : Graph} {b : BlockId} {scope scope₁ scope₂ : Scope}

/-- Types that were interned before make no difference to where blocks stand. -/
theorem BuiltArms.ofTypes {arms : BlockTrees} {draft : ArmsDraft} {types : TypeTable}
    (h : BuiltArms scope draft arms { g with types } g₁) : BuiltArms scope draft arms g g₁ :=
  ⟨h.grows.ofTypes, h.same, h.visible, h.mirrored⟩

theorem BuiltArms.index_lt_withNode {arms : BlockTrees} {draft : ArmsDraft} {spec : NodeSpec}
    (h : BuiltArms scope draft arms g g₁) (hb : b.index < g.blocks.size) :
    b.index < (withNode g₁ spec b).blocks.size := by
  rw [size_blocks_withNode]
  exact Nat.lt_of_lt_of_le hb h.grows.extension.blocks_le

theorem BuiltArms.mirrored_withNode {arms : BlockTrees} {draft : ArmsDraft} {spec : NodeSpec}
    (h : BuiltArms scope draft arms g g₁) (b : BlockId) : (withNode g₁ spec b).Mirrored :=
  (h.mirrored.allocNode spec).attachLast b _

/-- A node over its blocks, and then the nodes after it. -/
theorem BuiltArms.node {arms : BlockTrees} {draft : ArmsDraft} {head : NodeDraft}
    {rest : BodyDraft} {rest' : NodeTrees} {spec : NodeSpec} (h : BuiltArms scope draft arms g g₁)
    (hb : b.index < g.blocks.size) (hblocks : spec.blocks = arms.headIds)
    (hkind : spec.kind = head.kind) (hinputs : spec.inputs ⊆ scope.values)
    (hscope : scope₁.values ⊆ g₁.newOutputs spec ++ scope.values)
    (hrest : Built b scope₁ scope₂ rest rest' (withNode g₁ spec b) g₂) :
    Built b scope scope₂ (.node head draft rest) (.node (g₁.newView spec) arms rest') g g₂ where
  grows := by
    have hnode := h.grows.node hblocks hb (placed_attachLast _ b ⟨g₁.nodes.size⟩)
    have hall := hnode.trans hrest.grows hb
    simp only [List.append_assoc] at hall
    exact hall
  same := by
    rw [Body.map, Body.map, h.same, hrest.same, ← hkind]
    rfl
  visible := ⟨hinputs, h.visible, hrest.visible.mono hscope⟩
  -- In scope afterwards is what the rest defines, what the node defines, and what was in scope.
  values := by
    refine List.Subset.trans hrest.values fun v hv => ?_
    rw [Body.outputs_node]
    rcases List.mem_append.1 hv with hv | hv
    · exact List.mem_append_left _ (List.mem_append_right _ hv)
    · rcases List.mem_append.1 (hscope hv) with hv | hv
      · exact List.mem_append_left _ (List.mem_append_left _ hv)
      · exact List.mem_append_right _ hv
  mirrored := hrest.mirrored

/-- A block around nodes. -/
theorem Built.arm {params returns : List ValueId} {body : NodeTrees} {draft : BodyDraft}
    (head : BlockDraft) (hopened : Opened params g g₁)
    (hscope : scope₁.values ⊆ params ++ scope.values)
    (h : Built ⟨g.blocks.size⟩ scope₁ scope₂ draft body g₁ g₂) (hreturns : returns ⊆ scope₂.values) :
    BuiltArms scope (.arm head draft .done)
      (.arm ⟨⟨g.blocks.size⟩, params, returns⟩ body .done) g
      (g₂.assignReturns ⟨g.blocks.size⟩ returns) where
  grows := Grows.arm hopened h.grows (List.nil_append _) returns
  same := by
    rw [Arms.map, Arms.map, h.same]
    rfl
  visible := by
    refine ⟨h.visible.mono hscope, fun v hv => ?_, trivial⟩
    rcases List.mem_append.1 (h.values (hreturns hv)) with hv | hv
    · exact List.mem_append_left _ hv
    · exact List.mem_append_right _ (hscope hv)
  mirrored := h.mirrored.assignReturns _ _

/-- A block is built, then the others; the scope is the same for all of them. -/
theorem BuiltArms.append {head : BlockDraft} {block : BlockView} {draft : BodyDraft}
    {body : NodeTrees} {rest : ArmsDraft} {rest' : BlockTrees}
    (h : BuiltArms scope (.arm head draft .done) (.arm block body .done) g g₁)
    (h' : BuiltArms scope rest rest' g₁ g₂) :
    BuiltArms scope (.arm head draft rest) (.arm block body rest') g g₂ where
  grows := h.grows.append h'.grows
  same := by
    have hsame := h.same
    simp only [Arms.map, Arms.arm.injEq] at hsame
    rw [Arms.map, Arms.map, hsame.2.1, h'.same]
  visible := ⟨h.visible.1, h.visible.2.1, h'.visible⟩
  mirrored := h'.mirrored

end Steps

mutual

/-- What is built of nodes stands at the end of the block, sees what is in scope, and brings its outputs
into scope. -/
theorem buildNodes_built : ∀ {draft : BodyDraft} {g g' : Graph} {scope scope' : Scope} {b : BlockId},
    buildNodes g scope b draft = .ok (g', scope') → b.index < g.blocks.size → g.Mirrored →
    ∃ body, Built b scope scope' draft body g g'
  | .done, g, g', scope, scope', b, h, _, hm => by
    cases h
    exact ⟨.done, by simpa using Grows.done g b, rfl, trivial, List.Subset.refl _, hm⟩
  | .node head arms rest, g, g', scope, scope', b, h, hb, hm => by
    obtain ⟨-, inputs, hinputs, blocks, g₁, harms, scope₁, hscope, h⟩ := buildNodes_node_iff.1 h
    obtain ⟨arms', rfl, hbuilt⟩ := buildArms_built harms (hm.withTypes _)
    have hbuilt := hbuilt.ofTypes
    obtain ⟨rest', hrest⟩ := buildNodes_built h (hbuilt.index_lt_withNode hb)
      (hbuilt.mirrored_withNode b)
    exact ⟨_, hbuilt.node hb rfl rfl (subset_of_traverse_resolve hinputs)
      (Scope.values_defineAll hscope) hrest⟩

theorem buildArms_built : ∀ {draft : ArmsDraft} {g g' : Graph} {scope : Scope}
    {blocks : List BlockId}, buildArms g scope draft = .ok (blocks, g') → g.Mirrored →
    ∃ arms, blocks = arms.headIds ∧ BuiltArms scope draft arms g g'
  | .done, g, g', scope, blocks, h, hm => by
    cases h
    exact ⟨.done, rfl, GrowsArms.done g, rfl, trivial, hm⟩
  | .arm head body rest, g, g', scope, blocks, h, hm => by
    obtain ⟨g₁, scope₁, hparams, g₂, scope₂, hbody, returns, hreturns, more, hrest, rfl⟩ :=
      buildArms_arm_iff.1 h
    obtain ⟨params, hopened, hm₁, hscope⟩ := buildParams_opened (opened_newBlock g) hm.newBlock hparams
    obtain ⟨body', hbuilt⟩ := buildNodes_built hbody hopened.index_lt hm₁
    have harm := Built.arm head hopened hscope hbuilt (subset_of_traverse_resolve hreturns)
    obtain ⟨rest', rfl, hmore⟩ := buildArms_built hrest harm.mirrored
    exact ⟨_, rfl, harm.append hmore⟩

end

theorem mirrored_void : void.Mirrored := by
  refine ⟨mirrored_empty.nodup, fun v s => iff_of_false (by simp [void, empty, usesOf]) ?_⟩
  rcases s with ⟨_ | _, _⟩ <;> simp [heldIn?, void, empty, node?, block?]

/-- What was built from nothing, with the top block only, is a tree and all there is. -/
theorem BuiltArms.represents {draft : ArmsDraft} {arms : BlockTrees} {g : Graph}
    (h : BuiltArms .empty draft arms void g) (htop : [top] = arms.headIds) :
    ∃ t : BlockTree, arms = t.toArms ∧ g.Represents t ∧ t.toArms.WellFormed [] := by
  rcases arms with _ | ⟨head, body, _ | _⟩
  · cases htop
  · let t : BlockTree := ⟨head, body⟩
    have hrep := GrowsArms.represents (t := t) h.grows (List.cons.inj htop).1.symm h.mirrored
    exact ⟨t, rfl, hrep, h.visible, hrep.nodup_ids, hrep.nodup_blockIds, h.grows.nodup_definitions,
      fun _ hv => nomatch hv⟩
  · exact absurd (congrArg List.length htop) (by simp)

/-- A graph that was built from a draft. -/
theorem GraphDraft.build_grows {draft : GraphDraft} {g : Graph} (h : draft.build = .ok g) :
    ∃ t : BlockTree, GrowsArms t.toArms void g ∧ g.Represents t ∧ t.toArms.WellFormed [] ∧
      draft.body.map NodeDraft.kind (fun _ => ()) = t.body.map NodeView.kind fun _ => () := by
  obtain ⟨arms, hblocks, hbuilt⟩ := buildArms_built (GraphDraft.build_eq_ok_iff.1 h) mirrored_void
  obtain ⟨t, rfl, hrep, hwf⟩ := hbuilt.represents hblocks
  have hsame := hbuilt.same
  simp only [GraphDraft.toArms, BlockTree.toArms, Arms.map, Arms.arm.injEq] at hsame
  exact ⟨t, hbuilt.grows, hrep, hwf, hsame.2.1⟩

end Text

/-- All there is in a graph that was read is its tree, which is well-formed and of proper shape. -/
theorem Graph.ofText_grows {source : String} {g : Graph} (h : Graph.ofText source = .ok g) :
    ∃ t : BlockTree, GrowsArms t.toArms void g ∧ g.Represents t ∧ t.toArms.WellFormed [] ∧
      t.toArms.Shaped := by
  rw [Graph.ofText] at h
  obtain ⟨draft, hdraft, h⟩ := bind_eq_ok_iff.1 h
  obtain ⟨t, hgrows, hrep, hwf, hsame⟩ := Text.GraphDraft.build_grows h
  have hproper := Body.proper_of_map_eq hsame (Text.GraphDraft.proper_of_ofText hdraft)
  exact ⟨t, hgrows, hrep, hwf, Arms.Proper.shaped ⟨hproper, trivial⟩⟩

/-- A graph that was read represents a well-formed tree of proper shape. -/
theorem Graph.ofText_represents {source : String} {g : Graph} (h : Graph.ofText source = .ok g) :
    ∃ t, g.Represents t ∧ t.toArms.WellFormed [] ∧ t.toArms.Shaped := by
  obtain ⟨t, -, hrest⟩ := Graph.ofText_grows h
  exact ⟨t, hrest⟩

end Unguard
