import Unguard.Graph.Visit
import Unguard.Proofs.SlotChains
import Unguard.Proofs.Trees

/-!
# Trees that stand in a graph

`Body.Stand g parent` says that the tables of `g` hold some nodes just as the tree has them: each node
with its view, its blocks and its place, each block with its nodes and its owner, none of them
released.  A tree that stands in a graph is what the graph unfolds to (`Graph.unfoldArms_of_stand`).
`Body.ShownBy g` says less: the views of nodes and blocks are those of the graph, and so is what is inside
them.  That is enough for the tree to be what a walk goes through (`Graph.walkArms_of_shown`).

Changes of a graph are followed on the tree by one lemma for each kind of change: nothing in the tree
touched (`Body.Stand.congr`), one node replaced (`Body.Stand.replace`), slots renamed
(`Body.Stand.subst`), blocks given to an owner (`Arms.Stand.own`).
-/

namespace Unguard

/-- The entry of a node that owns `blocks` and stands in `parent`. -/
def NodeView.entry (v : NodeView) (blocks : List BlockId) (parent : Option BlockId) : Node :=
  { kind := v.kind, inputs := v.inputs, outputs := v.outputs, attributes := v.attributes,
    blocks, parent, released := false }

/-- The entry of a block that holds `nodes` and belongs to `owner`. -/
def BlockView.entry (b : BlockView) (nodes : List NodeId) (owner : Option NodeId) : Block :=
  { params := b.params, nodes, returns := b.returns, owner, released := false }

mutual

/-- The nodes stand in the block `parent` of the graph, with all that the tree has inside them. -/
def Body.Stand (g : Graph) (parent : Option BlockId) : NodeTrees → Prop
  | .done => True
  | .node head arms rest =>
    g.node? head.id = some (head.entry arms.headIds parent) ∧ arms.Stand g (some head.id) ∧
      rest.Stand g parent

/-- The blocks belong to the node `owner` of the graph, with all that the tree has inside them. -/
def Arms.Stand (g : Graph) (owner : Option NodeId) : BlockTrees → Prop
  | .done => True
  | .arm head body rest =>
    g.block? head.id = some (head.entry body.headIds owner) ∧ body.Stand g (some head.id) ∧
      rest.Stand g owner

end

/-- Nodes in a row stand if they stand one by one. -/
theorem Body.stand_append {g : Graph} {parent : Option BlockId} : ∀ {a b : NodeTrees},
    (a ++ b).Stand g parent ↔ a.Stand g parent ∧ b.Stand g parent
  | .done, b => by simp [Body.Stand]
  | .node head arms rest, b => by
    rw [Body.node_append, Body.Stand, Body.Stand, Body.stand_append, and_assoc, and_assoc]

/-! ### Reading a standing tree -/

section Read

variable {g : Graph}

mutual

/-- A node at any depth: its entry, and the block that lists it. -/
theorem Body.Stand.subtree {head : NodeView} {arms : BlockTrees} : ∀ {body : NodeTrees}
    {parent : Option BlockId}, body.Stand g parent → (head, arms) ∈ body.subtrees →
    ∃ place, g.node? head.id = some (head.entry arms.headIds place) ∧ arms.Stand g (some head.id) ∧
      ((place = parent ∧ head.id ∈ body.headIds) ∨ ∃ b ∈ body.blockIds, place = some b ∧
        ∃ block, g.block? b = some block ∧ head.id ∈ block.nodes)
  | .node first inside rest, parent, ⟨hfirst, hinside, hrest⟩, h => by
    simp only [Body.subtrees, List.mem_cons, List.mem_append, Prod.mk.injEq] at h
    simp only [Body.headIds_node, Body.blockIds_node, List.mem_cons, List.mem_append]
    rcases h with ⟨rfl, rfl⟩ | h | h
    · exact ⟨parent, hfirst, hinside, Or.inl ⟨rfl, Or.inl rfl⟩⟩
    · obtain ⟨place, hnode, harms, b, hb, hplace⟩ := hinside.subtree h
      exact ⟨place, hnode, harms, Or.inr ⟨b, Or.inl hb, hplace⟩⟩
    · obtain ⟨place, hnode, harms, ⟨hplace, hmem⟩ | ⟨b, hb, hplace⟩⟩ := hrest.subtree h
      · exact ⟨place, hnode, harms, Or.inl ⟨hplace, Or.inr hmem⟩⟩
      · exact ⟨place, hnode, harms, Or.inr ⟨b, Or.inr hb, hplace⟩⟩

@[inherit_doc Body.Stand.subtree]
theorem Arms.Stand.subtree {head : NodeView} {arms : BlockTrees} : ∀ {more : BlockTrees}
    {owner : Option NodeId}, more.Stand g owner → (head, arms) ∈ more.subtrees →
    ∃ place, g.node? head.id = some (head.entry arms.headIds place) ∧ arms.Stand g (some head.id) ∧
      ∃ b ∈ more.blockIds, place = some b ∧ ∃ block, g.block? b = some block ∧ head.id ∈ block.nodes
  | .arm block body rest, owner, ⟨hblock, hbody, hrest⟩, h => by
    simp only [Arms.subtrees, List.mem_append] at h
    simp only [Arms.blockIds_arm, List.mem_cons, List.mem_append]
    rcases h with h | h
    · obtain ⟨place, hnode, harms, ⟨hplace, hmem⟩ | ⟨b, hb, hplace⟩⟩ := hbody.subtree h
      · exact ⟨place, hnode, harms, block.id, Or.inl rfl, hplace, _, hblock, hmem⟩
      · exact ⟨place, hnode, harms, b, Or.inr (Or.inl hb), hplace⟩
    · obtain ⟨place, hnode, harms, b, hb, hplace⟩ := hrest.subtree h
      exact ⟨place, hnode, harms, b, Or.inr (Or.inr hb), hplace⟩

end

theorem Body.Stand.exists_node {body : NodeTrees} {parent : Option BlockId} {n : NodeId}
    (h : body.Stand g parent) (hn : n ∈ body.ids) :
    ∃ node, g.node? n = some node ∧ node.released = false := by
  obtain ⟨⟨head, arms⟩, hmem, rfl⟩ := Body.mem_ids.1 hn
  obtain ⟨place, hnode, -⟩ := h.subtree hmem
  exact ⟨_, hnode, rfl⟩

theorem Arms.Stand.exists_node {arms : BlockTrees} {owner : Option NodeId} {n : NodeId}
    (h : arms.Stand g owner) (hn : n ∈ arms.ids) :
    ∃ node, g.node? n = some node ∧ node.released = false := by
  obtain ⟨⟨head, inside⟩, hmem, rfl⟩ := Arms.mem_ids.1 hn
  obtain ⟨place, hnode, -⟩ := h.subtree hmem
  exact ⟨_, hnode, rfl⟩

/-- The outermost nodes know the block they stand in. -/
theorem Body.Stand.parent_of_mem_headIds {n : NodeId} : ∀ {body : NodeTrees}
    {parent : Option BlockId}, body.Stand g parent → n ∈ body.headIds →
    ∃ node, g.node? n = some node ∧ node.parent = parent
  | .node head arms rest, parent, ⟨hhead, _, hrest⟩, hn => by
    rw [Body.headIds_node, List.mem_cons] at hn
    rcases hn with rfl | hn
    · exact ⟨_, hhead, rfl⟩
    · exact hrest.parent_of_mem_headIds hn

mutual

/-- A block inside nodes: its entry lists nodes that stand in it, each once. -/
theorem Body.Stand.block {b : BlockView} : ∀ {body : NodeTrees} {parent : Option BlockId},
    body.Stand g parent → b ∈ body.blocks →
    ∃ nodes owner, g.block? b.id = some (b.entry nodes owner) ∧ owner ≠ none ∧
      nodes.Sublist body.ids ∧ ∀ n ∈ nodes, ∃ node, g.node? n = some node ∧ node.parent = some b.id
  | .node head arms rest, _, ⟨_, harms, hrest⟩, hb => by
    rw [Body.blocks, List.mem_append] at hb
    rw [Body.ids_node]
    rcases hb with hb | hb
    · obtain ⟨nodes, owner, hblock, howner, hsub, hnodes⟩ := harms.block hb
      refine ⟨nodes, owner, hblock, ?_, ?_, hnodes⟩
      · rcases howner with rfl | howner
        · exact nofun
        · exact howner
      · exact (hsub.trans (List.sublist_append_left _ _)).trans (List.sublist_cons_self _ _)
    · obtain ⟨nodes, owner, hblock, howner, hsub, hnodes⟩ := hrest.block hb
      exact ⟨nodes, owner, hblock, howner,
        (hsub.trans (List.sublist_append_right _ _)).trans (List.sublist_cons_self _ _), hnodes⟩

@[inherit_doc Body.Stand.block]
theorem Arms.Stand.block {b : BlockView} : ∀ {arms : BlockTrees} {owner : Option NodeId},
    arms.Stand g owner → b ∈ arms.blocks →
    ∃ nodes place, g.block? b.id = some (b.entry nodes place) ∧ (place = owner ∨ place ≠ none) ∧
      nodes.Sublist arms.ids ∧ ∀ n ∈ nodes, ∃ node, g.node? n = some node ∧ node.parent = some b.id
  | .arm head body rest, owner, ⟨hhead, hbody, hrest⟩, hb => by
    rw [Arms.blocks, List.mem_cons, List.mem_append] at hb
    rw [Arms.ids_arm]
    rcases hb with rfl | hb | hb
    · exact ⟨_, owner, hhead, Or.inl rfl,
        Body.headIds_sublist_ids.trans (List.sublist_append_left _ _), fun n hn =>
        hbody.parent_of_mem_headIds hn⟩
    · obtain ⟨nodes, place, hblock, hplace, hsub, hnodes⟩ := hbody.block hb
      exact ⟨nodes, place, hblock, Or.inr hplace, hsub.trans (List.sublist_append_left _ _), hnodes⟩
    · obtain ⟨nodes, place, hblock, hplace, hsub, hnodes⟩ := hrest.block hb
      exact ⟨nodes, place, hblock, hplace, hsub.trans (List.sublist_append_right _ _), hnodes⟩

end

/-- The outermost blocks know the node they belong to. -/
theorem Arms.Stand.exists_head {b : BlockId} : ∀ {arms : BlockTrees} {owner : Option NodeId},
    arms.Stand g owner → b ∈ arms.headIds →
    ∃ block, g.block? b = some block ∧ block.owner = owner
  | .arm head body rest, _, ⟨hhead, _, hrest⟩, hb => by
    rw [Arms.headIds_arm, List.mem_cons] at hb
    rcases hb with rfl | hb
    · exact ⟨_, hhead, rfl⟩
    · exact hrest.exists_head hb

/-- The holders among nodes and blocks. -/
def Holder.Within (ns : List NodeId) (bs : List BlockId) : Holder → Prop
  | .node n => n ∈ ns
  | .block b => b ∈ bs

/-- A holder in the tree that holds a value has it in its view. -/
theorem Arms.Stand.holder {arms : BlockTrees} {owner : Option NodeId} {s : Slot} {v : ValueId}
    (h : arms.Stand g owner) (hs : s.holder.Within arms.ids arms.blockIds)
    (hv : g.heldIn? s = some v) :
    (∃ x ∈ arms.nodes, s.holder = .node x.id ∧ v ∈ x.inputs) ∨
      ∃ b ∈ arms.blocks, s.holder = .block b.id ∧ v ∈ b.returns := by
  obtain ⟨holder, i⟩ := s
  cases holder with
  | node n =>
    obtain ⟨⟨head, inside⟩, hmem, rfl⟩ := Arms.mem_ids.1 hs
    obtain ⟨place, hnode, -⟩ := h.subtree hmem
    obtain ⟨node, hn, hv⟩ := Option.bind_eq_some_iff.1 hv
    obtain rfl := Option.some.inj (hnode.symm.trans hn)
    exact Or.inl ⟨head, Arms.mem_nodes.2 ⟨inside, hmem⟩, rfl, List.mem_of_getElem? hv⟩
  | block b =>
    obtain ⟨view, hview, rfl⟩ := Arms.mem_blockIds.1 hs
    obtain ⟨nodes, place, hblock, -⟩ := h.block hview
    obtain ⟨block, hb, hv⟩ := Option.bind_eq_some_iff.1 hv
    obtain rfl := Option.some.inj (hblock.symm.trans hb)
    exact Or.inr ⟨view, hview, rfl, List.mem_of_getElem? hv⟩

/-- What is held inside a tree is mentioned in it. -/
theorem Arms.Stand.mem_mentions {arms : BlockTrees} {owner : Option NodeId} {s : Slot} {v : ValueId}
    (h : arms.Stand g owner) (hs : s.holder.Within arms.ids arms.blockIds)
    (hv : g.heldIn? s = some v) : v ∈ arms.mentions := by
  rw [Arms.mentions, Arms.mem_collect]
  obtain ⟨x, hx, -, hv⟩ | ⟨b, hb, -, hv⟩ := h.holder hs hv
  · exact .inl ⟨x, hx, hv⟩
  · exact .inr ⟨b, hb, hv⟩

end Read

/-! ### Trees that are read off a graph -/

mutual

/-- The graph shows the nodes as the tree has them, with their blocks.  Unlike in a tree that stands in
the graph, they may be released, and nothing is said about the other sides of links. -/
def Body.ShownBy (g : Graph) : NodeTrees → Prop
  | .done => True
  | .node head arms rest =>
    (∃ node, g.node? head.id = some node ∧ node.view head.id = head ∧ node.blocks = arms.headIds) ∧
      arms.ShownBy g ∧ rest.ShownBy g

/-- The graph shows the blocks as the tree has them, with their nodes. -/
def Arms.ShownBy (g : Graph) : BlockTrees → Prop
  | .done => True
  | .arm head body rest =>
    (∃ block, g.block? head.id = some block ∧ block.view head.id = head ∧
      block.nodes = body.headIds) ∧ body.ShownBy g ∧ rest.ShownBy g

end

section Shown

variable {g : Graph}

mutual

theorem Body.Stand.shownBy : ∀ {body : NodeTrees} {parent : Option BlockId}, body.Stand g parent →
    body.ShownBy g
  | .done, _, _ => trivial
  | .node _ _ _, _, ⟨hhead, harms, hrest⟩ => ⟨⟨_, hhead, rfl, rfl⟩, harms.shownBy, hrest.shownBy⟩

theorem Arms.Stand.shownBy : ∀ {arms : BlockTrees} {owner : Option NodeId}, arms.Stand g owner →
    arms.ShownBy g
  | .done, _, _ => trivial
  | .arm _ _ _, _, ⟨hhead, hbody, hrest⟩ => ⟨⟨_, hhead, rfl, rfl⟩, hbody.shownBy, hrest.shownBy⟩

end

mutual

/-- A node at any depth is shown with its arms. -/
theorem Body.ShownBy.subtree {p : NodeView × BlockTrees} : ∀ {body : NodeTrees}, body.ShownBy g →
    p ∈ body.subtrees →
    ∃ node, g.node? p.1.id = some node ∧ node.view p.1.id = p.1 ∧ node.blocks = p.2.headIds
  | .node head inside rest, ⟨hhead, hinside, hrest⟩, hp => by
    rw [Body.subtrees, List.mem_cons, List.mem_append] at hp
    rcases hp with rfl | hp | hp
    · exact hhead
    · exact hinside.subtree hp
    · exact hrest.subtree hp

theorem Arms.ShownBy.subtree {p : NodeView × BlockTrees} : ∀ {arms : BlockTrees}, arms.ShownBy g →
    p ∈ arms.subtrees →
    ∃ node, g.node? p.1.id = some node ∧ node.view p.1.id = p.1 ∧ node.blocks = p.2.headIds
  | .arm _ body rest, ⟨_, hbody, hrest⟩, hp => by
    rw [Arms.subtrees, List.mem_append] at hp
    rcases hp with hp | hp
    · exact hbody.subtree hp
    · exact hrest.subtree hp

end

mutual

theorem Body.ShownBy.inside {p : NodeView × BlockTrees} : ∀ {body : NodeTrees}, body.ShownBy g →
    p ∈ body.subtrees → p.2.ShownBy g
  | .node head inside rest, ⟨_, hinside, hrest⟩, hp => by
    rw [Body.subtrees, List.mem_cons, List.mem_append] at hp
    rcases hp with rfl | hp | hp
    · exact hinside
    · exact hinside.inside hp
    · exact hrest.inside hp

theorem Arms.ShownBy.inside {p : NodeView × BlockTrees} : ∀ {arms : BlockTrees}, arms.ShownBy g →
    p ∈ arms.subtrees → p.2.ShownBy g
  | .arm _ body rest, ⟨_, hbody, hrest⟩, hp => by
    rw [Arms.subtrees, List.mem_append] at hp
    rcases hp with hp | hp
    · exact hbody.inside hp
    · exact hrest.inside hp

end

mutual

theorem Body.ShownBy.block {b : BlockView} : ∀ {body : NodeTrees}, body.ShownBy g → b ∈ body.blocks →
    ∃ block, g.block? b.id = some block ∧ block.view b.id = b ∧ block.nodes.Sublist body.ids
  | .node head arms rest, ⟨_, harms, hrest⟩, hb => by
    rw [Body.blocks, List.mem_append] at hb
    rw [Body.ids_node]
    rcases hb with hb | hb
    · obtain ⟨block, hblock, hview, hsub⟩ := harms.block hb
      exact ⟨block, hblock, hview, (hsub.trans (List.sublist_append_left _ _)).cons _⟩
    · obtain ⟨block, hblock, hview, hsub⟩ := hrest.block hb
      exact ⟨block, hblock, hview, (hsub.trans (List.sublist_append_right _ _)).cons _⟩

/-- A block at any depth: its entry lists nodes of the tree. -/
theorem Arms.ShownBy.block {b : BlockView} : ∀ {arms : BlockTrees}, arms.ShownBy g → b ∈ arms.blocks →
    ∃ block, g.block? b.id = some block ∧ block.view b.id = b ∧ block.nodes.Sublist arms.ids
  | .arm head body rest, ⟨⟨block, hblock, hview, hnodes⟩, hbody, hrest⟩, hb => by
    rw [Arms.blocks, List.mem_cons, List.mem_append] at hb
    rw [Arms.ids_arm]
    rcases hb with rfl | hb | hb
    · refine ⟨block, hblock, hview, ?_⟩
      rw [hnodes]
      exact Body.headIds_sublist_ids.trans (List.sublist_append_left _ _)
    · obtain ⟨block, hblock, hview, hsub⟩ := hbody.block hb
      exact ⟨block, hblock, hview, hsub.trans (List.sublist_append_left _ _)⟩
    · obtain ⟨block, hblock, hview, hsub⟩ := hrest.block hb
      exact ⟨block, hblock, hview, hsub.trans (List.sublist_append_right _ _)⟩

end

end Shown

/-! ### Following changes of the graph -/

section Change

variable {g g' : Graph}

mutual

/-- Only entries in the tree matter. -/
theorem Body.Stand.congr : ∀ {body : NodeTrees} {parent : Option BlockId}, body.Stand g parent →
    (∀ n ∈ body.ids, g'.node? n = g.node? n) → (∀ b ∈ body.blockIds, g'.block? b = g.block? b) →
    body.Stand g' parent
  | .done, _, _, _, _ => trivial
  | .node head arms rest, parent, ⟨hhead, harms, hrest⟩, hn, hb => by
    simp only [Body.ids_node, Body.blockIds_node, List.mem_cons, List.mem_append] at hn hb
    exact ⟨(hn _ (Or.inl rfl)).trans hhead,
      harms.congr (fun n h => hn n (Or.inr (Or.inl h))) fun b h => hb b (Or.inl h),
      hrest.congr (fun n h => hn n (Or.inr (Or.inr h))) fun b h => hb b (Or.inr h)⟩

theorem Arms.Stand.congr : ∀ {arms : BlockTrees} {owner : Option NodeId}, arms.Stand g owner →
    (∀ n ∈ arms.ids, g'.node? n = g.node? n) → (∀ b ∈ arms.blockIds, g'.block? b = g.block? b) →
    arms.Stand g' owner
  | .done, _, _, _, _ => trivial
  | .arm head body rest, owner, ⟨hhead, hbody, hrest⟩, hn, hb => by
    simp only [Arms.ids_arm, Arms.blockIds_arm, List.mem_cons, List.mem_append] at hn hb
    exact ⟨(hb _ (Or.inl rfl)).trans hhead,
      hbody.congr (fun n h => hn n (Or.inl h)) fun b h => hb b (Or.inr (Or.inl h)),
      hrest.congr (fun n h => hn n (Or.inr h)) fun b h => hb b (Or.inr (Or.inr h))⟩

end

mutual

/-- Slots renamed in the entries are slots renamed in the tree. -/
theorem Body.Stand.subst {σ : ValueId → ValueId} : ∀ {body : NodeTrees} {parent : Option BlockId},
    body.Stand g parent →
    (∀ n ∈ body.ids, g'.node? n = (g.node? n).map fun node =>
      { node with inputs := node.inputs.map σ }) →
    (∀ b ∈ body.blockIds, g'.block? b = (g.block? b).map fun block =>
      { block with returns := block.returns.map σ }) →
    (body.subst σ).Stand g' parent
  | .done, _, _, _, _ => trivial
  | .node head arms rest, parent, ⟨hhead, harms, hrest⟩, hn, hb => by
    simp only [Body.ids_node, Body.blockIds_node, List.mem_cons, List.mem_append] at hn hb
    refine ⟨?_, harms.subst (fun n h => hn n (Or.inr (Or.inl h))) fun b h => hb b (Or.inl h),
      hrest.subst (fun n h => hn n (Or.inr (Or.inr h))) fun b h => hb b (Or.inr h)⟩
    change g'.node? head.id = some ((head.subst σ).entry (arms.subst σ).headIds parent)
    rw [hn _ (Or.inl rfl), hhead, Arms.headIds_subst]
    rfl

theorem Arms.Stand.subst {σ : ValueId → ValueId} : ∀ {arms : BlockTrees} {owner : Option NodeId},
    arms.Stand g owner →
    (∀ n ∈ arms.ids, g'.node? n = (g.node? n).map fun node =>
      { node with inputs := node.inputs.map σ }) →
    (∀ b ∈ arms.blockIds, g'.block? b = (g.block? b).map fun block =>
      { block with returns := block.returns.map σ }) →
    (arms.subst σ).Stand g' owner
  | .done, _, _, _, _ => trivial
  | .arm head body rest, owner, ⟨hhead, hbody, hrest⟩, hn, hb => by
    simp only [Arms.ids_arm, Arms.blockIds_arm, List.mem_cons, List.mem_append] at hn hb
    refine ⟨?_, hbody.subst (fun n h => hn n (Or.inl h)) fun b h => hb b (Or.inr (Or.inl h)),
      hrest.subst (fun n h => hn n (Or.inr h)) fun b h => hb b (Or.inr (Or.inr h))⟩
    change g'.block? head.id = some ((head.subst σ).entry (body.subst σ).headIds owner)
    rw [hb _ (Or.inl rfl), hhead, Body.headIds_subst]
    rfl

end

mutual

/-- One node replaced: what is left keeps its entries, the node lists name the new nodes in the place
of the old one, and the new nodes stand there. -/
theorem Body.Stand.replace {n : NodeId} {new : NodeTrees} : ∀ {body : NodeTrees}
    {parent : Option BlockId}, body.Stand g parent →
    (∀ m ∈ (body.replace n .done).ids, g'.node? m = g.node? m) →
    (∀ b ∈ (body.replace n .done).blockIds, g'.block? b = (g.block? b).map fun block =>
      { block with nodes := block.nodes.flatMap fun m => if m = n then new.headIds else [m] }) →
    (∀ node, g.node? n = some node → new.Stand g' node.parent) →
    (body.replace n new).Stand g' parent
  | .done, _, _, _, _, _ => trivial
  | .node head arms rest, parent, ⟨hhead, harms, hrest⟩, hn, hb, hnew => by
    rw [Body.replace] at hn hb ⊢
    -- The node that is replaced need not keep its entry; any other does.
    split
    · rename_i h
      rw [if_pos h, Body.done_append] at hn hb
      rw [Body.stand_append]
      exact ⟨hnew _ (h ▸ hhead), hrest.replace hn hb hnew⟩
    · rename_i h
      rw [if_neg h] at hn hb
      simp only [Body.ids_node, Body.blockIds_node, List.mem_cons, List.mem_append] at hn hb
      refine ⟨?_,
        harms.replace (fun m h => hn m (Or.inr (Or.inl h))) (fun b h => hb b (Or.inl h)) hnew,
        hrest.replace (fun m h => hn m (Or.inr (Or.inr h))) (fun b h => hb b (Or.inr h)) hnew⟩
      rw [hn _ (Or.inl rfl), hhead, Arms.headIds_replace]

@[inherit_doc Body.Stand.replace]
theorem Arms.Stand.replace {n : NodeId} {new : NodeTrees} : ∀ {arms : BlockTrees}
    {owner : Option NodeId}, arms.Stand g owner →
    (∀ m ∈ (arms.replace n .done).ids, g'.node? m = g.node? m) →
    (∀ b ∈ (arms.replace n .done).blockIds, g'.block? b = (g.block? b).map fun block =>
      { block with nodes := block.nodes.flatMap fun m => if m = n then new.headIds else [m] }) →
    (∀ node, g.node? n = some node → new.Stand g' node.parent) →
    (arms.replace n new).Stand g' owner
  | .done, _, _, _, _, _ => trivial
  | .arm head body rest, owner, ⟨hhead, hbody, hrest⟩, hn, hb, hnew => by
    rw [Arms.replace] at hn hb ⊢
    simp only [Arms.ids_arm, Arms.blockIds_arm, List.mem_cons, List.mem_append] at hn hb
    refine ⟨?_,
      hbody.replace (fun m h => hn m (Or.inl h)) (fun b h => hb b (Or.inr (Or.inl h))) hnew,
      hrest.replace (fun m h => hn m (Or.inr h)) (fun b h => hb b (Or.inr (Or.inr h))) hnew⟩
    rw [hb _ (Or.inl rfl), hhead, Body.headIds_replace]
    rfl

end

/-- Blocks given to an owner.  Those inside them belong to others, so none of them is among `bs`. -/
theorem Arms.Stand.own {n : NodeId} {bs : List BlockId}
    (hfree : ∀ b ∈ bs, ∀ block, g.block? b = some block → block.owner = none) :
    ∀ {arms : BlockTrees}, arms.Stand g none → arms.headIds ⊆ bs →
    (∀ m ∈ arms.ids, g'.node? m = g.node? m) →
    (∀ b ∈ arms.blockIds, g'.block? b = (g.block? b).map fun block =>
      if b ∈ bs then { block with owner := some n } else block) →
    arms.Stand g' (some n)
  | .done, _, _, _, _ => trivial
  | .arm head body rest, ⟨hhead, hbody, hrest⟩, hsub, hn, hb => by
    simp only [Arms.ids_arm, Arms.blockIds_arm, List.mem_cons, List.mem_append] at hn hb
    rw [Arms.headIds_arm, List.cons_subset] at hsub
    refine ⟨?_, hbody.congr (fun m h => hn m (Or.inl h)) fun b h => ?_,
      hrest.own hfree hsub.2 (fun m h => hn m (Or.inr h)) fun b h => hb b (Or.inr (Or.inr h))⟩
    · rw [hb _ (Or.inl rfl), hhead, Option.map_some, if_pos hsub.1]
      rfl
    · obtain ⟨view, hview, rfl⟩ := Body.mem_blockIds.1 h
      obtain ⟨nodes, owner, hblock, howner, -⟩ := hbody.block hview
      have hnot : view.id ∉ bs := fun hmem => howner (hfree view.id hmem _ hblock)
      rw [hb view.id (Or.inr (Or.inl h)), hblock, Option.map_some, if_neg hnot]

end Change

/-! ### What a graph unfolds to -/

mutual

/-- How deep blocks nest in nodes. -/
def Body.height {ν β : Type} : Body ν β → Nat
  | .done => 0
  | .node _ arms rest => max arms.height rest.height

/-- How deep blocks nest, counting the blocks themselves. -/
def Arms.height {ν β : Type} : Arms ν β → Nat
  | .done => 0
  | .arm _ body rest => max (body.height + 1) rest.height

end

mutual

/-- No block is inside itself, so there is enough depth for every tree. -/
theorem Body.height_le_length_blockIds : ∀ body : NodeTrees, body.height ≤ body.blockIds.length
  | .done => Nat.le_refl _
  | .node head arms rest => by
    have harms := arms.height_le_length_blockIds
    have hrest := rest.height_le_length_blockIds
    rw [Body.height, Body.blockIds_node, List.length_append]
    omega

theorem Arms.height_le_length_blockIds : ∀ arms : BlockTrees, arms.height ≤ arms.blockIds.length
  | .done => Nat.le_refl _
  | .arm head body rest => by
    have hbody := body.height_le_length_blockIds
    have hrest := rest.height_le_length_blockIds
    rw [Arms.height, Arms.blockIds_arm, List.length_cons, List.length_append]
    omega

end

namespace Graph

variable {g : Graph} {enter : Node → Bool}

mutual

/-- Standing nodes unfold to themselves, if the nodes not entered own no blocks. -/
theorem unfoldNodes_of_stand : ∀ {body : NodeTrees} {parent : Option BlockId} (depth : Nat),
    body.Stand g parent → body.height ≤ depth →
    (∀ p ∈ body.subtrees, ∀ place, enter (p.1.entry p.2.headIds place) = false → p.2 = .done) →
    g.unfoldNodes enter (g.unfoldBlock enter depth) body.headIds = .ok body
  | .done, _, _, _, _, _ => rfl
  | .node head arms rest, parent, depth, ⟨hhead, harms, hrest⟩, hdepth, henter => by
    rw [Body.height] at hdepth
    simp only [Body.subtrees, List.mem_cons, List.mem_append] at henter
    have harms := unfoldArms_of_stand depth harms (by omega) fun p hp => henter p (Or.inr (Or.inl hp))
    have hrest := unfoldNodes_of_stand depth hrest (by omega) fun p hp => henter p (Or.inr (Or.inr hp))
    have hblocks : unfoldArms (g.unfoldBlock enter depth)
        (if enter (head.entry arms.headIds parent) then arms.headIds else []) = .ok arms := by
      split
      · exact harms
      · rename_i h
        have hdone : arms = .done := henter _ (Or.inl rfl) parent (Bool.not_eq_true _ ▸ h)
        rw [hdone]
        rfl
    rw [Body.headIds_node, unfoldNodes, (g.node_eq_ok_iff).2 hhead, ok_bind]
    change (unfoldArms _ (if enter (head.entry arms.headIds parent) then arms.headIds else []) >>= _) = _
    rw [hblocks, ok_bind, hrest]
    rfl

theorem unfoldArms_of_stand : ∀ {arms : BlockTrees} {owner : Option NodeId} (depth : Nat),
    arms.Stand g owner → arms.height ≤ depth →
    (∀ p ∈ arms.subtrees, ∀ place, enter (p.1.entry p.2.headIds place) = false → p.2 = .done) →
    unfoldArms (g.unfoldBlock enter depth) arms.headIds = .ok arms
  | .done, _, _, _, _, _ => rfl
  | .arm head body rest, owner, depth, ⟨hhead, hbody, hrest⟩, hdepth, henter => by
    rw [Arms.height] at hdepth
    simp only [Arms.subtrees, List.mem_append] at henter
    obtain ⟨depth, rfl⟩ : ∃ d, depth = d + 1 := ⟨depth - 1, by omega⟩
    have hbody := unfoldNodes_of_stand depth hbody (by omega) fun p hp =>
      henter p (Or.inl hp)
    have hrest := unfoldArms_of_stand (depth + 1) hrest (by omega) fun p hp => henter p (Or.inr hp)
    rw [Arms.headIds_arm, unfoldArms, unfoldBlock, (g.block_eq_ok_iff).2 hhead, ok_bind]
    change ((g.unfoldNodes enter (g.unfoldBlock enter depth) body.headIds >>= _) >>= _) = _
    rw [hbody, hrest]
    rfl

end

/-! ### Walks -/

end Graph

mutual

/-- The walk through nodes. -/
def Body.walk (visit : NodeId → Step) : NodeTrees → Walk
  | .done => .empty
  | .node head arms rest =>
    let first : Walk := match visit head.id with
      | .stop => ⟨[head.id], some head.id⟩
      | .skip => ⟨[head.id], none⟩
      | .descend => ⟨[head.id], none⟩ ++ arms.walk visit
    if first.stopped.isSome then first else first ++ rest.walk visit

/-- The walk through the contents of blocks. -/
def Arms.walk (visit : NodeId → Step) : BlockTrees → Walk
  | .done => .empty
  | .arm _ body rest =>
    if (body.walk visit).stopped.isSome then body.walk visit
    else body.walk visit ++ rest.walk visit

end

namespace Graph

variable {g : Graph}

mutual

/-- A walk through the tables goes the way of the tree, and ends where it ends. -/
theorem walkNodes_of_shown (visit : NodeId → Step) : ∀ {body : NodeTrees} (depth : Nat),
    body.ShownBy g → body.height ≤ depth →
    g.walkNodes (.ofStep visit) (g.walkTo (.ofStep visit) depth) () body.headIds =
      .ok (body.walk visit, ())
  | .done, _, _, _ => rfl
  | .node head arms rest, depth, ⟨⟨node, hnode, _, hblocks⟩, harms, hrest⟩, hdepth => by
    rw [Body.height] at hdepth
    have harms := walkArms_of_shown visit depth harms (by omega)
    have hrest := walkNodes_of_shown visit depth hrest (by omega)
    rw [Body.headIds_node, walkNodes, visitNode, Body.walk, Visitor.ofStep]
    cases visit head.id with
    | stop => rfl
    | skip => simp [hrest]
    | descend =>
      simp only [(g.node_eq_ok_iff).2 hnode, ok_bind, hblocks, harms, hrest, pure_eq_ok]
      split <;> rfl

/-- A tree that a graph shows is what a walk goes through, if the visitor looks at the node alone. -/
theorem walkArms_of_shown (visit : NodeId → Step) : ∀ {arms : BlockTrees} (depth : Nat),
    arms.ShownBy g → arms.height ≤ depth →
    walkArms (g.walkTo (.ofStep visit) depth) () arms.headIds = .ok (arms.walk visit, ())
  | .done, _, _, _ => rfl
  | .arm head body rest, depth, ⟨⟨block, hblock, _, hnodes⟩, hbody, hrest⟩, hdepth => by
    rw [Arms.height] at hdepth
    obtain ⟨depth, rfl⟩ : ∃ d, depth = d + 1 := ⟨depth - 1, by omega⟩
    have hbody := walkNodes_of_shown visit depth hbody (by omega)
    have hrest := walkArms_of_shown visit (depth + 1) hrest (by omega)
    rw [Arms.headIds_arm, walkArms, walkTo, Arms.walk]
    simp only [(g.block_eq_ok_iff).2 hblock, ok_bind, hnodes, hbody, hrest, pure_eq_ok]
    split <;> rfl

end

end Graph

end Unguard
