import Unguard.Proofs.Represents

/-!
# Growing a tree in a graph

Both reading a text and copying nodes build trees in a graph from the inside out: first the blocks of a
node, then the node, then its place in a block.  `Graph.Extends` says which numbers were given out on
the way and that older entries are as they were, but for nodes put into blocks.  `Graph.Grows` and
`Graph.GrowsArms` add the tree that has come to stand.

What can be built is covered by a few steps: a node over blocks (`GrowsArms.allocNode`), which then gets
a place (`GrowsNode.place`), nodes one after the other (`Grows.trans`), a block around nodes
(`Grows.arm`), blocks one after the other (`GrowsArms.append`).
-/

namespace Unguard

/-! ### Numbers given out -/

/-- The identifiers with numbers from `a` up to `b`. -/
def newIds {ι : Type} (mk : Nat → ι) (a b : Nat) : List ι :=
  (List.range' a (b - a)).map mk

section NewIds

variable {ι : Type} {mk : Nat → ι} {a b c : Nat}

/-- The numbers given out are those from the old size up to the new one. -/
theorem mem_newIds {x : ι} : x ∈ newIds mk a b ↔ ∃ i, a ≤ i ∧ i < b ∧ mk i = x := by
  rw [newIds, List.mem_map]
  refine exists_congr fun i => ?_
  rw [List.mem_range'_1, and_assoc]
  constructor
  · rintro ⟨ha, hb, hx⟩
    exact ⟨ha, by omega, hx⟩
  · rintro ⟨ha, hb, hx⟩
    exact ⟨ha, by omega, hx⟩

@[simp] theorem newIds_self : newIds mk a a = [] := by
  simp [newIds]

/-- What is given out in two goes is given out in order. -/
theorem newIds_append (hab : a ≤ b) (hbc : b ≤ c) :
    newIds mk a b ++ newIds mk b c = newIds mk a c := by
  obtain ⟨m, rfl⟩ := Nat.exists_eq_add_of_le hab
  obtain ⟨n, rfl⟩ := Nat.exists_eq_add_of_le hbc
  have hm : a + m - a = m := by omega
  have hn : a + m + n - (a + m) = n := by omega
  have hmn : a + m + n - a = m + n := by omega
  rw [newIds, newIds, newIds, ← List.map_append, hm, hn, hmn]
  exact congrArg (List.map mk) List.range'_append_1

theorem newIds_succ (hab : a ≤ b) : newIds mk a (b + 1) = newIds mk a b ++ [mk b] := by
  rw [← newIds_append hab (Nat.le_succ b)]
  simp [newIds]

theorem nodup_newIds (hmk : Function.Injective mk) : (newIds mk a b).Nodup :=
  List.Nodup.map hmk List.nodup_range'

end NewIds

theorem NodeId.mk_injective : Function.Injective NodeId.mk := fun _ _ h => NodeId.mk.inj h

theorem BlockId.mk_injective : Function.Injective BlockId.mk := fun _ _ h => BlockId.mk.inj h

theorem ValueId.mk_injective : Function.Injective ValueId.mk := fun _ _ h => ValueId.mk.inj h

namespace Graph

/-! ### Extensions -/

/-- `g'` has the nodes `ns`, the blocks `bs` and the values `vs` besides what is in `g`.  Of the older
entries only the lists of nodes of blocks have changed, by `edit`. -/
structure Extends (edit : BlockId → List NodeId → List NodeId) (ns : List NodeId)
    (bs : List BlockId) (vs : List ValueId) (g g' : Graph) : Prop where
  nodes_le : g.nodes.size ≤ g'.nodes.size
  blocks_le : g.blocks.size ≤ g'.blocks.size
  values_le : g.values.size ≤ g'.values.size
  node? : ∀ n, n.index < g.nodes.size → g'.node? n = g.node? n
  block? : ∀ c, c.index < g.blocks.size → g'.block? c = (g.block? c).map fun block =>
    { block with nodes := edit c block.nodes }
  value? : ∀ v, v.index < g.values.size → g'.value? v = g.value? v
  ids : ns.Perm (newIds NodeId.mk g.nodes.size g'.nodes.size)
  blockIds : bs.Perm (newIds BlockId.mk g.blocks.size g'.blocks.size)
  definitions : vs.Perm (newIds ValueId.mk g.values.size g'.values.size)

namespace Extends

variable {g g' g₁ g₂ : Graph} {edit edit' : BlockId → List NodeId → List NodeId}
  {ns ns' : List NodeId} {bs bs' : List BlockId} {vs vs' : List ValueId}

theorem refl (g : Graph) : Extends (fun _ l => l) [] [] [] g g where
  nodes_le := Nat.le_refl _
  blocks_le := Nat.le_refl _
  values_le := Nat.le_refl _
  node? _ _ := rfl
  block? _ _ := by simp
  value? _ _ := rfl
  ids := by simp
  blockIds := by simp
  definitions := by simp

/-- Extensions follow one another: numbers are given out in order, and lists are edited one after the
other. -/
theorem trans (h : Extends edit ns bs vs g g₁) (h' : Extends edit' ns' bs' vs' g₁ g₂) :
    Extends (fun c l => edit' c (edit c l)) (ns ++ ns') (bs ++ bs') (vs ++ vs') g g₂ where
  nodes_le := Nat.le_trans h.nodes_le h'.nodes_le
  blocks_le := Nat.le_trans h.blocks_le h'.blocks_le
  values_le := Nat.le_trans h.values_le h'.values_le
  node? n hn := (h'.node? n (Nat.lt_of_lt_of_le hn h.nodes_le)).trans (h.node? n hn)
  block? c hc := by
    rw [h'.block? c (Nat.lt_of_lt_of_le hc h.blocks_le), h.block? c hc, Option.map_map]
    rfl
  value? v hv := (h'.value? v (Nat.lt_of_lt_of_le hv h.values_le)).trans (h.value? v hv)
  ids := newIds_append h.nodes_le h'.nodes_le ▸ h.ids.append h'.ids
  blockIds := newIds_append h.blocks_le h'.blocks_le ▸ h.blockIds.append h'.blockIds
  definitions := newIds_append h.values_le h'.values_le ▸ h.definitions.append h'.definitions

/-- The order of what is new does not matter, nor does what is done to blocks that are not old. -/
theorem congr (h : Extends edit ns bs vs g g')
    (hedit : ∀ c : BlockId, c.index < g.blocks.size → edit' c = edit c) (hns : ns'.Perm ns)
    (hbs : bs'.Perm bs) (hvs : vs'.Perm vs) : Extends edit' ns' bs' vs' g g' where
  nodes_le := h.nodes_le
  blocks_le := h.blocks_le
  values_le := h.values_le
  node? := h.node?
  block? c hc := by rw [h.block? c hc, hedit c hc]
  value? := h.value?
  ids := hns.trans h.ids
  blockIds := hbs.trans h.blockIds
  definitions := hvs.trans h.definitions

theorem index_of_mem_ids (h : Extends edit ns bs vs g g') {n : NodeId} (hn : n ∈ ns) :
    g.nodes.size ≤ n.index ∧ n.index < g'.nodes.size := by
  obtain ⟨i, ha, hb, rfl⟩ := mem_newIds.1 (h.ids.subset hn)
  exact ⟨ha, hb⟩

theorem index_of_mem_blockIds (h : Extends edit ns bs vs g g') {b : BlockId} (hb : b ∈ bs) :
    g.blocks.size ≤ b.index ∧ b.index < g'.blocks.size := by
  obtain ⟨i, ha, hlt, rfl⟩ := mem_newIds.1 (h.blockIds.subset hb)
  exact ⟨ha, hlt⟩

theorem index_of_mem_definitions (h : Extends edit ns bs vs g g') {v : ValueId} (hv : v ∈ vs) :
    g.values.size ≤ v.index ∧ v.index < g'.values.size := by
  obtain ⟨i, ha, hb, rfl⟩ := mem_newIds.1 (h.definitions.subset hv)
  exact ⟨ha, hb⟩

/-- Nodes that stand in a graph stand in an extension, if their blocks are left alone. -/
theorem stand_body (h : Extends edit ns bs vs g g') {body : NodeTrees} {parent : Option BlockId}
    (hs : body.Stand g parent) (hedit : ∀ c ∈ body.blockIds, ∀ l, edit c l = l) :
    body.Stand g' parent := by
  refine hs.congr (fun n hn => ?_) fun c hc => ?_
  · obtain ⟨node, hnode, -⟩ := hs.exists_node hn
    exact h.node? n (g.index_lt_of_node? hnode)
  · obtain ⟨view, hview, rfl⟩ := Body.mem_blockIds.1 hc
    obtain ⟨nodes, owner, hblock, -⟩ := hs.block hview
    rw [h.block? _ (g.index_lt_of_block? hblock), hblock, Option.map_some, hedit _ hc]

@[inherit_doc stand_body]
theorem stand_arms (h : Extends edit ns bs vs g g') {arms : BlockTrees} {owner : Option NodeId}
    (hs : arms.Stand g owner) (hedit : ∀ c ∈ arms.blockIds, ∀ l, edit c l = l) :
    arms.Stand g' owner := by
  refine hs.congr (fun n hn => ?_) fun c hc => ?_
  · obtain ⟨node, hnode, -⟩ := hs.exists_node hn
    exact h.node? n (g.index_lt_of_node? hnode)
  · obtain ⟨view, hview, rfl⟩ := Arms.mem_blockIds.1 hc
    obtain ⟨nodes, place, hblock, -⟩ := hs.block hview
    rw [h.block? _ (g.index_lt_of_block? hblock), hblock, Option.map_some, hedit _ hc]

end Extends

/-! ### Trees that come to stand -/

/-- The nodes have come to stand in block `b`, which was there before; `put` says where. -/
structure Grows (b : BlockId) (put : List NodeId → List NodeId) (body : NodeTrees)
    (g g' : Graph) : Prop where
  extension : Extends (fun c l => if c = b then put l else l) body.ids body.blockIds
    (NodeTrees.definitions body) g g'
  stand : body.Stand g' (some b)

/-- The blocks have come to stand, and nothing owns them yet. -/
structure GrowsArms (arms : BlockTrees) (g g' : Graph) : Prop where
  extension : Extends (fun _ l => l) arms.ids arms.blockIds (BlockTrees.definitions arms) g g'
  stand : arms.Stand g' none

section Grow

variable {g g₁ g₂ g' : Graph} {b : BlockId} {put put' : List NodeId → List NodeId}

theorem Grows.done (g : Graph) (b : BlockId) : Grows b (fun l => l) .done g g where
  extension := (Extends.refl g).congr (fun _ _ => by simp) (.refl _) (.refl _) (.refl _)
  stand := trivial

theorem GrowsArms.done (g : Graph) : GrowsArms .done g g where
  extension := Extends.refl g
  stand := trivial

/-- Nodes that come to stand after others stand with them. -/
theorem Grows.trans {first next : NodeTrees} (h : Grows b put first g g₁)
    (h' : Grows b put' next g₁ g₂) (hb : b.index < g.blocks.size) :
    Grows b (fun l => put' (put l)) (first ++ next) g g₂ where
  extension := by
    refine (h.extension.trans h'.extension).congr (fun c _ => ?_) ?_ ?_ ?_
    · funext l
      by_cases hc : c = b <;> simp [hc]
    · rw [Body.ids, Body.collect_append]
      exact .refl _
    · rw [Body.blockIds, Body.collect_append]
      exact .refl _
    · rw [NodeTrees.definitions_eq_collect, Body.collect_append, ← NodeTrees.definitions_eq_collect,
        ← NodeTrees.definitions_eq_collect]
  stand := by
    refine Body.stand_append.2 ⟨h'.extension.stand_body h.stand fun c hc l => ?_, h'.stand⟩
    have hle := (h.extension.index_of_mem_blockIds hc).1
    exact if_neg fun hcb => by subst hcb; omega

/-- Blocks that come to stand after others stand with them. -/
theorem GrowsArms.append {head : BlockView} {body : NodeTrees} {rest : BlockTrees}
    (h : GrowsArms (.arm head body .done) g g₁) (h' : GrowsArms rest g₁ g₂) :
    GrowsArms (.arm head body rest) g g₂ where
  extension := by
    refine (h.extension.trans h'.extension).congr (fun c _ => rfl) ?_ ?_ ?_ <;> simp
  stand := by
    obtain ⟨hhead, hbody, -⟩ := h'.extension.stand_arms h.stand fun _ _ _ => rfl
    exact ⟨hhead, hbody, h'.stand⟩

/-! ### A node over blocks -/

/-- The node `n` has been given its place in block `b`. -/
structure Placed (b : BlockId) (n : NodeId) (put : List NodeId → List NodeId) (g g' : Graph) :
    Prop where
  node? : ∀ m, g'.node? m = if n = m then (g.node? m).map fun node => { node with parent := some b }
    else g.node? m
  block? : ∀ c, g'.block? c = if b = c then (g.block? c).map fun block =>
    { block with nodes := put block.nodes } else g.block? c
  values : g'.values = g.values
  types : g'.types = g.types
  nodes_size : g'.nodes.size = g.nodes.size
  blocks_size : g'.blocks.size = g.blocks.size

theorem placed_attachLast (g : Graph) (b : BlockId) (n : NodeId) :
    Placed b n (· ++ [n]) g (g.attachLast b n) where
  node? := g.node?_attachLast b n
  block? c := g.block?_attachLast b c n
  values := rfl
  types := rfl
  nodes_size := size_nodes_modifyNode g n _
  blocks_size := size_blocks_modifyBlock _ b _

/-- A new node as its surroundings see it. -/
def newView (g : Graph) (spec : NodeSpec) : NodeView :=
  { id := ⟨g.nodes.size⟩, kind := spec.kind, inputs := spec.inputs, outputs := g.newOutputs spec,
    attributes := spec.attributes }

theorem newOutputs_eq_newIds (g : Graph) (spec : NodeSpec) :
    g.newOutputs spec = newIds ValueId.mk g.values.size (g.values.size + spec.outputs.length) := by
  rw [newOutputs, newIds, Nat.add_sub_cancel_left]

/-- A node over blocks that stands nowhere yet. -/
structure GrowsNode (body : NodeTrees) (g g' : Graph) : Prop where
  extension : Extends (fun _ l => l) body.ids body.blockIds (NodeTrees.definitions body) g g'
  stand : body.Stand g' none

/-- A node over blocks that stand: it becomes their owner, and stands nowhere yet. -/
theorem GrowsArms.allocNode {arms : BlockTrees} {spec : NodeSpec} (h : GrowsArms arms g g₁)
    (hblocks : spec.blocks = arms.headIds) :
    GrowsNode (.node (g₁.newView spec) arms .done) g (g₁.allocNode spec).2 := by
  have hnew : ∀ c ∈ arms.headIds, g.blocks.size ≤ c.index := fun c hc =>
    (h.extension.index_of_mem_blockIds (Arms.headIds_subset_blockIds hc)).1
  have hnodes := g₁.size_nodes_allocNode spec
  have hvalues := g₁.size_values_allocNode spec
  have hsize := g₁.size_blocks_allocNode spec
  have hle := h.extension.nodes_le
  have hvle := h.extension.values_le
  -- First that the rest of the graph is extended only, then that the node stands in it.
  refine ⟨⟨?_, ?_, ?_, fun n hn => ?_, fun c hc => ?_, fun v hv => ?_, ?_, ?_, ?_⟩, ?_, ?_, trivial⟩
  · omega
  · exact hsize ▸ h.extension.blocks_le
  · omega
  · have hne : n ≠ ⟨g₁.nodes.size⟩ := fun he => by subst he; simp at hn; omega
    rw [node?_allocNode, if_neg hne, h.extension.node? n hn]
  · have hout : c ∉ spec.blocks := fun hin => by
      have := hnew c (hblocks ▸ hin)
      omega
    rw [block?_allocNode, h.extension.block? c hc]
    cases g.block? c <;> simp [hout]
  · exact (value?_allocNode_of_lt g₁ spec (Nat.lt_of_lt_of_le hv hvle)).trans (h.extension.value? v hv)
  · rw [hnodes, newIds_succ hle, Body.ids_node, Body.ids_done, List.append_nil]
    exact (List.perm_append_singleton _ _).symm.trans (h.extension.ids.append_right _)
  · rw [hsize, Body.blockIds_node, Body.blockIds_done, List.append_nil]
    exact h.extension.blockIds
  · rw [hvalues, ← newIds_append hvle (Nat.le_add_right _ _), ← newOutputs_eq_newIds,
      NodeTrees.definitions_node, NodeTrees.definitions_done, List.append_nil]
    exact List.perm_append_comm.trans (h.extension.definitions.append_right _)
  · rw [newView, node?_allocNode, if_pos rfl, newEntry, hblocks]
    rfl
  · -- the blocks stood without an owner, and are the node's now
    refine h.stand.own (fun c hc block hblock => ?_) (List.Subset.refl _) (fun m hm => ?_)
      fun c hc => ?_
    · obtain ⟨block', hblock', howner⟩ := h.stand.exists_head hc
      obtain rfl := Option.some.inj (hblock'.symm.trans hblock)
      exact howner
    · have hlt := (h.extension.index_of_mem_ids hm).2
      have hne : m ≠ ⟨g₁.nodes.size⟩ := fun he => by subst he; simp at hlt
      rw [node?_allocNode, if_neg hne]
    · rw [block?_allocNode, hblocks]
      rfl

/-- A node that stood nowhere gets a place in a block that was there before. -/
theorem GrowsNode.place {head : NodeView} {arms : BlockTrees}
    (h : GrowsNode (.node head arms .done) g g₁) (hb : b.index < g.blocks.size)
    (hplaced : Placed b head.id put g₁ g') : Grows b put (.node head arms .done) g g' := by
  have hids := h.extension.ids.nodup_iff.2 (nodup_newIds NodeId.mk_injective)
  rw [Body.ids_node, Body.ids_done, List.append_nil, List.nodup_cons] at hids
  have hfresh := (h.extension.index_of_mem_ids (Body.ids_node head arms .done ▸ List.mem_cons_self)).1
  obtain ⟨hhead, harms, -⟩ := h.stand
  -- Only the new node and the block it is put in change: the old entries and those inside the new
  -- node are neither.
  refine ⟨⟨?_, ?_, ?_, fun n hn => ?_, fun c hc => ?_, fun v hv => ?_, ?_, ?_, ?_⟩, ?_, ?_, trivial⟩
  · exact hplaced.nodes_size ▸ h.extension.nodes_le
  · exact hplaced.blocks_size ▸ h.extension.blocks_le
  · exact hplaced.values ▸ h.extension.values_le
  · have hne : head.id ≠ n := fun he => by subst he; omega
    rw [hplaced.node?, if_neg hne, h.extension.node? n hn]
  · rw [hplaced.block?, h.extension.block? c hc]
    by_cases hcb : b = c
    · simp [hcb]
    · simp [hcb, Ne.symm hcb]
  · rw [value?, hplaced.values]
    exact h.extension.value? v hv
  · exact hplaced.nodes_size ▸ h.extension.ids
  · exact hplaced.blocks_size ▸ h.extension.blockIds
  · exact hplaced.values ▸ h.extension.definitions
  · rw [hplaced.node?, if_pos rfl, hhead]
    rfl
  · refine harms.congr (fun m hm => ?_) fun c hc => ?_
    · rw [hplaced.node?, if_neg fun he : head.id = m => hids.1 (he ▸ hm)]
    · have hge := (h.extension.index_of_mem_blockIds (b := c) (by simpa using hc)).1
      have hne : b ≠ c := fun he => by subst he; omega
      rw [hplaced.block?, if_neg hne]

theorem GrowsArms.node {arms : BlockTrees} {spec : NodeSpec} (h : GrowsArms arms g g₁)
    (hblocks : spec.blocks = arms.headIds) (hb : b.index < g.blocks.size)
    (hplaced : Placed b ⟨g₁.nodes.size⟩ put (g₁.allocNode spec).2 g') :
    Grows b put (.node (g₁.newView spec) arms .done) g g' :=
  (h.allocNode hblocks).place hb hplaced

/-! ### A block around nodes -/

/-- The next block has been made, with these parameters. -/
structure Opened (params : List ValueId) (g g' : Graph) : Prop where
  extension : Extends (fun _ l => l) [] [⟨g.blocks.size⟩] params g g'
  block : g'.block? ⟨g.blocks.size⟩ = some { Block.empty with params }

theorem Opened.index_lt {params : List ValueId} (h : Opened params g g₁) :
    (⟨g.blocks.size⟩ : BlockId).index < g₁.blocks.size :=
  (h.extension.index_of_mem_blockIds (List.mem_singleton_self _)).2

/-- A new block is open, and has no parameters. -/
theorem opened_newBlock (g : Graph) : Opened [] g g.newBlock.2 := by
  have hsize : g.newBlock.2.blocks.size = g.blocks.size + 1 := Array.size_push ..
  refine ⟨⟨Nat.le_refl _, by omega, Nat.le_refl _, fun n _ => rfl, fun c hc => ?_, fun v _ => rfl,
    by simp [newBlock], ?_, by simp [newBlock]⟩, ?_⟩
  · have hne : c ≠ ⟨g.blocks.size⟩ := fun he => by subst he; simp at hc
    rw [block?_newBlock, if_neg hne]
    simp
  · rw [hsize, newIds_succ (Nat.le_refl _), newIds_self]
    rfl
  · rw [block?_newBlock, if_pos rfl]
    rfl

/-- An open block gets one parameter more. -/
theorem Opened.allocParam {params : List ValueId} (h : Opened params g g₁) (label : Label) :
    Opened (params ++ [⟨g₁.values.size⟩]) g (g₁.allocParam ⟨g.blocks.size⟩ label).2 := by
  have hvalues : (g₁.allocParam ⟨g.blocks.size⟩ label).2.values.size = g₁.values.size + 1 :=
    Array.size_push ..
  have hsize : (g₁.allocParam ⟨g.blocks.size⟩ label).2.blocks.size = g₁.blocks.size :=
    Array.size_modify
  have hvle := h.extension.values_le
  refine ⟨⟨h.extension.nodes_le, hsize ▸ h.extension.blocks_le, by omega, h.extension.node?,
    fun c hc => ?_, fun v hv => ?_, h.extension.ids, hsize ▸ h.extension.blockIds, ?_⟩, ?_⟩
  · have hne : (⟨g.blocks.size⟩ : BlockId) ≠ c := fun he => by subst he; simp at hc
    rw [block?_allocParam, if_neg hne]
    exact h.extension.block? c hc
  · have hne : v ≠ ⟨g₁.values.size⟩ := fun he => by subst he; simp at hv; omega
    rw [value?_allocParam, if_neg hne]
    exact h.extension.value? v hv
  · rw [hvalues, newIds_succ hvle]
    exact h.extension.definitions.append_right _
  · rw [block?_allocParam, if_pos rfl, h.block]
    rfl

/-- What a new block returns is nothing that an old one sees. -/
theorem Extends.assignReturns {edit : BlockId → List NodeId → List NodeId} {ns : List NodeId}
    {bs : List BlockId} {vs : List ValueId} (h : Extends edit ns bs vs g g')
    (hb : g.blocks.size ≤ b.index) (returns : List ValueId) :
    Extends edit ns bs vs g (g'.assignReturns b returns) where
  nodes_le := nodes_assignReturns g' b returns ▸ h.nodes_le
  blocks_le := by rw [size_blocks_assignReturns]; exact h.blocks_le
  values_le := values_assignReturns g' b returns ▸ h.values_le
  node? n hn := (node?_assignReturns g' b returns n).trans (h.node? n hn)
  block? c hc := by
    have hne : b ≠ c := fun he => by subst he; omega
    rw [block?_assignReturns, if_neg hne, h.block? c hc]
  value? v hv := (value?_assignReturns g' b returns v).trans (h.value? v hv)
  ids := nodes_assignReturns g' b returns ▸ h.ids
  blockIds := by rw [size_blocks_assignReturns]; exact h.blockIds
  definitions := values_assignReturns g' b returns ▸ h.definitions

/-- A block that was opened and filled stands with all that is in it. -/
theorem Grows.arm {params : List ValueId} {body : NodeTrees} (hopened : Opened params g g₁)
    (h : Grows ⟨g.blocks.size⟩ put body g₁ g₂) (hput : put [] = body.headIds)
    (returns : List ValueId) :
    GrowsArms (.arm ⟨⟨g.blocks.size⟩, params, returns⟩ body .done) g
      (g₂.assignReturns ⟨g.blocks.size⟩ returns) := by
  have hlt := hopened.index_lt
  refine ⟨?_, ?_, ?_, trivial⟩
  · refine (((hopened.extension.trans h.extension).assignReturns (Nat.le_refl _) returns).congr
      (fun c hc => ?_) ?_ ?_ ?_)
    · have hne : c ≠ ⟨g.blocks.size⟩ := fun he => by subst he; simp at hc
      simp [hne]
    · simp
    · simp
    · simp
  · rw [block?_assignReturns, if_pos rfl, h.extension.block? _ hlt, hopened.block]
    simp [Block.empty, BlockView.entry, hput]
  · refine h.stand.congr (fun n _ => node?_assignReturns _ _ _ n) fun c hc => ?_
    have hge := (h.extension.index_of_mem_blockIds hc).1
    have hne : (⟨g.blocks.size⟩ : BlockId) ≠ c := fun he => by subst he; omega
    rw [block?_assignReturns, if_neg hne]

end Grow

/-! ### A whole graph -/

/-- What is built from nothing is all there is. -/
theorem GrowsArms.represents {g : Graph} {t : BlockTree} (h : GrowsArms t.toArms void g)
    (htop : t.head.id = top) (hm : g.Mirrored) : g.Represents t where
  top := htop
  stand := h.stand
  nodup_ids := h.extension.ids.nodup_iff.2 (nodup_newIds NodeId.mk_injective)
  nodup_blockIds := h.extension.blockIds.nodup_iff.2 (nodup_newIds BlockId.mk_injective)
  mem_ids n node hn _ :=
    h.extension.ids.symm.subset (mem_newIds.2 ⟨_, Nat.zero_le _, g.index_lt_of_node? hn, rfl⟩)
  returns b block hb hout := by
    have hin : b ∈ newIds BlockId.mk 0 g.blocks.size :=
      mem_newIds.2 ⟨_, Nat.zero_le _, g.index_lt_of_block? hb, rfl⟩
    exact absurd (h.extension.blockIds.symm.subset hin) hout
  mirrored := hm
  defined _ hv := (h.extension.index_of_mem_definitions hv).2

theorem GrowsArms.nodup_definitions {g g' : Graph} {arms : BlockTrees} (h : GrowsArms arms g g') :
    (BlockTrees.definitions arms).Nodup :=
  h.extension.definitions.nodup_iff.2 (nodup_newIds ValueId.mk_injective)

end Graph

end Unguard
