import Unguard.Proofs.Safety

/-!
# Graphs under another coding

Nodes carry attributes and values carry labels, and both point into the table of types.  What is done
to a graph never depends on them: they are handed on, and looked at only when the graph is written.
`Graph.recode` puts other attributes, other labels and another table in their place, and every edit,
every copy and every erasure commutes with it.

Copying looks labels up, and a value that does not exist has a label of its own.  So copies commute
with a recoding only where the values that are copied exist.  In a graph whose links agree they do
(`Consistent.index_lt_of_mem_definitions`).
-/

namespace Unguard

/-! ### Steps that may fail -/

section Steps

variable {ε α α' β β' γ : Type}

/-- Steps that commute with a map, one after the other.  What comes after the first step only matters
where that step succeeds. -/
theorem bind_commutes {x : Except ε α} {x' : Except ε α'} {f : α → α'} {next : α → Except ε β}
    {next' : α' → Except ε β'} {k : β → β'} (hx : x' = x.map f)
    (h : ∀ a, x = .ok a → next' (f a) = (next a).map k) : (x' >>= next') = (x >>= next).map k := by
  subst hx
  cases x with
  | error e => rfl
  | ok a => exact h a rfl

theorem bind_map (x : Except ε α) (f : α → β) (next : β → Except ε γ) :
    (x.map f >>= next) = (x >>= fun a => next (f a)) := by
  cases x <;> rfl

theorem map_bind (x : Except ε α) (next : α → Except ε β) (f : β → γ) :
    (x >>= next).map f = (x >>= fun a => (next a).map f) := by
  cases x <;> rfl

end Steps

/-! ### Recodings -/

/-- Other attributes, other labels, and the types that they point to. -/
structure Recoding where
  attributes : Attributes → Attributes
  label : Label → Label
  types : TypeTable

namespace Recoding

variable (ρ : Recoding)

def node (node : Node) : Node :=
  { node with attributes := ρ.attributes node.attributes }

theorem parent_node (node : Node) : (ρ.node node).parent = node.parent := rfl

def value (value : Value) : Value :=
  { value with label := ρ.label value.label }

def view (x : NodeView) : NodeView :=
  { x with attributes := ρ.attributes x.attributes }

def spec (spec : NodeSpec) : NodeSpec :=
  { spec with outputs := spec.outputs.map ρ.label, attributes := ρ.attributes spec.attributes }

def body (body : NodeTrees) : NodeTrees :=
  body.map ρ.view id

def arms (arms : BlockTrees) : BlockTrees :=
  arms.map ρ.view id

def tree (t : BlockTree) : BlockTree :=
  ⟨t.head, ρ.body t.body⟩

end Recoding

/-- The graph with other attributes, labels and types. -/
def Graph.recode (g : Graph) (ρ : Recoding) : Graph :=
  { g with nodes := g.nodes.map ρ.node, values := g.values.map ρ.value, types := ρ.types }

/-- A copy under way in a graph with other attributes, labels and types. -/
def Copying.recode (c : Copying) (ρ : Recoding) : Copying :=
  ⟨c.graph.recode ρ, c.subst⟩

namespace Graph

variable (g : Graph) (ρ : Recoding)

/-! ### Looking up -/

theorem node?_recode (n : NodeId) : (g.recode ρ).node? n = (g.node? n).map ρ.node :=
  Array.getElem?_map

theorem value?_recode (v : ValueId) : (g.recode ρ).value? v = (g.value? v).map ρ.value :=
  Array.getElem?_map

theorem block?_recode (b : BlockId) : (g.recode ρ).block? b = g.block? b := rfl

theorem block_recode (b : BlockId) : (g.recode ρ).block b = g.block b := rfl

theorem size_nodes_recode : (g.recode ρ).nodes.size = g.nodes.size :=
  Array.size_map

theorem size_values_recode : (g.recode ρ).values.size = g.values.size :=
  Array.size_map

theorem node_recode (n : NodeId) : (g.recode ρ).node n = (g.node n).map ρ.node := by
  unfold Graph.node
  rw [node?_recode]
  cases g.node? n <;> rfl

theorem outputsOf_recode (n : NodeId) : (g.recode ρ).outputsOf n = g.outputsOf n := by
  unfold outputsOf
  rw [node?_recode]
  cases g.node? n <;> rfl

theorem output_recode (n : NodeId) (position : Nat) :
    (g.recode ρ).output n position = g.output n position := by
  unfold output
  rw [node_recode, bind_map]
  rfl

variable {g} in
theorem labelOf_recode {v : ValueId} (hv : v.index < g.values.size) :
    (g.recode ρ).labelOf v = ρ.label (g.labelOf v) := by
  obtain ⟨value, hvalue⟩ := g.exists_value? hv
  unfold labelOf
  rw [value?_recode, hvalue]
  rfl

/-! ### Edits -/

/-- An edit that does not look at what is recoded can be made before or after. -/
theorem modifyNode_recode (n : NodeId) {f : Node → Node}
    (hf : ∀ node, f (ρ.node node) = ρ.node (f node)) :
    (g.recode ρ).modifyNode n f = (g.modifyNode n f).recode ρ := by
  have hnodes : (g.nodes.map ρ.node).modify n.index f = (g.nodes.modify n.index f).map ρ.node := by
    apply Array.ext_getElem?
    intro i
    rw [Array.getElem?_modify, Array.getElem?_map, Array.getElem?_map, Array.getElem?_modify]
    split
    · cases g.nodes[i]? with
      | none => rfl
      | some node => exact congrArg some (hf node)
    · rfl
  simp only [modifyNode, recode, hnodes]

theorem modifyBlock_recode (b : BlockId) (f : Block → Block) :
    (g.recode ρ).modifyBlock b f = (g.modifyBlock b f).recode ρ := rfl

theorem allocParam_recode (b : BlockId) (label : Label) : (g.recode ρ).allocParam b (ρ.label label) =
    ((g.allocParam b label).1, (g.allocParam b label).2.recode ρ) := by
  simp [allocParam, recode, modifyBlock, paramCount, block?, Recoding.value]

/-- New values have the labels that the recoding gives them. -/
theorem allocNode_recode (spec : NodeSpec) : (g.recode ρ).allocNode (ρ.spec spec) =
    ((g.allocNode spec).1, (g.allocNode spec).2.recode ρ) := by
  have hvalues : ∀ (n : NodeId), (spec.outputs.map ρ.label).mapIdx
      (fun position label => Value.mk (.output n position) label) =
      (spec.outputs.mapIdx fun position label => Value.mk (.output n position) label).map ρ.value := by
    intro n
    apply List.ext_getElem?
    intro i
    simp only [List.getElem?_mapIdx, List.getElem?_map, Option.map_map]
    rfl
  simp [allocNode, recode, Recoding.spec, Recoding.node, hvalues]

theorem attachLast_recode (b : BlockId) (n : NodeId) :
    (g.recode ρ).attachLast b n = (g.attachLast b n).recode ρ := by
  unfold attachLast
  rw [modifyNode_recode, modifyBlock_recode]
  exact fun _ => rfl

theorem assignReturns_recode (b : BlockId) (values : List ValueId) :
    (g.recode ρ).assignReturns b values = (g.assignReturns b values).recode ρ := by
  unfold assignReturns
  rw [block?_recode]
  cases g.block? b <;> rfl

theorem setReturns_recode (b : BlockId) (values : List ValueId) :
    (g.recode ρ).setReturns b values = (g.setReturns b values).map (·.recode ρ) := by
  unfold setReturns
  rw [map_bind]
  refine bind_congr fun _ => ?_
  exact congrArg Except.ok (assignReturns_recode g ρ b values)

/-- What keeps a block from being released is not recoded. -/
theorem release_recode (b : BlockId) :
    (g.recode ρ).release b = (g.release b).map (·.recode ρ) := by
  unfold release
  split
  · rfl
  · rw [map_bind]
    refine bind_congr fun block => ?_
    split
    · rfl
    · split <;> rfl

theorem removalFault?_recode (n : NodeId) (node : Node) :
    (g.recode ρ).removalFault? n (ρ.node node) = g.removalFault? n node := rfl

theorem remove_recode (n : NodeId) : (g.recode ρ).remove n = (g.remove n).map (·.recode ρ) := by
  unfold remove
  refine bind_commutes (node_recode g ρ n) fun node _ => ?_
  rw [removalFault?_recode]
  cases g.removalFault? n node with
  | some fault => rfl
  | none =>
    let g' : Graph := { g with uses := g.uses.leave (Holder.slots (.node n) node.inputs) }
    refine congrArg Except.ok (modifyNode_recode g' ρ n ?_)
    exact fun _ => rfl

/-- The anchor is looked for by number, so it is found in the same place. -/
theorem insertBefore_recode (anchor n : NodeId) :
    (g.recode ρ).insertBefore anchor n = (g.insertBefore anchor n).map (·.recode ρ) := by
  unfold insertBefore
  refine bind_commutes (node_recode g ρ n) fun node _ => ?_
  rw [ρ.parent_node]
  cases node.parent with
  | some parent => rfl
  | none =>
    refine bind_commutes (node_recode g ρ anchor) fun anchorNode _ => ?_
    rw [ρ.parent_node]
    cases anchorNode.parent with
    | none => rfl
    | some b =>
      refine (bind_congr fun block => ?_).trans (map_bind _ _ _).symm
      split
      · refine congrArg Except.ok ?_
        rw [modifyNode_recode, modifyBlock_recode]
        exact fun _ => rfl
      · rfl

theorem detach_recode (n : NodeId) : (g.recode ρ).detach n = (g.detach n).map (·.recode ρ) := by
  unfold detach
  refine bind_commutes (node_recode g ρ n) fun node _ => ?_
  rw [ρ.parent_node]
  cases node.parent with
  | none => rfl
  | some b =>
    refine congrArg Except.ok ?_
    rw [modifyNode_recode, modifyBlock_recode]
    exact fun _ => rfl

theorem held_recode (holder : Holder) : (g.recode ρ).held holder = g.held holder := by
  cases holder with
  | node n =>
    show ((g.recode ρ).node n >>= _) = _
    rw [node_recode, bind_map]
    rfl
  | block b => rfl

theorem hold_recode (values : List ValueId) (holder : Holder) :
    (g.recode ρ).hold values holder = (g.hold values holder).recode ρ := by
  cases holder with
  | node n =>
    apply modifyNode_recode
    exact fun _ => rfl
  | block b => rfl

/-- A slot is redirected wherever it is held, and it is held in the same place. -/
theorem redirect_recode (old new : ValueId) (slot : Slot) :
    redirect old new (g.recode ρ) slot = (redirect old new g slot).map (·.recode ρ) := by
  unfold redirect
  rw [held_recode, map_bind]
  refine bind_congr fun values => ?_
  cases values[slot.position]? with
  | none => rfl
  | some v =>
    show (if v = old then _ else _) = Except.map _ (if v = old then _ else _)
    split
    · let g' : Graph := { g with uses := g.uses.modify new (· ++ [slot]) }
      exact congrArg Except.ok (hold_recode g' ρ _ slot.holder)
    · rfl

/-- The slots that use a value are the same, and in the same order. -/
theorem replaceUses_recode (old new : ValueId) :
    (g.recode ρ).replaceUses old new = (g.replaceUses old new).map (·.recode ρ) := by
  have hslots : ∀ (slots : List Slot) (g : Graph), slots.foldlM (redirect old new) (g.recode ρ) =
      (slots.foldlM (redirect old new) g).map (·.recode ρ) := by
    intro slots
    induction slots with
    | nil => exact fun _ => rfl
    | cons slot slots ih =>
      intro g
      rw [List.foldlM_cons, List.foldlM_cons]
      exact bind_commutes (redirect_recode g ρ old new slot) fun next _ => ih next
  unfold replaceUses
  split
  · rfl
  · exact hslots _ { g with uses := g.uses.modify old fun _ => [] }

/-! ### Trees -/

variable {g ρ}

theorem unfoldArms_recode {unfold unfold' : BlockId → Except Fault BlockTree}
    (h : ∀ b, unfold' b = (unfold b).map ρ.tree) (bs : List BlockId) :
    unfoldArms unfold' bs = (unfoldArms unfold bs).map ρ.arms := by
  induction bs with
  | nil => rfl
  | cons b bs ih =>
    rw [unfoldArms, unfoldArms]
    refine bind_commutes (h b) fun tree _ => ?_
    exact bind_commutes ih fun _ _ => rfl

/-- A recoded graph unfolds to the recoded tree, as long as it is entered at the same nodes. -/
theorem unfoldNodes_recode {enter : Node → Bool} (henter : ∀ node, enter (ρ.node node) = enter node)
    {unfold unfold' : BlockId → Except Fault BlockTree} (h : ∀ b, unfold' b = (unfold b).map ρ.tree)
    (ns : List NodeId) :
    (g.recode ρ).unfoldNodes enter unfold' ns = (g.unfoldNodes enter unfold ns).map ρ.body := by
  induction ns with
  | nil => rfl
  | cons n ns ih =>
    rw [unfoldNodes, unfoldNodes]
    refine bind_commutes (node_recode g ρ n) fun node _ => ?_
    show (unfoldArms unfold' (if enter (ρ.node node) then node.blocks else []) >>= _) = _
    rw [henter]
    refine bind_commutes (unfoldArms_recode h _) fun arms _ => ?_
    exact bind_commutes ih fun _ _ => rfl

theorem unfoldBlock_recode {enter : Node → Bool} (henter : ∀ node, enter (ρ.node node) = enter node)
    (depth : Nat) (b : BlockId) :
    (g.recode ρ).unfoldBlock enter depth b = (g.unfoldBlock enter depth b).map ρ.tree := by
  induction depth generalizing b with
  | zero => rfl
  | succ depth ih =>
    rw [unfoldBlock, unfoldBlock, block_recode, map_bind]
    refine bind_congr fun block => ?_
    exact bind_commutes (unfoldNodes_recode henter ih _) fun _ _ => rfl

variable (g ρ)

theorem blockTree_recode (b : BlockId) : (g.recode ρ).blockTree b = (g.blockTree b).map ρ.tree :=
  unfoldBlock_recode (fun _ => rfl) _ b

theorem blockTrees_recode (bs : List BlockId) :
    (g.recode ρ).blockTrees bs = (g.blockTrees bs).map ρ.arms :=
  unfoldArms_recode (fun b => blockTree_recode g ρ b) bs

/-- The tree of a recoded graph is the recoded tree. -/
theorem tree_recode : (g.recode ρ).tree = g.tree.map ρ.tree :=
  blockTree_recode g ρ top

/-! ### Erasing -/

mutual

theorem eraseNodes_recode : ∀ (body : NodeTrees) (g : Graph),
    (g.recode ρ).eraseNodes (ρ.body body) = (g.eraseNodes body).map (·.recode ρ)
  | .done, _ => rfl
  | .node head arms rest, g => by
    show ((g.recode ρ).eraseNodes (ρ.body rest) >>= _) = _
    rw [eraseNodes]
    refine bind_commutes (eraseNodes_recode rest g) fun g₁ _ => ?_
    refine bind_commutes (detach_recode g₁ ρ head.id) fun g₂ _ => ?_
    exact bind_commutes (eraseArms_recode arms g₂) fun g₃ _ => remove_recode g₃ ρ head.id

/-- Erasing goes through the tree, and the trees have the same numbers. -/
theorem eraseArms_recode : ∀ (arms : BlockTrees) (g : Graph),
    (g.recode ρ).eraseArms (ρ.arms arms) = (g.eraseArms arms).map (·.recode ρ)
  | .done, _ => rfl
  | .arm head body rest, g => by
    show ((g.recode ρ).setReturns head.id [] >>= _) = _
    rw [eraseArms]
    refine bind_commutes (setReturns_recode g ρ head.id []) fun g₁ _ => ?_
    refine bind_commutes (eraseNodes_recode body g₁) fun g₂ _ => ?_
    exact bind_commutes (release_recode g₂ ρ head.id) fun g₃ _ => eraseArms_recode rest g₃

end

theorem erase_recode (n : NodeId) : (g.recode ρ).erase n = (g.erase n).map (·.recode ρ) := by
  unfold erase
  refine bind_commutes (detach_recode g ρ n) fun g₁ _ => ?_
  refine bind_commutes (node_recode g₁ ρ n) fun node _ => ?_
  refine bind_commutes (blockTrees_recode g₁ ρ node.blocks) fun arms _ => ?_
  exact bind_commutes (eraseArms_recode ρ arms g₁) fun g₂ _ => remove_recode g₂ ρ n

end Graph

/-! ### Copying -/

namespace Copying

open Unguard.Graph

/-- The second copy goes on as the first one does, under the recoding; the graph has at least `size`
values by now. -/
structure Recoded (ρ : Recoding) (size : Nat) (c d : Copying) : Prop where
  eq : d = c.recode ρ
  le : size ≤ c.graph.values.size

namespace Recoded

variable {ρ : Recoding} {size : Nat} {c d : Copying}

theorem newBlock (h : Recoded ρ size c d) :
    Recoded ρ size ⟨c.graph.newBlock.2, c.subst⟩ ⟨d.graph.newBlock.2, d.subst⟩ := by
  obtain ⟨rfl, hle⟩ := h
  exact ⟨rfl, hle⟩

theorem attachLast (h : Recoded ρ size c d) (b : BlockId) {n n' : NodeId} (hn : n' = n) :
    Recoded ρ size ⟨c.graph.attachLast b n, c.subst⟩ ⟨d.graph.attachLast b n', d.subst⟩ := by
  obtain ⟨rfl, hle⟩ := h
  subst hn
  exact ⟨congrArg (Copying.mk · c.subst) (attachLast_recode c.graph ρ b n'), hle⟩

/-- Both return the values that take the places of the same ones. -/
theorem assignReturns (h : Recoded ρ size c d) (b : BlockId) (values : List ValueId) :
    Recoded ρ size ⟨c.graph.assignReturns b (values.map c.subst.resolve), c.subst⟩
      ⟨d.graph.assignReturns b (values.map d.subst.resolve), d.subst⟩ := by
  obtain ⟨rfl, hle⟩ := h
  refine ⟨congrArg (Copying.mk · c.subst) (assignReturns_recode c.graph ρ b _), ?_⟩
  rw [values_assignReturns]
  exact hle

/-- The labels of parameters are copied from a graph that is recoded already. -/
theorem copyParams (h : Recoded ρ size c d) {vs : List ValueId} (hvs : ∀ v ∈ vs, v.index < size)
    (b : BlockId) : Recoded ρ size (c.copyParams b vs) (d.copyParams b vs) := by
  induction vs generalizing c d with
  | nil => exact h
  | cons v vs ih =>
    rw [List.forall_mem_cons] at hvs
    obtain ⟨rfl, hle⟩ := h
    refine ih ⟨?_, ?_⟩ hvs.2
    · -- the label is that of a value which was there before the copy began
      show Copying.mk ((c.graph.recode ρ).allocParam b ((c.graph.recode ρ).labelOf v)).2
        (c.subst.insert v ⟨(c.graph.recode ρ).values.size⟩) = _
      rw [labelOf_recode ρ (Nat.lt_of_lt_of_le hvs.1 hle), allocParam_recode, size_values_recode]
      rfl
    · show size ≤ (c.graph.values.push _).size
      rw [Array.size_push]
      omega

/-- A copy has the next number on both sides, and a label that is recoded on one. -/
theorem copyHead (h : Recoded ρ size c d) {head : NodeView} (hvs : ∀ v ∈ head.outputs, v.index < size)
    (inputs : List ValueId) {blocks blocks' : List BlockId} (hblocks : blocks' = blocks) :
    (d.copyHead (ρ.view head) inputs blocks').1 = (c.copyHead head inputs blocks).1 ∧
      Recoded ρ size (c.copyHead head inputs blocks).2 (d.copyHead (ρ.view head) inputs blocks').2 := by
  obtain ⟨rfl, hle⟩ := h
  subst hblocks
  -- What the first copy makes; the second one makes the same, recoded.
  let spec : NodeSpec := ⟨head.kind, inputs, head.outputs.map c.graph.labelOf, head.attributes, blocks'⟩
  have hlabels : head.outputs.map (c.graph.recode ρ).labelOf = spec.outputs.map ρ.label := by
    rw [List.map_map]
    exact List.map_congr_left fun v hv => labelOf_recode ρ (Nat.lt_of_lt_of_le (hvs v hv) hle)
  have halloc : (c.graph.recode ρ).allocNode ⟨head.kind, inputs,
      head.outputs.map (c.graph.recode ρ).labelOf, ρ.attributes head.attributes, blocks'⟩ =
      ((c.graph.allocNode spec).1, (c.graph.allocNode spec).2.recode ρ) := by
    rw [hlabels]
    exact allocNode_recode c.graph ρ spec
  have houtputs := outputsOf_recode (c.graph.allocNode spec).2 ρ (c.graph.allocNode spec).1
  rw [Copying.copyHead]
  dsimp only [Recoding.view, Copying.recode]
  rw [halloc]
  dsimp only
  rw [houtputs]
  refine ⟨rfl, rfl, ?_⟩
  show size ≤ (c.graph.allocNode spec).2.values.size
  rw [size_values_allocNode]
  omega

end Recoded

variable {ρ : Recoding} {size : Nat}

mutual

theorem recoded_copyNodes : ∀ {body : NodeTrees} {c d : Copying} (b : BlockId), Recoded ρ size c d →
    (∀ v ∈ NodeTrees.definitions body, v.index < size) →
    Recoded ρ size (c.copyNodes b body) (d.copyNodes b (ρ.body body))
  | .done, _, _, _, h, _ => h
  | .node head arms rest, c, d, b, h, hvs => by
    rw [NodeTrees.definitions, List.forall_mem_append, List.forall_mem_append] at hvs
    obtain ⟨hblocks, harms⟩ := recoded_copyArms h hvs.1.2
    obtain ⟨hid, hhead⟩ := harms.copyHead hvs.1.1 (head.inputs.map c.subst.resolve) hblocks
    have hrest := recoded_copyNodes b (hhead.attachLast b hid) hvs.2
    obtain rfl := h.eq
    exact hrest

/-- Copies are made in the same order, so they have the same numbers. -/
theorem recoded_copyArms : ∀ {arms : BlockTrees} {c d : Copying}, Recoded ρ size c d →
    (∀ v ∈ BlockTrees.definitions arms, v.index < size) →
    (d.copyArms (ρ.arms arms)).1 = (c.copyArms arms).1 ∧
      Recoded ρ size (c.copyArms arms).2 (d.copyArms (ρ.arms arms)).2
  | .done, _, _, h, _ => ⟨rfl, h⟩
  | .arm head body rest, c, d, h, hvs => by
    rw [BlockTrees.definitions, List.forall_mem_append, List.forall_mem_append] at hvs
    have hparams := h.newBlock.copyParams hvs.1.1 ⟨c.graph.blocks.size⟩
    have hbody := recoded_copyNodes ⟨c.graph.blocks.size⟩ hparams hvs.1.2
    obtain ⟨hblocks, hrest⟩ := recoded_copyArms (hbody.assignReturns _ head.returns) hvs.2
    obtain rfl := h.eq
    exact ⟨congrArg (_ :: ·) hblocks, hrest⟩

end

/-- A node with what its blocks hold. -/
theorem Recoded.copyNode {c d : Copying} (h : Recoded ρ size c d) {head : NodeView} {arms : BlockTrees}
    (houtputs : ∀ v ∈ head.outputs, v.index < size)
    (hvs : ∀ v ∈ BlockTrees.definitions arms, v.index < size) :
    (d.copyNode (ρ.view head) (ρ.arms arms)).1 = (c.copyNode head arms).1 ∧
      Recoded ρ size (c.copyNode head arms).2 (d.copyNode (ρ.view head) (ρ.arms arms)).2 := by
  obtain ⟨hblocks, harms⟩ := recoded_copyArms h hvs
  have hhead := harms.copyHead houtputs (head.inputs.map c.subst.resolve) hblocks
  obtain rfl := h.eq
  exact hhead

end Copying

/-! ### Hoisting -/

namespace Graph

variable {g : Graph} {P : ValueId → Prop}

/-! What is written out of a graph defines values of its nodes and blocks only. -/

/-- What is defined in a tree is defined by a node or by a block of the graph. -/
theorem forall_definitions_unfoldArms {unfold : BlockId → Except Fault BlockTree}
    (h : ∀ b t, unfold b = .ok t → ∀ v ∈ t.definitions, P v) : ∀ {bs : List BlockId} {arms : BlockTrees},
    unfoldArms unfold bs = .ok arms → ∀ v ∈ BlockTrees.definitions arms, P v
  | [], _, harms => by
    obtain rfl := Except.ok.inj harms
    exact fun _ hv => nomatch hv
  | b :: bs, _, harms => by
    rw [unfoldArms] at harms
    obtain ⟨t, ht, harms⟩ := bind_eq_ok_iff.1 harms
    obtain ⟨rest, hrest, harms⟩ := bind_eq_ok_iff.1 harms
    obtain rfl := Except.ok.inj harms
    rw [BlockTrees.definitions, List.forall_mem_append]
    exact ⟨h b t ht, forall_definitions_unfoldArms h hrest⟩

theorem forall_definitions_unfoldNodes {enter : Node → Bool}
    {unfold : BlockId → Except Fault BlockTree}
    (hnode : ∀ n node, g.node? n = some node → ∀ v ∈ node.outputs, P v)
    (h : ∀ b t, unfold b = .ok t → ∀ v ∈ t.definitions, P v) : ∀ {ns : List NodeId} {body : NodeTrees},
    g.unfoldNodes enter unfold ns = .ok body → ∀ v ∈ NodeTrees.definitions body, P v
  | [], _, hbody => by
    obtain rfl := Except.ok.inj hbody
    exact fun _ hv => nomatch hv
  | n :: ns, _, hbody => by
    rw [unfoldNodes] at hbody
    obtain ⟨node, hn, hbody⟩ := bind_eq_ok_iff.1 hbody
    obtain ⟨arms, harms, hbody⟩ := bind_eq_ok_iff.1 hbody
    obtain ⟨rest, hrest, hbody⟩ := bind_eq_ok_iff.1 hbody
    obtain rfl := Except.ok.inj hbody
    rw [NodeTrees.definitions, List.forall_mem_append, List.forall_mem_append]
    exact ⟨⟨hnode n node ((g.node_eq_ok_iff).1 hn), forall_definitions_unfoldArms h harms⟩,
      forall_definitions_unfoldNodes hnode h hrest⟩

theorem forall_definitions_unfoldBlock {enter : Node → Bool}
    (hnode : ∀ n node, g.node? n = some node → ∀ v ∈ node.outputs, P v)
    (hblock : ∀ b block, g.block? b = some block → ∀ v ∈ block.params, P v) (depth : Nat) :
    ∀ b t, g.unfoldBlock enter depth b = .ok t → ∀ v ∈ t.definitions, P v := by
  induction depth with
  | zero => exact fun _ _ ht => nomatch ht
  | succ depth ih =>
    intro b t ht
    rw [unfoldBlock] at ht
    obtain ⟨block, hb, ht⟩ := bind_eq_ok_iff.1 ht
    obtain ⟨body, hbody, ht⟩ := bind_eq_ok_iff.1 ht
    obtain rfl := Except.ok.inj ht
    rw [BlockTree.definitions, List.forall_mem_append]
    exact ⟨hblock b block ((g.block_eq_ok_iff).1 hb), forall_definitions_unfoldNodes hnode ih hbody⟩

/-- The values that a block defines exist. -/
theorem Consistent.index_lt_of_mem_definitions (hc : g.Consistent) {b : BlockId} {t : BlockTree}
    (ht : g.blockTree b = .ok t) : ∀ v ∈ t.definitions, v.index < g.values.size := by
  refine forall_definitions_unfoldBlock (fun n node hn v hv => ?_) (fun b block hb v hv => ?_) _ b t ht
  · obtain ⟨i, hi⟩ := List.mem_iff_getElem?.1 hv
    apply hc.index_lt_of_definedAt? (o := .output n i)
    rw [definedAt?, hn]
    exact hi
  · obtain ⟨i, hi⟩ := List.mem_iff_getElem?.1 hv
    apply hc.index_lt_of_definedAt? (o := .param b i)
    rw [definedAt?, hb]
    exact hi

variable {ρ : Recoding}

/-- Node by node, the copies before the anchor are recoded copies. -/
theorem copyBefore_recode {size : Nat} {anchor : NodeId} : ∀ {body : NodeTrees} {c d : Copying},
    Copying.Recoded ρ size c d → (∀ v ∈ NodeTrees.definitions body, v.index < size) →
    copyBefore anchor d (ρ.body body) = (copyBefore anchor c body).map (·.recode ρ)
  | .done, _, _, h, _ => congrArg Except.ok h.eq
  | .node head arms rest, c, d, h, hvs => by
    rw [NodeTrees.definitions, List.forall_mem_append, List.forall_mem_append] at hvs
    obtain ⟨hid, heq, hle⟩ := h.copyNode hvs.1.1 hvs.1.2
    show ((d.copyNode (ρ.view head) (ρ.arms arms)).2.graph.insertBefore anchor
      (d.copyNode (ρ.view head) (ρ.arms arms)).1 >>= fun graph => copyBefore anchor
        ⟨graph, (d.copyNode (ρ.view head) (ρ.arms arms)).2.subst⟩ (ρ.body rest)) = _
    rw [copyBefore, hid, heq]
    refine bind_commutes (insertBefore_recode (c.copyNode head arms).2.graph ρ anchor _) fun g₁ hg₁ => ?_
    -- inserting makes no values, so there are still enough of them
    obtain ⟨_, _, _, -, -, -, -, rfl⟩ := insertBefore_eq_ok hg₁
    exact copyBefore_recode ⟨rfl, hle⟩ hvs.2

theorem replaceOutputs_recode {n : NodeId} {values : List ValueId} {g : Graph} {position : Nat} :
    (g.recode ρ).replaceOutputs n position values =
      (g.replaceOutputs n position values).map (·.recode ρ) := by
  induction values generalizing g position with
  | nil => rfl
  | cons v values ih =>
    rw [replaceOutputs, replaceOutputs, output_recode, map_bind]
    refine bind_congr fun old => ?_
    exact bind_commutes (replaceUses_recode g ρ old v) fun g₁ _ => ih

/-- Hoisting copies labels and attributes and does not look at them. -/
theorem hoist_recode (hc : g.Consistent) (n : NodeId) (arm : BlockId) :
    (g.recode ρ).hoist n arm = (g.hoist n arm).map (·.recode ρ) := by
  unfold hoist
  refine bind_commutes (blockTree_recode g ρ arm) fun t ht => ?_
  -- Only values of the arm are copied, and these exist.
  have hvs := hc.index_lt_of_mem_definitions ht
  rw [BlockTree.definitions, List.forall_mem_append] at hvs
  have hstart : Copying.Recoded ρ g.values.size ⟨g, .empty⟩ ⟨g.recode ρ, .empty⟩ := ⟨rfl, Nat.le_refl _⟩
  refine bind_commutes (copyBefore_recode hstart hvs.2) fun c _ => ?_
  exact bind_commutes replaceOutputs_recode fun g₁ _ => erase_recode g₁ ρ n

end Graph

end Unguard
