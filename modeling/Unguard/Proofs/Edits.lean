import Unguard.Proofs.SlotChains

/-!
# Graphs made by edits

`Edit` lists the ways to change a graph, with every argument they take, and `Graph.ofEdits` carries
out a sequence of them on the empty graph.  A sequence that breaks a precondition on the way makes no
graph.  What holds of the empty graph and is kept by every edit holds of all graphs made by edits
(`Graph.ofEdits_induction`).

The first such property: slots and chains agree (`Graph.mirrored_ofEdits`).  It follows that replacing
the uses of a value never meets a slot that does not hold it.
-/

namespace Unguard

/-- A request to change a graph. -/
inductive Edit
  | internType (entry : TypeEntry)
  | newBlock
  | newParam (block : BlockId) (label : Label)
  | newNode (spec : NodeSpec)
  | append (block : BlockId) (node : NodeId)
  | insertBefore (anchor node : NodeId)
  | detach (node : NodeId)
  | remove (node : NodeId)
  | release (block : BlockId)
  | setReturns (block : BlockId) (values : List ValueId)
  | replaceUses (old new : ValueId)
  | copyLabel (source target : ValueId)
  /-- Copies a node with all it holds; the values are renamed to begin with as given. -/
  | copy (node : NodeId) (names : Renaming)
  | erase (node : NodeId)

/-- The graph after an edit, or the precondition that it breaks. -/
def Edit.apply (g : Graph) : Edit → Except Fault Graph
  | internType entry => .ok (g.internType entry).2
  | newBlock => .ok g.newBlock.2
  | newParam block label => do
    let (_, g) ← g.newParam block label
    return g
  | newNode spec => do
    let (_, g) ← g.newNode spec
    return g
  | append block node => g.append block node
  | insertBefore anchor node => g.insertBefore anchor node
  | detach node => g.detach node
  | remove node => g.remove node
  | release block => g.release block
  | setReturns block values => g.setReturns block values
  | replaceUses old new => g.replaceUses old new
  | copyLabel source target => g.copyLabel source target
  | copy node names => do
    let (_, c) ← g.copy node names
    return c.graph
  | erase node => g.erase node

namespace Graph

/-- The graph that edits make of the empty one. -/
def ofEdits (edits : List Edit) : Except Fault Graph :=
  edits.foldlM Edit.apply empty

/-- What holds of the empty graph and is kept by every edit holds of all graphs made by edits. -/
theorem ofEdits_induction {P : Graph → Prop} (hempty : P empty)
    (hstep : ∀ {g g' : Graph} (e : Edit), P g → e.apply g = .ok g' → P g') {edits : List Edit}
    {g : Graph} (h : ofEdits edits = .ok g) : P g :=
  foldlM_keeps (fun hg hok => hstep _ hg hok) hempty h

/-! ### Edits that go through -/

section Inversion

variable {g g' : Graph}

/-- A node that stands nowhere goes directly in front of one that stands in a block. -/
theorem insertBefore_eq_ok {anchor n : NodeId} (h : g.insertBefore anchor n = .ok g') :
    ∃ node b block, g.node? n = some node ∧ node.parent = none ∧ g.block? b = some block ∧
      anchor ∈ block.nodes ∧
      g' = (g.modifyNode n fun node => { node with parent := some b }).modifyBlock b fun block =>
        { block with nodes := n.insertBefore anchor block.nodes } := by
  obtain ⟨node, hnode, h⟩ := bind_eq_ok_iff.1 h
  split at h
  · exact nomatch h
  rename_i hfree
  obtain ⟨anchorNode, -, h⟩ := bind_eq_ok_iff.1 h
  split at h
  · exact nomatch h
  rename_i b _
  obtain ⟨block, hblock, h⟩ := bind_eq_ok_iff.1 h
  split at h
  · rename_i hin
    exact ⟨node, b, block, (g.node_eq_ok_iff).1 hnode, hfree, (g.block_eq_ok_iff).1 hblock, hin,
      (Except.ok.inj h).symm⟩
  · exact nomatch h

/-- A block that is released is only marked so. -/
theorem release_eq_ok {b : BlockId} (h : g.release b = .ok g') :
    g' = g.modifyBlock b fun block => { block with released := true } := by
  unfold release at h
  split at h
  · exact nomatch h
  obtain ⟨block, -, h⟩ := bind_eq_ok_iff.1 h
  split at h
  · exact nomatch h
  split at h
  · exact nomatch h
  · exact (Except.ok.inj h).symm

end Inversion

/-! ### What erasing is made of -/

/-- A property that the steps of erasing keep. -/
structure KeptByErasing (P : Graph → Prop) : Prop where
  detach : ∀ {g g' : Graph} {n : NodeId}, P g → g.detach n = .ok g' → P g'
  clearReturns : ∀ {g g' : Graph} {b : BlockId}, P g → g.setReturns b [] = .ok g' → P g'
  release : ∀ {g g' : Graph} {b : BlockId}, P g → g.release b = .ok g' → P g'
  remove : ∀ {g g' : Graph} {n : NodeId}, P g → g.remove n = .ok g' → P g'

namespace KeptByErasing

variable {P : Graph → Prop}

mutual

/-- What the edits keep, erasing nodes keeps. -/
theorem eraseNodes (k : KeptByErasing P) : ∀ (nodes : NodeTrees) {g g' : Graph}, P g →
    g.eraseNodes nodes = .ok g' → P g'
  | .done, g, g', hg, h => Except.ok.inj h ▸ hg
  | .node head arms rest, g, g', hg, h => by
    rw [Graph.eraseNodes] at h
    obtain ⟨g₁, h₁, h⟩ := bind_eq_ok_iff.1 h
    obtain ⟨g₂, h₂, h⟩ := bind_eq_ok_iff.1 h
    obtain ⟨g₃, h₃, h⟩ := bind_eq_ok_iff.1 h
    exact k.remove (k.eraseArms arms (k.detach (k.eraseNodes rest hg h₁) h₂) h₃) h

/-- Blocks are emptied and released one after another. -/
theorem eraseArms (k : KeptByErasing P) : ∀ (arms : BlockTrees) {g g' : Graph}, P g →
    g.eraseArms arms = .ok g' → P g'
  | .done, g, g', hg, h => Except.ok.inj h ▸ hg
  | .arm head body rest, g, g', hg, h => by
    rw [Graph.eraseArms] at h
    obtain ⟨g₁, h₁, h⟩ := bind_eq_ok_iff.1 h
    obtain ⟨g₂, h₂, h⟩ := bind_eq_ok_iff.1 h
    obtain ⟨g₃, h₃, h⟩ := bind_eq_ok_iff.1 h
    exact k.eraseArms rest (k.release (k.eraseNodes body (k.clearReturns hg h₁) h₂) h₃) h

end

/-- Erasing a node is clearing its blocks and removing it. -/
theorem erase (k : KeptByErasing P) {g g' : Graph} {n : NodeId} (hg : P g)
    (h : g.erase n = .ok g') : P g' := by
  rw [Graph.erase] at h
  obtain ⟨g₁, h₁, h⟩ := bind_eq_ok_iff.1 h
  obtain ⟨node, -, h⟩ := bind_eq_ok_iff.1 h
  obtain ⟨arms, -, h⟩ := bind_eq_ok_iff.1 h
  obtain ⟨g₂, h₂, h⟩ := bind_eq_ok_iff.1 h
  exact k.remove (k.eraseArms arms (k.detach hg h₁) h₂) h

end KeptByErasing

/-! ### What copying is made of -/

/-- A property that the steps of copying keep, where `bs` are the blocks that were made for nodes to
come. -/
structure KeptByCopying (P : List BlockId → Graph → Prop) : Prop where
  perm : ∀ {bs cs : List BlockId} {g : Graph}, bs.Perm cs → P bs g → P cs g
  newBlock : ∀ {bs : List BlockId} {g : Graph}, P bs g → P (g.newBlock.1 :: bs) g.newBlock.2
  allocParam : ∀ {bs : List BlockId} {g : Graph} {b : BlockId} (label : Label), b ∈ bs → P bs g →
    P bs (g.allocParam b label).2
  assignReturns : ∀ {bs : List BlockId} {g : Graph} {b : BlockId} (values : List ValueId), b ∈ bs →
    P bs g → P bs (g.assignReturns b values)
  /-- A new node becomes the owner of its blocks. -/
  allocNode : ∀ {bs : List BlockId} {g : Graph} (spec : NodeSpec), P (spec.blocks ++ bs) g →
    P bs (g.allocNode spec).2
  attachNew : ∀ {bs : List BlockId} {g : Graph} {b : BlockId} (spec : NodeSpec), b ∈ bs →
    P (spec.blocks ++ bs) g → P bs ((g.allocNode spec).2.attachLast b ⟨g.nodes.size⟩)

namespace KeptByCopying

variable {P : List BlockId → Graph → Prop}

theorem copyParams (k : KeptByCopying P) {bs : List BlockId} {b : BlockId} (hb : b ∈ bs) :
    ∀ (params : List ValueId) {c : Copying}, P bs c.graph → P bs (c.copyParams b params).graph
  | [], _, h => h
  | v :: params, c, h =>
    k.copyParams hb params (c := ⟨_, c.subst.insert v _⟩) (k.allocParam (c.graph.labelOf v) hb h)

mutual

/-- What the edits keep, copying nodes keeps. The blocks that are being filled are exceptions for the
time. -/
theorem copyNodes (k : KeptByCopying P) : ∀ (body : NodeTrees) {c : Copying} {bs : List BlockId}
    {b : BlockId}, b ∈ bs → P bs c.graph → P bs (c.copyNodes b body).graph
  | .done, _, _, _, _, h => h
  | .node _ arms rest, _, bs, _, hb, h => k.copyNodes rest hb (k.attachNew _ hb (k.copyArms arms bs h))

/-- The copies of blocks are still to be given to a node. -/
theorem copyArms (k : KeptByCopying P) : ∀ (arms : BlockTrees) {c : Copying} (bs : List BlockId),
    P bs c.graph → P ((c.copyArms arms).1 ++ bs) (c.copyArms arms).2.graph
  | .done, _, _, h => h
  | .arm head body rest, c, bs, h => by
    have hopened := k.copyParams List.mem_cons_self head.params (c := ⟨_, c.subst⟩) (k.newBlock h)
    have hfilled := k.copyNodes body List.mem_cons_self hopened
    exact k.perm List.perm_middle (k.copyArms rest _ (k.assignReturns _ List.mem_cons_self hfilled))

end

theorem copyNode (k : KeptByCopying P) (head : NodeView) (arms : BlockTrees) {c : Copying}
    (bs : List BlockId) (h : P bs c.graph) : P bs (c.copyNode head arms).2.graph :=
  k.allocNode _ (k.copyArms arms bs h)

theorem copy (k : KeptByCopying P) {g : Graph} {n m : NodeId} {r : Renaming} {c : Copying}
    (bs : List BlockId) (h : P bs g) (hok : g.copy n r = .ok (m, c)) : P bs c.graph := by
  obtain ⟨node, -, hok⟩ := bind_eq_ok_iff.1 hok
  obtain ⟨arms, -, hok⟩ := bind_eq_ok_iff.1 hok
  have hc : c = (Copying.copyNode ⟨g, r⟩ (node.view n) arms).2 :=
    (congrArg Prod.snd (Except.ok.inj hok)).symm
  rw [hc]
  exact k.copyNode (node.view n) arms bs h

end KeptByCopying

/-! ### Slots and chains agree after every edit -/

namespace Mirrored

variable {g g' : Graph}

theorem detach (h : g.Mirrored) {n : NodeId} (hok : g.detach n = .ok g') : g'.Mirrored := by
  obtain ⟨node, -, hok⟩ := bind_eq_ok_iff.1 hok
  split at hok
  · exact Except.ok.inj hok ▸ h
  · exact Except.ok.inj hok ▸ h.place n none _ (List.filter (· ≠ n))

theorem setReturns (h : g.Mirrored) {b : BlockId} {values : List ValueId}
    (hok : g.setReturns b values = .ok g') : g'.Mirrored := by
  obtain ⟨block, -, hok⟩ := bind_eq_ok_iff.1 hok
  exact Except.ok.inj hok ▸ h.assignReturns b values

theorem release (h : g.Mirrored) {b : BlockId} (hok : g.release b = .ok g') : g'.Mirrored := by
  obtain rfl := release_eq_ok hok
  exact h.modifyBlock b _ fun _ => rfl

theorem append (h : g.Mirrored) {b : BlockId} {n : NodeId} (hok : g.append b n = .ok g') :
    g'.Mirrored := by
  obtain ⟨node, -, hok⟩ := bind_eq_ok_iff.1 hok
  split at hok
  · exact nomatch hok
  · obtain ⟨block, -, hok⟩ := bind_eq_ok_iff.1 hok
    exact Except.ok.inj hok ▸ h.attachLast b n

theorem insertBefore (h : g.Mirrored) {anchor n : NodeId}
    (hok : g.insertBefore anchor n = .ok g') : g'.Mirrored := by
  obtain ⟨node, b, block, -, -, -, -, rfl⟩ := insertBefore_eq_ok hok
  exact h.place n (some b) b (n.insertBefore anchor)

theorem copyLabel (h : g.Mirrored) {source target : ValueId}
    (hok : g.copyLabel source target = .ok g') : g'.Mirrored := by
  obtain ⟨value, -, hok⟩ := bind_eq_ok_iff.1 hok
  obtain ⟨value', -, hok⟩ := bind_eq_ok_iff.1 hok
  obtain rfl := Except.ok.inj hok
  exact h.congr (fun _ => rfl) fun _ => rfl

theorem keptByErasing : KeptByErasing Mirrored where
  detach h hok := h.detach hok
  clearReturns h hok := h.setReturns hok
  release h hok := h.release hok
  remove h hok := h.remove hok

theorem keptByCopying : KeptByCopying fun _ g => g.Mirrored where
  perm _ h := h
  newBlock h := h.newBlock
  allocParam label _ h := h.allocParam _ label
  assignReturns values _ h := h.assignReturns _ values
  allocNode spec h := h.allocNode spec
  attachNew spec _ h := (h.allocNode spec).attachLast _ _

theorem copy (h : g.Mirrored) {n m : NodeId} {r : Renaming} {c : Copying}
    (hok : g.copy n r = .ok (m, c)) : c.graph.Mirrored :=
  keptByCopying.copy [] h hok

/-- Slots and chains agree after any edit, which is shown edit by edit. -/
theorem apply (h : g.Mirrored) (e : Edit) (hok : e.apply g = .ok g') : g'.Mirrored := by
  cases e with
  | internType entry => exact Except.ok.inj hok ▸ h.withTypes _
  | newBlock => exact Except.ok.inj hok ▸ h.newBlock
  | newParam block label =>
    obtain ⟨⟨v, g₁⟩, h₁, hok⟩ := bind_eq_ok_iff.1 hok
    obtain ⟨_, -, h₁⟩ := bind_eq_ok_iff.1 h₁
    obtain rfl := Except.ok.inj hok
    have hg₁ : (g.allocParam block label).2 = g₁ := congrArg Prod.snd (Except.ok.inj h₁)
    exact hg₁ ▸ h.allocParam block label
  | newNode spec =>
    obtain ⟨⟨n, g₁⟩, h₁, hok⟩ := bind_eq_ok_iff.1 hok
    obtain rfl := Except.ok.inj hok
    unfold newNode at h₁
    split at h₁
    · exact nomatch h₁
    · have hg₁ : (g.allocNode spec).2 = g₁ := congrArg Prod.snd (Except.ok.inj h₁)
      exact hg₁ ▸ h.allocNode spec
  | append block node => exact h.append hok
  | insertBefore anchor node => exact h.insertBefore hok
  | detach node => exact h.detach hok
  | remove node => exact h.remove hok
  | release block => exact h.release hok
  | setReturns block values => exact h.setReturns hok
  | replaceUses old new =>
    obtain ⟨g₁, h₁, -, hm⟩ := h.replaceUses_ok old new
    exact Except.ok.inj (h₁.symm.trans hok) ▸ hm
  | copyLabel source target => exact h.copyLabel hok
  | copy node names =>
    obtain ⟨⟨n, c⟩, h₁, hok⟩ := bind_eq_ok_iff.1 hok
    exact Except.ok.inj hok ▸ h.copy h₁
  | erase node => exact keptByErasing.erase h hok

end Mirrored

theorem mirrored_ofEdits {edits : List Edit} {g : Graph} (h : ofEdits edits = .ok g) : g.Mirrored :=
  ofEdits_induction mirrored_empty (fun e hg hok => hg.apply e hok) h

/-- **Slot chains mirror the slots** of every graph made by edits: the chain of a value has no slot
twice, lists an input of a node exactly if the node is not released and the value stands there, and
a return slot of a block exactly if the value stands there.  So the uses of a value can always be
replaced. -/
theorem usesOf_ofEdits (edits : List Edit) (g : Graph) (h : ofEdits edits = .ok g) :
    (∀ v, (g.usesOf v).Nodup ∧
      (∀ n i, ⟨.node n, i⟩ ∈ g.usesOf v ↔
        ∃ node, g.node? n = some node ∧ node.released = false ∧ node.inputs[i]? = some v) ∧
      (∀ b i, ⟨.block b, i⟩ ∈ g.usesOf v ↔
        ∃ block, g.block? b = some block ∧ block.returns[i]? = some v)) ∧
    ∀ old new, ∃ g', g.replaceUses old new = .ok g' := by
  have hm := mirrored_ofEdits h
  refine ⟨fun v => ⟨hm.nodup v, fun n i => ?_, fun b i => ?_⟩, fun old new => ?_⟩
  · rw [hm.mem_iff, heldIn?, Option.bind_eq_some_iff]
    refine exists_congr fun node => and_congr_right fun _ => ?_
    cases node.released <;> simp
  · rw [hm.mem_iff, heldIn?, Option.bind_eq_some_iff]
  · obtain ⟨g', hg', -⟩ := hm.replaceUses_ok old new
    exact ⟨g', hg'⟩

/-- Edits that put one value twice into a node, into a node that is removed and into a return, and
then another one, which does not exist, in its place. -/
def redirectingEdits : List Edit :=
  [.newParam top ⟨⟨0⟩, none⟩, .newNode ⟨.raise, [⟨0⟩, ⟨5⟩, ⟨0⟩], [], .empty, []⟩, .append top ⟨0⟩,
    .setReturns top [⟨0⟩], .newNode ⟨.raise, [⟨0⟩], [], .empty, []⟩, .remove ⟨1⟩,
    .replaceUses ⟨0⟩ ⟨5⟩]

theorem usesOf_ofEdits_redirecting : ∃ g, ofEdits redirectingEdits = .ok g ∧
    g.usesOf ⟨5⟩ = [⟨.node ⟨0⟩, 1⟩, ⟨.node ⟨0⟩, 0⟩, ⟨.node ⟨0⟩, 2⟩, ⟨.block top, 0⟩] ∧
    (g.usesOf ⟨5⟩).Nodup ∧ ∃ g', g.replaceUses ⟨5⟩ ⟨0⟩ = .ok g' := by
  have hchain : (ofEdits redirectingEdits).map (fun g => g.usesOf ⟨5⟩) =
      .ok [⟨.node ⟨0⟩, 1⟩, ⟨.node ⟨0⟩, 0⟩, ⟨.node ⟨0⟩, 2⟩, ⟨.block top, 0⟩] := by
    decide +kernel
  cases hg : ofEdits redirectingEdits with
  | error fault =>
    rw [hg] at hchain
    exact nomatch hchain
  | ok g =>
    rw [hg] at hchain
    have h := usesOf_ofEdits redirectingEdits g hg
    exact ⟨g, rfl, Except.ok.inj hchain, (h.1 _).1, h.2 _ _⟩

end Graph

end Unguard
