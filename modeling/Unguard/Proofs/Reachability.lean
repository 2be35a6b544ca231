import Mathlib.Data.List.FinRange
import Unguard.Proofs.Printable
import Unguard.Proofs.Safety
import Unguard.Proofs.TextLines

/-!
# Nothing leaks

Entries of a graph are never taken away: what was removed is marked released and keeps its number.  So
a graph could fill up with entries that are neither released nor ever met again.  It does not: after any
sequence of passes the live nodes and blocks are those that are reached from the top block, and the live
nodes are as many as the lines of the text that write a node (`Graph.live_iff_reaches`).

That live nodes are reached is part of what it means to represent a tree.  For blocks there is an
invariant of its own, `Graph.OwnedBut`: live blocks belong to live nodes, but for those that were just
made for a node to come.  A block is released before its node is removed, so erasing keeps it.
-/

namespace Unguard

/-- Whether a node is released, and the blocks it owns. -/
def Node.holdings (node : Node) : Bool × List BlockId :=
  (node.released, node.blocks)

namespace Graph

variable {g g' : Graph}

/-! ### What is reached -/

/-- Blocks that are reached from the top block, through the nodes of blocks and the blocks of nodes. -/
inductive ReachesBlock (g : Graph) : BlockId → Prop
  | top : ReachesBlock g Graph.top
  | inside {b c : BlockId} {n : NodeId} {block : Block} {node : Node} : ReachesBlock g b →
    g.block? b = some block → n ∈ block.nodes → g.node? n = some node → c ∈ node.blocks →
    ReachesBlock g c

/-- Nodes that stand in a block that is reached. -/
def ReachesNode (g : Graph) (n : NodeId) : Prop :=
  ∃ b block, g.ReachesBlock b ∧ g.block? b = some block ∧ n ∈ block.nodes

/-- Nodes that stand in a block with the property `P`. -/
def StandsIn (g : Graph) (P : BlockId → Prop) (n : NodeId) : Prop :=
  ∃ b block, P b ∧ g.block? b = some block ∧ n ∈ block.nodes

section Below

variable {P : BlockId → Prop}

mutual

/-- What is below nodes of a tree has a property that goes from blocks to the blocks of their nodes. -/
theorem below_of_shownBody (hP : ∀ {n node c}, g.StandsIn P n → g.node? n = some node →
      c ∈ node.blocks → P c) : ∀ {body : NodeTrees}, body.ShownBy g →
    (∀ n ∈ body.headIds, g.StandsIn P n) →
    (∀ n ∈ body.ids, g.StandsIn P n) ∧ ∀ b ∈ body.blockIds, P b
  | .done, _, _ => ⟨nofun, nofun⟩
  | .node head arms rest, ⟨⟨node, hnode, _, hblocks⟩, harms, hrest⟩, h => by
    rw [Body.headIds_node, List.forall_mem_cons] at h
    obtain ⟨hnodes, hbelow⟩ := below_of_shownArms hP harms fun c hc => hP h.1 hnode (hblocks ▸ hc)
    obtain ⟨hnodes', hbelow'⟩ := below_of_shownBody hP hrest h.2
    rw [Body.ids_node, List.forall_mem_cons, List.forall_mem_append, Body.blockIds_node,
      List.forall_mem_append]
    exact ⟨⟨h.1, hnodes, hnodes'⟩, hbelow, hbelow'⟩

/-- A property that goes over from a block to the blocks of its nodes holds of all blocks below those
that have it. -/
theorem below_of_shownArms (hP : ∀ {n node c}, g.StandsIn P n → g.node? n = some node →
      c ∈ node.blocks → P c) : ∀ {arms : BlockTrees}, arms.ShownBy g → (∀ b ∈ arms.headIds, P b) →
    (∀ n ∈ arms.ids, g.StandsIn P n) ∧ ∀ b ∈ arms.blockIds, P b
  | .done, _, _ => ⟨nofun, nofun⟩
  | .arm head body rest, ⟨⟨block, hblock, _, hnodes⟩, hbody, hrest⟩, h => by
    rw [Arms.headIds_arm, List.forall_mem_cons] at h
    obtain ⟨hbelow, hblocks⟩ := below_of_shownBody hP hbody fun n hn =>
      ⟨_, _, h.1, hblock, hnodes ▸ hn⟩
    obtain ⟨hbelow', hblocks'⟩ := below_of_shownArms hP hrest h.2
    rw [Arms.ids_arm, List.forall_mem_append, Arms.blockIds_arm, List.forall_mem_cons,
      List.forall_mem_append]
    exact ⟨⟨hbelow, hbelow'⟩, h.1, hblocks, hblocks'⟩

end

end Below

section Closed

variable {arms : BlockTrees}

/-- The blocks of a node of the tree are in the tree. -/
theorem mem_blockIds_of_node? (h : arms.ShownBy g) (hids : arms.ids.Nodup) {n : NodeId}
    {node : Node} {b : BlockId} (hn : n ∈ arms.ids) (hnode : g.node? n = some node)
    (hb : b ∈ node.blocks) : b ∈ arms.blockIds := by
  obtain ⟨⟨head, inside⟩, hmem, rfl⟩ := Arms.mem_ids.1 hn
  obtain ⟨node', hentry, -, hblocks⟩ := h.subtree hmem
  obtain rfl := Option.some.inj (hentry.symm.trans hnode)
  rw [hblocks] at hb
  exact (Arms.blockIds_perm hids hmem).symm.subset
    (List.mem_append_left _ (Arms.headIds_subset_blockIds hb))

/-- The nodes of a block of the tree are in the tree. -/
theorem mem_ids_of_block? (h : arms.ShownBy g) {b : BlockId} {block : Block} {n : NodeId}
    (hb : b ∈ arms.blockIds) (hblock : g.block? b = some block) (hn : n ∈ block.nodes) :
    n ∈ arms.ids := by
  obtain ⟨view, hview, rfl⟩ := Arms.mem_blockIds.1 hb
  obtain ⟨block', hentry, -, hsub⟩ := h.block hview
  obtain rfl := Option.some.inj (hentry.symm.trans hblock)
  exact hsub.subset hn

end Closed

/-- The tree is what the graph unfolds to, and has nothing twice. -/
structure Unfolds (g : Graph) (t : BlockTree) : Prop where
  tree_eq : g.tree = .ok t
  top : t.head.id = Graph.top
  shown : t.toArms.ShownBy g
  nodup_ids : t.toArms.ids.Nodup
  nodup_blockIds : t.toArms.blockIds.Nodup

namespace Unfolds

variable {t : BlockTree}

/-- What the tree has is reached. -/
theorem reaches_of_mem (h : g.Unfolds t) :
    (∀ n ∈ t.toArms.ids, g.ReachesNode n) ∧ ∀ b ∈ t.toArms.blockIds, g.ReachesBlock b := by
  refine below_of_shownArms (P := g.ReachesBlock) (fun hn hnode hc => ?_) h.shown fun c hc => ?_
  · obtain ⟨b, block, hb, hblock, hin⟩ := hn
    exact hb.inside hblock hin hnode hc
  · rw [BlockTree.headIds_toArms, List.mem_singleton] at hc
    rw [hc, h.top]
    exact .top

theorem reachesBlock_iff (h : g.Unfolds t) {b : BlockId} :
    g.ReachesBlock b ↔ b ∈ t.toArms.blockIds := by
  refine ⟨fun hb => ?_, h.reaches_of_mem.2 b⟩
  induction hb with
  | top => exact h.top ▸ List.mem_cons_self
  | inside _ hblock hn hnode hc ih =>
    exact mem_blockIds_of_node? h.shown h.nodup_ids (mem_ids_of_block? h.shown ih hblock hn) hnode hc

theorem reachesNode_iff (h : g.Unfolds t) {n : NodeId} :
    g.ReachesNode n ↔ n ∈ t.toArms.ids := by
  refine ⟨fun hn => ?_, h.reaches_of_mem.1 n⟩
  obtain ⟨b, block, hb, hblock, hn⟩ := hn
  exact mem_ids_of_block? h.shown (h.reachesBlock_iff.1 hb) hblock hn

end Unfolds

namespace Represents

variable {t : BlockTree}

theorem unfolds (h : g.Represents t) : g.Unfolds t :=
  ⟨h.tree_eq, h.top, h.stand.shownBy, h.nodup_ids, h.nodup_blockIds⟩

theorem reachesBlock_iff (h : g.Represents t) {b : BlockId} :
    g.ReachesBlock b ↔ b ∈ t.toArms.blockIds :=
  h.unfolds.reachesBlock_iff

theorem reachesNode_iff (h : g.Represents t) {n : NodeId} :
    g.ReachesNode n ↔ n ∈ t.toArms.ids :=
  h.unfolds.reachesNode_iff

theorem reachesNode_iff_nodes (h : g.Represents t) {n : NodeId} :
    g.ReachesNode n ↔ ∃ x ∈ t.toArms.nodes, x.id = n := by
  rw [h.reachesNode_iff, ← Arms.map_id_nodes, List.mem_map]

/-- Every node of the tree has an entry in the table, which is not released. -/
theorem exists_entry (h : g.Represents t) {x : NodeView} (hx : x ∈ t.toArms.nodes) :
    ∃ blocks place, g.node? x.id = some (x.entry blocks place) := by
  obtain ⟨inside, hmem⟩ := Arms.mem_nodes.1 hx
  obtain ⟨place, hentry, -⟩ := h.stand.subtree hmem
  exact ⟨inside.headIds, place, hentry⟩

/-- A node that is reached stands in the tree, and its entry is made from what stands there. -/
theorem exists_view (h : g.Represents t) {n : NodeId} {node : Node}
    (hn : g.ReachesNode n) (hnode : g.node? n = some node) :
    ∃ x ∈ t.toArms.nodes, x.id = n ∧ ∃ blocks place, node = x.entry blocks place := by
  obtain ⟨x, hx, rfl⟩ := h.reachesNode_iff_nodes.1 hn
  obtain ⟨blocks, place, hentry⟩ := h.exists_entry hx
  exact ⟨x, hx, rfl, blocks, place, Option.some.inj (hnode.symm.trans hentry)⟩

end Represents

/-! ### Live blocks have live owners -/

/-- Live blocks belong to live nodes, but for the top block and the blocks `bs`. -/
def OwnedBut (bs : List BlockId) (g : Graph) : Prop :=
  ∀ b, (g.block? b).map Block.released = some false → b = Graph.top ∨ b ∈ bs ∨
    ∃ n blocks, (g.node? n).map Node.holdings = some (false, blocks) ∧ b ∈ blocks

namespace OwnedBut

variable {bs cs : List BlockId}

theorem mono (h : g.OwnedBut bs) (hsub : bs ⊆ cs) : g.OwnedBut cs := fun b hb =>
  (h b hb).imp_right fun hb => hb.imp_left fun hin => hsub hin

/-- Only what blocks and nodes are released and what nodes own matters. -/
theorem congr (h : g.OwnedBut bs)
    (hblock : ∀ b, (g'.block? b).map Block.released = (g.block? b).map Block.released)
    (hnode : ∀ n, (g'.node? n).map Node.holdings = (g.node? n).map Node.holdings) :
    g'.OwnedBut bs := by
  intro b hb
  simp only [hnode]
  exact h b (hblock b ▸ hb)

theorem modifyNode (h : g.OwnedBut bs) (n : NodeId) {f : Node → Node}
    (hf : ∀ node, (f node).holdings = node.holdings) : (g.modifyNode n f).OwnedBut bs := by
  refine h.congr (fun _ => rfl) fun m => ?_
  rw [node?_modifyNode]
  split
  · rw [Option.map_map, show Node.holdings ∘ f = Node.holdings from funext hf]
  · rfl

theorem modifyBlock (h : g.OwnedBut bs) (b : BlockId) {f : Block → Block}
    (hf : ∀ block, (f block).released = block.released) : (g.modifyBlock b f).OwnedBut bs := by
  refine h.congr (fun c => ?_) fun _ => rfl
  rw [block?_modifyBlock]
  split
  · rw [Option.map_map, show Block.released ∘ f = Block.released from funext hf]
  · rfl

/-- A new block has no owner yet, so it is an exception. -/
theorem newBlock (h : g.OwnedBut bs) : g.newBlock.2.OwnedBut (g.newBlock.1 :: bs) := by
  intro b hb
  rw [block?_newBlock] at hb
  split at hb
  · rename_i hnew
    exact Or.inr (Or.inl (List.mem_cons.2 (Or.inl hnew)))
  · exact h.mono (List.subset_cons_self _ _) b hb

/-- A new node is the live owner of its blocks. -/
theorem allocNode {spec : NodeSpec} (h : g.OwnedBut (spec.blocks ++ bs)) :
    (g.allocNode spec).2.OwnedBut bs := by
  intro b hb
  have hsame : (g.block? b).map Block.released = some false := by
    rw [← hb, block?_allocNode, Option.map_map]
    refine congrArg (Option.map · _) (funext fun block => ?_)
    show _ = Block.released (if _ then _ else _)
    split <;> rfl
  have hnew : ((g.allocNode spec).2.node? ⟨g.nodes.size⟩).map Node.holdings =
      some (false, spec.blocks) := by
    rw [node?_allocNode, if_pos rfl]
    rfl
  -- The blocks that still lacked an owner have the new node for it.
  rcases h b hsame with htop | hin | ⟨n, blocks, hn, hin⟩
  · exact Or.inl htop
  · rcases List.mem_append.1 hin with hin | hin
    · exact Or.inr (Or.inr ⟨_, _, hnew, hin⟩)
    · exact Or.inr (Or.inl hin)
  · refine Or.inr (Or.inr ⟨n, blocks, ?_, hin⟩)
    obtain ⟨node, hnode, -⟩ := Option.map_eq_some_iff.1 hn
    have hlt := g.index_lt_of_node? hnode
    have hne : n ≠ ⟨g.nodes.size⟩ := fun he => by
      subst he
      exact Nat.lt_irrefl _ hlt
    rw [node?_allocNode, if_neg hne, hn]

/-! Steps that neither make nor release anything. -/

theorem allocParam (h : g.OwnedBut bs) (b : BlockId) (label : Label) :
    (g.allocParam b label).2.OwnedBut bs :=
  modifyBlock (g := { g with values := _ }) h b fun _ => rfl

theorem assignReturns (h : g.OwnedBut bs) (b : BlockId) (values : List ValueId) :
    (g.assignReturns b values).OwnedBut bs := by
  unfold Graph.assignReturns
  split
  · exact h
  · exact modifyBlock (g := { g with uses := _ }) h b fun _ => rfl

theorem place (h : g.OwnedBut bs) (n : NodeId) (p : Option BlockId) (b : BlockId)
    (f : List NodeId → List NodeId) :
    ((g.modifyNode n fun node => { node with parent := p }).modifyBlock b fun block =>
      { block with nodes := f block.nodes }).OwnedBut bs := by
  have hnode := h.modifyNode n (f := fun node => { node with parent := p }) fun _ => rfl
  exact hnode.modifyBlock b fun _ => rfl

theorem attachLast (h : g.OwnedBut bs) (b : BlockId) (n : NodeId) : (g.attachLast b n).OwnedBut bs :=
  h.place n (some b) b (· ++ [n])

theorem insertBefore (h : g.OwnedBut bs) {anchor n : NodeId}
    (hok : g.insertBefore anchor n = .ok g') : g'.OwnedBut bs := by
  obtain ⟨node, b, block, -, -, -, -, rfl⟩ := insertBefore_eq_ok hok
  exact h.place n (some b) b (n.insertBefore anchor)

theorem hold (h : g.OwnedBut bs) (values : List ValueId) (holder : Holder) :
    (g.hold values holder).OwnedBut bs := by
  cases holder with
  | node n => exact h.modifyNode n fun _ => rfl
  | block b => exact h.modifyBlock b fun _ => rfl

/-! Erasing releases blocks before it removes the node that owns them. -/

/-- A node can be removed only when its blocks have been released. -/
theorem remove (h : g.OwnedBut bs) {n : NodeId} (hok : g.remove n = .ok g') : g'.OwnedBut bs := by
  obtain ⟨node, hnode, hok⟩ := bind_eq_ok_iff.1 hok
  rw [node_eq_ok_iff] at hnode
  split at hok
  · exact nomatch hok
  rename_i hfault
  obtain rfl := Except.ok.inj hok
  intro b hb
  -- The owner of a live block keeps its entry, unless it is the node that is removed.
  rcases h b hb with htop | hin | ⟨m, blocks, hm, hin⟩
  · exact Or.inl htop
  · exact Or.inr (Or.inl hin)
  · refine Or.inr (Or.inr ⟨m, blocks, ?_, hin⟩)
    rw [node?_modifyNode]
    split
    · -- The node that is removed has no live blocks.
      rename_i hmn
      subst hmn
      have hblocks : node.blocks = blocks := by
        have hentry : (some node).map Node.holdings = some (false, blocks) := hnode ▸ hm
        exact congrArg Prod.snd (Option.some.inj hentry)
      have hdead : ∀ c ∈ node.blocks, g.isBlockLive c = false := by
        unfold removalFault? at hfault
        split at hfault
        · exact nomatch hfault
        split at hfault
        · exact nomatch hfault
        rw [Option.map_eq_none_iff, List.find?_eq_none] at hfault
        exact fun c hc => Bool.eq_false_iff.2 (hfault c hc)
      obtain ⟨block, hblock, hlive⟩ := Option.map_eq_some_iff.1 hb
      have hblock : g.block? b = some block := hblock
      have hnot := hdead b (hblocks ▸ hin)
      rw [isBlockLive, hblock] at hnot
      simp [hlive] at hnot
    · exact hm

/-- A released block needs no owner. -/
theorem release (h : g.OwnedBut bs) {b : BlockId} (hok : g.release b = .ok g') : g'.OwnedBut bs := by
  obtain rfl := release_eq_ok hok
  intro c hc
  rw [block?_modifyBlock] at hc
  split at hc
  · rw [Option.map_map] at hc
    obtain ⟨block, -, hreleased⟩ := Option.map_eq_some_iff.1 hc
    exact nomatch hreleased
  · exact h c hc

theorem keptByErasing : KeptByErasing (OwnedBut bs) where
  detach h hok := by
    obtain ⟨node, -, hok⟩ := bind_eq_ok_iff.1 hok
    split at hok
    · exact Except.ok.inj hok ▸ h
    · exact Except.ok.inj hok ▸ h.place _ none _ (List.filter (· ≠ _))
  clearReturns h hok := by
    obtain ⟨block, -, hok⟩ := bind_eq_ok_iff.1 hok
    exact Except.ok.inj hok ▸ h.assignReturns _ _
  release h hok := h.release hok
  remove h hok := h.remove hok

/-- Copying makes blocks first and then the node that owns them. -/
theorem keptByHoisting : KeptByHoisting OwnedBut where
  perm hperm h := h.mono hperm.subset
  newBlock h := h.newBlock
  allocParam label _ h := h.allocParam _ label
  assignReturns values _ h := h.assignReturns _ values
  allocNode _ h := allocNode h
  attachNew _ _ h := (allocNode h).attachLast _ _
  insertNew _ h hok := (allocNode h).insertBefore hok
  withUses _ h := h.congr (fun _ => rfl) fun _ => rfl
  hold values holder h := h.hold values holder
  erasing _ := keptByErasing

theorem hoist {n : NodeId} {arm : BlockId} (h : g.OwnedBut bs) (hok : g.hoist n arm = .ok g') :
    g'.OwnedBut bs :=
  keptByHoisting.hoist bs h hok

end OwnedBut

/-- In a graph that was read every block but the top block belongs to a node. -/
theorem GrowsArms.ownedBut {t : BlockTree} (hgrows : GrowsArms t.toArms void g)
    (hg : g.Represents t) : g.OwnedBut [] := by
  intro b hb
  obtain ⟨block, hblock, -⟩ := Option.map_eq_some_iff.1 hb
  have hmem : b ∈ t.toArms.blockIds := hgrows.extension.blockIds.symm.subset
    (mem_newIds.2 ⟨_, Nat.zero_le _, g.index_lt_of_block? hblock, rfl⟩)
  have hreached := hg.reachesBlock_iff.2 hmem
  cases hreached with
  | top => exact Or.inl rfl
  | inside hc hblock hn hnode hin =>
    rename_i n block node
    have hlive := mem_ids_of_block? hg.stand.shownBy (hg.reachesBlock_iff.1 hc) hblock hn
    obtain ⟨node', hnode', hreleased⟩ := hg.stand.exists_node hlive
    obtain rfl := Option.some.inj (hnode'.symm.trans hnode)
    refine Or.inr (Or.inr ⟨n, node'.blocks, ?_, hin⟩)
    rw [hnode', Option.map_some, Node.holdings, hreleased]

/-! ### Live entries -/

namespace Represents

variable {t : BlockTree}

/-- A live node is in the tree because a graph represents no more than its tree. -/
theorem live_iff_mem_ids (h : g.Represents t) {n : NodeId} :
    n.index < g.nodes.size ∧ g.isLive n = true ↔ n ∈ t.toArms.ids := by
  constructor
  · rintro ⟨hlt, hlive⟩
    obtain ⟨node, hnode⟩ := g.exists_node? hlt
    rw [isLive, hnode] at hlive
    exact h.mem_ids n node hnode ((Bool.not_eq_true' _).mp hlive)
  · intro hn
    obtain ⟨node, hnode, hlive⟩ := h.stand.exists_node hn
    refine ⟨g.index_lt_of_node? hnode, ?_⟩
    rw [isLive, hnode]
    simp [hlive]

/-- A live block has a live owner, which is in the tree, and so is the block. -/
theorem blockLive_iff_mem_blockIds (h : g.Represents t) (howned : g.OwnedBut []) {b : BlockId} :
    b.index < g.blocks.size ∧ g.isBlockLive b = true ↔ b ∈ t.toArms.blockIds := by
  constructor
  · rintro ⟨hlt, hlive⟩
    obtain ⟨block, hblock⟩ := g.exists_block? hlt
    rw [isBlockLive, hblock] at hlive
    have hreleased : (g.block? b).map Block.released = some false := by
      rw [hblock, Option.map_some, (Bool.not_eq_true' _).mp hlive]
    rcases howned b hreleased with rfl | hin | ⟨n, blocks, hn, hin⟩
    · exact h.reachesBlock_iff.1 .top
    · cases hin
    · obtain ⟨node, hnode, hholdings⟩ := Option.map_eq_some_iff.1 hn
      obtain ⟨hreleased, rfl⟩ := Prod.mk.inj hholdings
      exact mem_blockIds_of_node? h.stand.shownBy h.nodup_ids (h.mem_ids n node hnode hreleased) hnode hin
  · intro hb
    refine ⟨h.index_lt_of_mem_blockIds hb, ?_⟩
    obtain ⟨view, hview, rfl⟩ := Arms.mem_blockIds.1 hb
    obtain ⟨nodes, owner, hentry, -⟩ := h.stand.block hview
    rw [isBlockLive, hentry]
    rfl

/-- A graph has as many live nodes as its tree has nodes. -/
theorem liveCount_eq (h : g.Represents t) : g.liveCount = t.toArms.nodes.length := by
  let entries := g.nodes.toList
  let id : Fin entries.length → NodeId := fun i => ⟨i.val⟩
  let live := (List.finRange entries.length).filter fun i => !(entries.get i).released
  have hcount : g.liveCount = live.length := by
    have hmap := congrArg (List.countP fun node => !node.released) (List.map_get_finRange entries)
    rw [List.countP_map, List.countP_eq_length_filter] at hmap
    exact hmap.symm
  have hinj : Function.Injective id := fun i j hij => Fin.ext (NodeId.mk.inj hij)
  have hentry : ∀ i, g.isLive (id i) = !(entries.get i).released := fun i => by
    have hnode : g.node? (id i) = some (entries.get i) := g.nodes.getElem?_eq_getElem i.isLt
    rw [isLive, hnode]
  -- The numbers of live entries are the numbers in the tree, each once.
  have hperm : (live.map id).Perm t.toArms.ids := by
    refine (List.perm_ext_iff_of_nodup (((List.nodup_finRange _).filter _).map hinj) h.nodup_ids).2
      fun n => ?_
    rw [List.mem_map, ← h.live_iff_mem_ids]
    constructor
    · rintro ⟨i, hi, rfl⟩
      exact ⟨i.isLt, (hentry i).trans (List.mem_filter.1 hi).2⟩
    · rintro ⟨hlt, hn⟩
      exact ⟨⟨n.index, hlt⟩, List.mem_filter.2 ⟨List.mem_finRange _, (hentry _).symm.trans hn⟩, rfl⟩
  rw [hcount, ← List.length_map id, hperm.length_eq, ← Arms.map_id_nodes, List.length_map]

end Represents

/-- A graph has as many live nodes as its text has lines that write a node. -/
theorem Printable.liveCount_eq {t : BlockTree} {text : String} (h : Holds Printable g t)
    (htext : g.text = .ok text) : g.liveCount = (Text.textLines text).countP Text.writesNode := by
  obtain ⟨draft, hdraft, hnamed, -, htext'⟩ := Printable.exists_text h
  obtain rfl := Except.ok.inj (htext.symm.trans htext')
  -- The tree and its draft have the same nodes, and the draft writes each of them on one line.
  have hpairs := (treeWritten_of_outlineGraph hdraft).1
  rw [h.1.liveCount_eq, (Arms.Pairs.nodes hpairs).length_eq, draft.countP_writesNode hnamed]
  simp [Text.GraphDraft.toArms, Arms.nodes]

/-- **Nothing leaks.**  Any sequence of runs of passes, with any settings, goes through on a graph that
was read and in which arms return what they should.  In the graph it leaves, the live nodes are those
that are reached from the top block, the live blocks are the top block and the blocks of nodes that are
reached, and there are as many live nodes as its text has lines that write a node. -/
theorem live_iff_reaches (source : String) (g₀ : Graph) (hread : Graph.ofText source = .ok g₀)
    (harity : g₀.firstMismatch = .ok none) (runs : List PassRun) :
    ∃ g, g₀.applyRuns runs = .ok g ∧
      (∀ n, n.index < g.nodes.size ∧ g.isLive n = true ↔ g.ReachesNode n) ∧
      (∀ b, b.index < g.blocks.size ∧ g.isBlockLive b = true ↔
        b = Graph.top ∨ ∃ n node, g.ReachesNode n ∧ g.node? n = some node ∧ b ∈ node.blocks) ∧
      ∃ text, g.text = .ok text ∧ g.liveCount = (Text.textLines text).countP Text.writesNode := by
  obtain ⟨t₀, hgrows, hg₀, -⟩ := ofText_grows hread
  obtain ⟨t₁, hholds⟩ := printable_ofText hread
  have hkept : KeptByPasses (fun _ => True) Printable := keptByPasses_printable
  have hsweeps : ∀ r ∈ runs, r.Sweeps fun _ => True := fun r _ => by
    cases r <;> trivial
  obtain ⟨g, hok⟩ := hkept.runs_ok runs hsweeps hholds harity
  obtain ⟨t, hholds'⟩ := hkept.of_runs hsweeps hholds hok
  have hg : g.Represents t := hholds'.1
  -- Live blocks have live owners, which the tree alone does not say.
  have howned : g.OwnedBut [] := keeps_applyRuns (P := OwnedBut [])
    (fun h hstep => OwnedBut.keptByErasing.erase h hstep) (fun h hstep => h.hoist hstep)
    (hgrows.ownedBut hg₀) hok
  refine ⟨g, hok, fun n => ?_, fun b => ?_, ?_⟩
  · rw [hg.live_iff_mem_ids, hg.reachesNode_iff]
  · rw [hg.blockLive_iff_mem_blockIds howned, ← hg.reachesBlock_iff]
    constructor
    · rintro (_ | ⟨hc, hblock, hn, hnode, hb⟩)
      · exact Or.inl rfl
      · exact Or.inr ⟨_, _, ⟨_, _, hc, hblock, hn⟩, hnode, hb⟩
    · rintro (rfl | ⟨n, node, ⟨c, block, hc, hblock, hn⟩, hnode, hb⟩)
      · exact .top
      · exact .inside hc hblock hn hnode hb
  · obtain ⟨draft, -, -, -, htext⟩ := Printable.exists_text hholds'
    exact ⟨draft.text, htext, Printable.liveCount_eq hholds' htext⟩

/-- A guarded computation with a conditional inside. -/
def guardedChoice : String :=
  "graph(%c: core.bool, %x: core.t) \x7b %y = if(%c) : core.t \x7b " ++
    "%z = if(%c) : core.t \x7b return %x \x7d else \x7b %w = aten.g(%x) : core.t return %w \x7d " ++
    "%u = aten.f(%z) : core.t return %u \x7d else \x7b raise() return %x \x7d return %y \x7d"

/-- Hoisting copies the inner conditional: three of eight nodes remain, and of seven blocks the top block
and the two copies. -/
theorem live_iff_reaches_guardedChoice : ∃ g₀ g text, Graph.ofText guardedChoice = .ok g₀ ∧
    g₀.firstMismatch = .ok none ∧
    g₀.applyRuns [.guardRemoval 0, .hoisting (.ofList [⟨"aten", "f"⟩]) 1, .sweeping .empty 0] = .ok g ∧
    g.nodes.size = 8 ∧ g.text = .ok text ∧ (Text.textLines text).countP Text.writesNode = 3 ∧
    (∃ n node, g.ReachesNode n ∧ g.node? n = some node ∧ ⟨5⟩ ∈ node.blocks) ∧
    ¬∃ n node, g.ReachesNode n ∧ g.node? n = some node ∧ ⟨1⟩ ∈ node.blocks := by
  have hread : (Graph.ofText guardedChoice).toOption.map (fun g => g.firstMismatch.toOption) =
      some (some none) := by decide +kernel
  have hruns : (Graph.ofText guardedChoice).toOption.map (fun g => (g.applyRuns [.guardRemoval 0,
      .hoisting (.ofList [⟨"aten", "f"⟩]) 1, .sweeping .empty 0]).toOption.map fun g =>
        (g.nodes.size, g.liveCount, g.blocks.size, g.isBlockLive ⟨5⟩, g.isBlockLive ⟨1⟩)) =
      some (some (8, 3, 7, true, false)) := by decide +kernel
  simp only [Option.map_eq_some_iff, toOption_eq_some_iff, Prod.mk.injEq] at hread hruns
  obtain ⟨g₀, hread, harity⟩ := hread
  obtain ⟨_, hread', g, hruns, hsize, hcount, hblocks, hfive, hone⟩ := hruns
  obtain rfl := Except.ok.inj (hread.symm.trans hread')
  obtain ⟨g', hruns', -, hreaches, text, htext, hwritten⟩ :=
    live_iff_reaches guardedChoice g₀ hread harity _
  obtain rfl := Except.ok.inj (hruns.symm.trans hruns')
  refine ⟨g₀, g, text, hread, harity, hruns, hsize, htext, hwritten.symm.trans hcount, ?_, ?_⟩
  · exact ((hreaches ⟨5⟩).1 ⟨by simp [hblocks], hfive⟩).resolve_left (by decide)
  · intro hreached
    have hlive := ((hreaches ⟨1⟩).2 (Or.inr hreached)).2
    exact nomatch hone.symm.trans hlive

end Graph

end Unguard
