import Unguard.Proofs.BasicEdits

/-!
# Links between nodes, blocks and values

A graph says some things twice.  A node names the block it stands in, and the block lists its nodes; a
block names its owner, and the owner lists its blocks; a value names its origin, where it stands among
the outputs of a node or the parameters of a block.  In every graph made by edits the two sides agree
(`Graph.links_ofEdits`), so a node stands in one place at most, a block has one owner at most, and a
value has exactly one origin.

Every edit changes one kind of link at a time.  What the change does to both sides is said for links in
general, by `Linked.insert`, `Linked.erase` and `Linked.adopt`.
-/

namespace Unguard

/-! ### Two sides of a link -/

/-- An element is in the list that `up` names and in no other, and no list has it twice. -/
structure Linked {α β : Type} (up : α → Option β) (down : β → List α) : Prop where
  mem_iff : ∀ a b, up a = some b ↔ a ∈ down b
  nodup : ∀ b, (down b).Nodup

namespace Linked

variable {α β : Type} [DecidableEq α] [DecidableEq β] {up : α → Option β} {down : β → List α}

/-- An element that is in no list is put into one. -/
theorem insert (h : Linked up down) {a : α} {b : β} {l : List α} (ha : up a = none)
    (hl : l.Perm (a :: down b)) :
    Linked (fun x => if x = a then some b else up x) fun c => if c = b then l else down c where
  mem_iff x c := by
    -- What links nowhere is in no list.
    have hout : ∀ d, a ∉ down d := fun d hin => by
      rw [← h.mem_iff, ha] at hin
      exact nomatch hin
    by_cases hx : x = a <;> by_cases hc : c = b
    · simp [hx, hc, hl.mem_iff]
    · simp [hx, hc, hout, Ne.symm hc]
    · simp [hx, hc, hl.mem_iff, h.mem_iff]
    · simp [hx, hc, h.mem_iff]
  nodup c := by
    show (if c = b then l else down c).Nodup
    split
    · rw [hl.nodup_iff, List.nodup_cons, ← h.mem_iff, ha]
      exact ⟨nofun, h.nodup b⟩
    · exact h.nodup c

/-- An element is taken out of the list it is in. -/
theorem erase (h : Linked up down) {a : α} {b : β} (ha : up a = some b) :
    Linked (fun x => if x = a then none else up x) fun c =>
      if c = b then (down b).filter (· ≠ a) else down c where
  mem_iff x c := by
    by_cases hx : x = a <;> by_cases hc : c = b
    · simp [hx, hc]
    · simp [hx, hc, ← h.mem_iff, ha, Ne.symm hc]
    · simp [hx, hc, h.mem_iff]
    · simp [hx, hc, h.mem_iff]
  nodup c := by
    show (if c = b then (down b).filter (· ≠ a) else down c).Nodup
    split
    · exact (h.nodup b).filter _
    · exact h.nodup c

/-- Elements that are in no list become the members of an empty one. -/
theorem adopt (h : Linked up down) {b : β} {as : List α} (hb : down b = [])
    (hfree : ∀ a ∈ as, up a = none) (hnodup : as.Nodup) :
    Linked (fun x => if x ∈ as then some b else up x) fun c => if c = b then as else down c where
  mem_iff x c := by
    have hout : up x ≠ some b := fun hin => by
      rw [h.mem_iff, hb] at hin
      exact nomatch hin
    by_cases hx : x ∈ as <;> by_cases hc : c = b
    · simp [hx, hc]
    · simp [hx, hc, ← h.mem_iff, hfree x hx, Ne.symm hc]
    · simp [hx, hc, hout]
    · simp [hx, hc, h.mem_iff]
  nodup c := by
    show (if c = b then as else down c).Nodup
    split
    · exact hnodup
    · exact h.nodup c

end Linked

/-! ### The links of a graph -/

/-- What a node says about its place, its blocks and its outputs. -/
def Node.links (node : Node) : Option BlockId × List BlockId × List ValueId :=
  (node.parent, node.blocks, node.outputs)

/-- What a block says about its owner, its nodes and its parameters. -/
def Block.links (block : Block) : Option NodeId × List NodeId × List ValueId :=
  (block.owner, block.nodes, block.params)

namespace Graph

/-- The block that a node stands in. -/
def parentOf? (g : Graph) (n : NodeId) : Option BlockId :=
  (g.node? n).bind Node.parent

/-- The nodes of a block; a block that does not exist has none. -/
def nodesIn (g : Graph) (b : BlockId) : List NodeId :=
  ((g.block? b).map Block.nodes).getD []

/-- The node that a block belongs to. -/
def ownerOf? (g : Graph) (b : BlockId) : Option NodeId :=
  (g.block? b).bind Block.owner

/-- The blocks of a node; a node that does not exist has none. -/
def blocksOf (g : Graph) (n : NodeId) : List BlockId :=
  ((g.node? n).map Node.blocks).getD []

/-- The place that a value names as its origin. -/
def originOf? (g : Graph) (v : ValueId) : Option Origin :=
  (g.value? v).map Value.origin

/-- The value that stands at a place. -/
def definedAt? (g : Graph) : Origin → Option ValueId
  | .output n i => (g.node? n).bind fun node => node.outputs[i]?
  | .param b i => (g.block? b).bind fun block => block.params[i]?

/-- Both sides of every link agree. -/
structure Consistent (g : Graph) : Prop where
  placement : Linked g.parentOf? g.nodesIn
  ownership : Linked g.ownerOf? g.blocksOf
  top : ∃ block, g.block? Graph.top = some block ∧ block.owner = none
  definition : ∀ v o, g.originOf? v = some o ↔ g.definedAt? o = some v

/-- The graph that every text starts with has the top block and nothing else. -/
theorem consistent_empty : empty.Consistent := by
  have hnode : ∀ n, empty.node? n = none := fun n => empty.node?_eq_none_iff.2 (Nat.zero_le _)
  have hvalue : ∀ v, empty.value? v = none := fun v => empty.value?_eq_none_iff.2 (Nat.zero_le _)
  have hblock : ∀ b, empty.block? b = if b = Graph.top then some .empty else none := by
    intro b
    obtain ⟨i⟩ := b
    cases i <;> rfl
  refine ⟨⟨fun n b => ?_, fun b => ?_⟩, ⟨fun b n => ?_, fun n => ?_⟩, ⟨.empty, rfl, rfl⟩, fun v o => ?_⟩
  · by_cases hb : b = Graph.top <;> simp [parentOf?, nodesIn, hnode, hblock, hb, Block.empty]
  · by_cases hb : b = Graph.top <;> simp [nodesIn, hblock, hb, Block.empty]
  · by_cases hb : b = Graph.top <;> simp [ownerOf?, blocksOf, hnode, hblock, hb, Block.empty]
  · simp [blocksOf, hnode]
  · cases o with
    | output n i => simp [originOf?, definedAt?, hvalue, hnode]
    | param b i =>
      by_cases hb : b = Graph.top <;> simp [originOf?, definedAt?, hvalue, hblock, hb, Block.empty]

namespace Consistent

variable {g g' : Graph}

/-! ### Edits that leave the links alone

Each side of a link is read off one field of a node or a block. -/

theorem parentOf?_congr (h : ∀ n, (g'.node? n).map Node.parent = (g.node? n).map Node.parent) :
    g'.parentOf? = g.parentOf? := funext fun n => by
  show (g'.node? n).bind (id ∘ Node.parent) = (g.node? n).bind (id ∘ Node.parent)
  rw [← Option.bind_map, ← Option.bind_map, h]

theorem nodesIn_congr (h : ∀ b, (g'.block? b).map Block.nodes = (g.block? b).map Block.nodes) :
    g'.nodesIn = g.nodesIn := funext fun b => by
  rw [nodesIn, nodesIn, h]

theorem ownerOf?_congr (h : ∀ b, (g'.block? b).map Block.owner = (g.block? b).map Block.owner) :
    g'.ownerOf? = g.ownerOf? := funext fun b => by
  show (g'.block? b).bind (id ∘ Block.owner) = (g.block? b).bind (id ∘ Block.owner)
  rw [← Option.bind_map, ← Option.bind_map, h]

theorem blocksOf_congr (h : ∀ n, (g'.node? n).map Node.blocks = (g.node? n).map Node.blocks) :
    g'.blocksOf = g.blocksOf := funext fun n => by
  rw [blocksOf, blocksOf, h]

/-- Where a value is defined is seen from outputs and parameters alone. -/
theorem definedAt?_congr (hnode : ∀ n, (g'.node? n).map Node.outputs = (g.node? n).map Node.outputs)
    (hblock : ∀ b, (g'.block? b).map Block.params = (g.block? b).map Block.params) :
    g'.definedAt? = g.definedAt? := funext fun o => by
  cases o with
  | output n i =>
    show (g'.node? n).bind ((·[i]?) ∘ Node.outputs) = (g.node? n).bind ((·[i]?) ∘ Node.outputs)
    rw [← Option.bind_map, ← Option.bind_map, hnode]
  | param b i =>
    show (g'.block? b).bind ((·[i]?) ∘ Block.params) = (g.block? b).bind ((·[i]?) ∘ Block.params)
    rw [← Option.bind_map, ← Option.bind_map, hblock]

/-- The top block stays without an owner. -/
theorem top_congr (h : g.Consistent)
    (howner : ∀ b, (g'.block? b).map Block.owner = (g.block? b).map Block.owner) :
    ∃ block, g'.block? Graph.top = some block ∧ block.owner = none := by
  obtain ⟨block, htop, hfree⟩ := h.top
  have hmap := howner Graph.top
  rw [htop, Option.map_some, hfree] at hmap
  exact Option.map_eq_some_iff.1 hmap

/-- The invariant is about links only, so an edit that leaves them alone keeps it. -/
theorem congr (h : g.Consistent)
    (hnode : ∀ n, (g'.node? n).map Node.links = (g.node? n).map Node.links)
    (hblock : ∀ b, (g'.block? b).map Block.links = (g.block? b).map Block.links)
    (hvalue : ∀ v, g'.originOf? v = g.originOf? v) : g'.Consistent := by
  have hn : ∀ {α : Type} (x : _ → α) n,
      (g'.node? n).map (x ∘ Node.links) = (g.node? n).map (x ∘ Node.links) := fun x n => by
    rw [← Option.map_map, hnode, Option.map_map]
  have hb : ∀ {α : Type} (x : _ → α) b,
      (g'.block? b).map (x ∘ Block.links) = (g.block? b).map (x ∘ Block.links) := fun x b => by
    rw [← Option.map_map, hblock, Option.map_map]
  refine ⟨?_, ?_, h.top_congr (hb Prod.fst), fun v o => ?_⟩
  · rw [parentOf?_congr (hn Prod.fst), nodesIn_congr (hb (·.2.1))]
    exact h.placement
  · rw [ownerOf?_congr (hb Prod.fst), blocksOf_congr (hn (·.2.1))]
    exact h.ownership
  · rw [hvalue, definedAt?_congr (hn (·.2.2)) (hb (·.2.2))]
    exact h.definition v o

theorem withTypes (h : g.Consistent) (types : TypeTable) : { g with types }.Consistent :=
  h.congr (fun _ => rfl) (fun _ => rfl) fun _ => rfl

/-- A new block is in no list and has no owner yet. -/
theorem newBlock (h : g.Consistent) : g.newBlock.2.Consistent := by
  have hnone : g.block? ⟨g.blocks.size⟩ = none := g.block?_eq_none_iff.2 (Nat.le_refl _)
  -- A block that does not exist yet says the same as an empty one.
  have hnodes : g.newBlock.2.nodesIn = g.nodesIn := funext fun b => by
    rw [nodesIn, nodesIn, block?_newBlock]
    split
    · rename_i hb
      rw [hb, hnone]
      rfl
    · rfl
  have howner : g.newBlock.2.ownerOf? = g.ownerOf? := funext fun b => by
    rw [ownerOf?, ownerOf?, block?_newBlock]
    split
    · rename_i hb
      rw [hb, hnone]
      rfl
    · rfl
  have hdefined : g.newBlock.2.definedAt? = g.definedAt? := funext fun o => by
    cases o with
    | output n i => rfl
    | param b i =>
      rw [definedAt?, definedAt?, block?_newBlock]
      split
      · rename_i hb
        rw [hb, hnone]
        rfl
      · rfl
  refine ⟨?_, ?_, ?_, fun v o => ?_⟩
  · rw [hnodes]
    exact h.placement
  · rw [howner]
    exact h.ownership
  · obtain ⟨block, htop, hfree⟩ := h.top
    refine ⟨block, ?_, hfree⟩
    rw [block?_newBlock, if_neg, htop]
    exact fun heq => by rw [heq, hnone] at htop; exact nomatch htop
  · rw [hdefined]
    exact h.definition v o

/-- What a block returns is a matter of uses, not of links. -/
theorem setReturns (h : g.Consistent) {b : BlockId} {values : List ValueId}
    (hok : g.setReturns b values = .ok g') : g'.Consistent := by
  obtain ⟨block, -, hok⟩ := bind_eq_ok_iff.1 hok
  obtain rfl := Except.ok.inj hok
  refine h.congr (fun n => ?_) (fun c => ?_) fun v => ?_
  · rw [node?_assignReturns]
  · rw [block?_assignReturns]
    exact map_ite_map fun _ => rfl
  · rw [originOf?, value?_assignReturns]
    rfl

theorem release (h : g.Consistent) {b : BlockId} (hok : g.release b = .ok g') : g'.Consistent := by
  obtain rfl := release_eq_ok hok
  refine h.congr (fun _ => rfl) (fun c => ?_) fun _ => rfl
  rw [block?_modifyBlock]
  exact map_ite_map fun _ => rfl

/-- A node that was removed keeps its links; that it is released is marked on it. -/
theorem remove (h : g.Consistent) {n : NodeId} (hok : g.remove n = .ok g') : g'.Consistent := by
  obtain ⟨node, -, hok⟩ := bind_eq_ok_iff.1 hok
  split at hok
  · exact nomatch hok
  obtain rfl := Except.ok.inj hok
  refine h.congr (fun m => ?_) (fun _ => rfl) fun _ => rfl
  rw [node?_modifyNode]
  exact map_ite_map fun _ => rfl

theorem copyLabel (h : g.Consistent) {source target : ValueId}
    (hok : g.copyLabel source target = .ok g') : g'.Consistent := by
  obtain ⟨value, -, hok⟩ := bind_eq_ok_iff.1 hok
  obtain ⟨_, -, hok⟩ := bind_eq_ok_iff.1 hok
  obtain rfl := Except.ok.inj hok
  refine h.congr (fun _ => rfl) (fun _ => rfl) fun v => ?_
  rw [originOf?, originOf?, value?_modifyValue]
  exact map_ite_map fun _ => rfl

/-- One value takes the place of another in slots, and slots are no links. -/
theorem substituted (h : g.Consistent) {old new : ValueId} (hs : Substituted old new g g') :
    g'.Consistent := by
  refine h.congr (fun n => ?_) (fun b => ?_) fun v => ?_
  · rw [hs.node?, Option.map_map]
    refine congrArg (Option.map · _) (funext fun node => ?_)
    show Node.links (if node.released then node else _) = _
    split <;> rfl
  · rw [hs.block?, Option.map_map]
    rfl
  · rw [originOf?, originOf?, value?, value?, hs.values]

/-! ### Placing nodes -/

/-- A node gets another place, and the nodes of one block change. -/
theorem place (h : g.Consistent) {n : NodeId} {p : Option BlockId} {b : BlockId}
    {f : List NodeId → List NodeId} {node : Node} {block : Block} (hnode : g.node? n = some node)
    (hblock : g.block? b = some block)
    (hlinked : Linked (fun m => if m = n then p else g.parentOf? m) fun c =>
      if c = b then f (g.nodesIn b) else g.nodesIn c) :
    ((g.modifyNode n fun node => { node with parent := p }).modifyBlock b fun block =>
      { block with nodes := f block.nodes }).Consistent := by
  set g' := (g.modifyNode n fun node => { node with parent := p }).modifyBlock b fun block =>
    { block with nodes := f block.nodes }
  have hnode' : ∀ m, g'.node? m = if n = m then (g.node? m).map fun node => { node with parent := p }
      else g.node? m := fun m => g.node?_modifyNode n m _
  have hblock' : ∀ c, g'.block? c = if b = c then (g.block? c).map fun block =>
      { block with nodes := f block.nodes } else g.block? c := fun c => g.block?_modifyBlock b c _
  -- How each link is read afterwards; only the first two of them change.
  have hparent : g'.parentOf? = fun m => if m = n then p else g.parentOf? m := funext fun m => by
    rw [parentOf?, hnode']
    by_cases hm : n = m
    · subst hm
      simp [hnode]
    · simp [hm, Ne.symm hm, parentOf?]
  have hnodes : g'.nodesIn = fun c => if c = b then f (g.nodesIn b) else g.nodesIn c :=
    funext fun c => by
      rw [nodesIn, hblock']
      by_cases hc : b = c
      · subst hc
        simp [hblock, nodesIn]
      · simp [hc, Ne.symm hc, nodesIn]
  have howner : ∀ c, (g'.block? c).map Block.owner = (g.block? c).map Block.owner := fun c =>
    (congrArg _ (hblock' c)).trans (map_ite_map fun _ => rfl)
  refine ⟨?_, ?_, h.top_congr howner, fun v o => ?_⟩
  · rw [hparent, hnodes]
    exact hlinked
  · rw [ownerOf?_congr howner, blocksOf_congr fun m =>
      (congrArg _ (hnode' m)).trans (map_ite_map fun _ => rfl)]
    exact h.ownership
  · rw [definedAt?_congr (fun m => (congrArg _ (hnode' m)).trans (map_ite_map fun _ => rfl))
      fun c => (congrArg _ (hblock' c)).trans (map_ite_map fun _ => rfl)]
    exact h.definition v o

theorem parentOf?_eq {n : NodeId} {node : Node} (hnode : g.node? n = some node) :
    g.parentOf? n = node.parent := by
  rw [parentOf?, hnode]
  rfl

theorem nodesIn_eq {b : BlockId} {block : Block} (hblock : g.block? b = some block) :
    g.nodesIn b = block.nodes := by
  rw [nodesIn, hblock]
  rfl

/-- A node that stands nowhere is put at the end of a block. -/
theorem append (h : g.Consistent) {b : BlockId} {n : NodeId} (hok : g.append b n = .ok g') :
    g'.Consistent := by
  obtain ⟨node, hnode, hok⟩ := bind_eq_ok_iff.1 hok
  rw [node_eq_ok_iff] at hnode
  split at hok
  · exact nomatch hok
  rename_i hfree
  obtain ⟨block, hblock, hok⟩ := bind_eq_ok_iff.1 hok
  rw [block_eq_ok_iff] at hblock
  obtain rfl := Except.ok.inj hok
  refine h.place (f := (· ++ [n])) hnode hblock (h.placement.insert ?_ ?_)
  · rw [parentOf?_eq hnode, hfree]
  · exact List.perm_append_singleton n _

/-- Where a node is put among the others does not matter to the links. -/
theorem perm_insertBefore {n anchor : NodeId} : ∀ {l : List NodeId}, anchor ∈ l →
    (n.insertBefore anchor l).Perm (n :: l)
  | x :: xs, h => by
    rw [NodeId.insertBefore]
    split
    · exact .refl _
    · rename_i hne
      have hin : anchor ∈ xs := (List.mem_cons.1 h).resolve_left (Ne.symm hne)
      exact ((perm_insertBefore hin).cons x).trans (.swap n x xs)

/-- The anchor of an insertion stands in the block that it names. -/
theorem anchor_mem (h : g.Consistent) {anchor : NodeId} {node : Node} {b : BlockId} {block : Block}
    (hnode : g.node? anchor = some node) (hparent : node.parent = some b)
    (hblock : g.block? b = some block) : anchor ∈ block.nodes := by
  rw [← nodesIn_eq hblock, ← h.placement.mem_iff, parentOf?_eq hnode]
  exact hparent

/-- The anchor of an insertion is in the list of the block that it names as its own, so it is never
missed. -/
theorem insertBefore_ne_anchorMissing (h : g.Consistent) (anchor n : NodeId) :
    g.insertBefore anchor n ≠ .error .anchorMissing := by
  intro hfault
  rw [Graph.insertBefore] at hfault
  cases hnode : g.node? n with
  | none => simp [node, hnode, bind, Except.bind] at hfault
  | some node =>
    rw [g.node_eq_ok_iff.2 hnode, ok_bind] at hfault
    split at hfault
    · cases hfault
    cases hanchor : g.node? anchor with
    | none => simp [Graph.node, hanchor, bind, Except.bind] at hfault
    | some anchorNode =>
      rw [g.node_eq_ok_iff.2 hanchor, ok_bind] at hfault
      split at hfault
      · cases hfault
      rename_i b hparent
      cases hblock : g.block? b with
      | none => simp [Graph.block, hblock, bind, Except.bind] at hfault
      | some block =>
        -- The anchor is in the list of the block it says it stands in.
        rw [g.block_eq_ok_iff.2 hblock, ok_bind, if_pos (h.anchor_mem hanchor hparent hblock)] at hfault
        cases hfault

/-- A node that stands nowhere is put before one that stands somewhere. -/
theorem insertBefore (h : g.Consistent) {anchor n : NodeId}
    (hok : g.insertBefore anchor n = .ok g') : g'.Consistent := by
  obtain ⟨node, b, block, hnode, hfree, hblock, hin, rfl⟩ := insertBefore_eq_ok hok
  refine h.place (f := n.insertBefore anchor) hnode hblock (h.placement.insert ?_ ?_)
  · rw [parentOf?_eq hnode, hfree]
  · rw [nodesIn_eq hblock]
    exact perm_insertBefore hin

/-- The node leaves the list of its block, and forgets the block. -/
theorem detach (h : g.Consistent) {n : NodeId} (hok : g.detach n = .ok g') : g'.Consistent := by
  obtain ⟨node, hnode, hok⟩ := bind_eq_ok_iff.1 hok
  rw [node_eq_ok_iff] at hnode
  split at hok
  · exact Except.ok.inj hok ▸ h
  · rename_i b hparent
    obtain rfl := Except.ok.inj hok
    have hplaced : g.parentOf? n = some b := (parentOf?_eq hnode).trans hparent
    -- The block that the node names exists, since it lists the node.
    have hlisted := (h.placement.mem_iff n b).1 hplaced
    cases hblock : g.block? b with
    | none =>
      rw [nodesIn, hblock] at hlisted
      exact nomatch hlisted
    | some block => exact h.place hnode hblock (h.placement.erase hplaced)

/-! ### New values -/

theorem index_lt_of_definedAt? (h : g.Consistent) {v : ValueId} {o : Origin}
    (hv : g.definedAt? o = some v) : v.index < g.values.size := by
  rw [← h.definition, originOf?, Option.map_eq_some_iff] at hv
  obtain ⟨value, hvalue, -⟩ := hv
  exact g.index_lt_of_value? hvalue

/-- The place of the next parameter of the block gets the next value. -/
theorem definedAt?_allocParam {b : BlockId} {block : Block} (hblock : g.block? b = some block)
    (label : Label) (o : Origin) : (g.allocParam b label).2.definedAt? o =
      if o = .param b block.params.length then some ⟨g.values.size⟩ else g.definedAt? o := by
  cases o with
  | output n i => rfl
  | param c i =>
    rw [definedAt?, definedAt?, block?_allocParam]
    by_cases hc : b = c
    · subst hc
      simp only [if_true, hblock, Option.map_some, Option.bind_some, Origin.param.injEq, true_and]
      -- The new parameter is the last one of its block.
      rw [List.getElem?_append]
      split
      · rw [if_neg (by omega)]
      · rename_i hi
        by_cases he : i = block.params.length
        · simp [he]
        · rw [if_neg he, List.getElem?_eq_none (by simp; omega), List.getElem?_eq_none (by omega)]
    · rw [if_neg hc, if_neg (by simp [Ne.symm hc])]

/-- The new value is defined by the last parameter of the block. -/
theorem originOf?_allocParam {b : BlockId} {block : Block} (hblock : g.block? b = some block)
    (label : Label) (v : ValueId) : (g.allocParam b label).2.originOf? v =
      if v = ⟨g.values.size⟩ then some (.param b block.params.length) else g.originOf? v := by
  have hcount : g.paramCount b = block.params.length := by
    rw [paramCount, hblock]
  rw [originOf?, value?_allocParam, hcount]
  split <;> rfl

/-- The new value is defined in one place, which no other value has. -/
theorem newParam (h : g.Consistent) {b : BlockId} {label : Label} {v : ValueId}
    (hok : g.newParam b label = .ok (v, g')) : g'.Consistent := by
  obtain ⟨block, hblock, hok⟩ := bind_eq_ok_iff.1 hok
  rw [block_eq_ok_iff] at hblock
  obtain rfl : (g.allocParam b label).2 = g' := congrArg Prod.snd (Except.ok.inj hok)
  -- The block has one parameter more, but its nodes and its owner are the same.
  have howner : ∀ c, ((g.allocParam b label).2.block? c).map Block.owner =
      (g.block? c).map Block.owner := fun c =>
    (congrArg _ (block?_allocParam g b c label)).trans (map_ite_map fun _ => rfl)
  refine ⟨?_, ?_, h.top_congr howner, fun w o => ?_⟩
  · rw [nodesIn_congr fun c =>
      (congrArg _ (block?_allocParam g b c label)).trans (map_ite_map fun _ => rfl)]
    exact h.placement
  · rw [ownerOf?_congr howner]
    exact h.ownership
  · -- The new value stands at the new place, and every other one where it stood.
    have hfresh : ∀ o, g.definedAt? o ≠ some ⟨g.values.size⟩ := fun o ho =>
      absurd (h.index_lt_of_definedAt? ho) (Nat.lt_irrefl _)
    have hplace : g.definedAt? (.param b block.params.length) = none := by
      simp [definedAt?, hblock]
    rw [originOf?_allocParam hblock, definedAt?_allocParam hblock]
    by_cases hw : w = ⟨g.values.size⟩ <;> by_cases ho : o = .param b block.params.length
    · simp [hw, ho]
    · simp [hw, ho, Ne.symm ho, hfresh]
    · simp [hw, ho, Ne.symm hw, h.definition, hplace]
    · simp [hw, ho, h.definition]

/-- The outputs of a new node are numbered on from the last value. -/
theorem getElem?_newOutputs (g : Graph) (spec : NodeSpec) (i : Nat) : (g.newOutputs spec)[i]? =
    if i < spec.outputs.length then some ⟨g.values.size + i⟩ else none := by
  rw [newOutputs, List.getElem?_map]
  split
  · rename_i hi
    simp [hi]
  · rename_i hi
    rw [List.getElem?_eq_none (by simp; omega)]
    rfl

theorem originOf?_allocNode_of_lt (spec : NodeSpec) {v : ValueId} (hv : v.index < g.values.size) :
    (g.allocNode spec).2.originOf? v = g.originOf? v := by
  rw [originOf?, originOf?, value?_allocNode_of_lt g spec hv]

theorem originOf?_allocNode_output {spec : NodeSpec} {i : Nat} (hi : i < spec.outputs.length) :
    (g.allocNode spec).2.originOf? ⟨g.values.size + i⟩ = some (.output ⟨g.nodes.size⟩ i) := by
  rw [originOf?, value?_allocNode_output g spec hi]
  rfl

theorem definedAt?_allocNode_output (spec : NodeSpec) (i : Nat) :
    (g.allocNode spec).2.definedAt? (.output ⟨g.nodes.size⟩ i) =
      if i < spec.outputs.length then some ⟨g.values.size + i⟩ else none := by
  rw [definedAt?, node?_allocNode, if_pos rfl]
  exact getElem?_newOutputs g spec i

/-- A new node defines nothing in any other place. -/
theorem definedAt?_allocNode_of_ne (spec : NodeSpec) {o : Origin}
    (ho : ∀ i, o ≠ .output ⟨g.nodes.size⟩ i) :
    (g.allocNode spec).2.definedAt? o = g.definedAt? o := by
  cases o with
  | output n i =>
    have hne : n ≠ ⟨g.nodes.size⟩ := fun hn => ho i (by rw [hn])
    rw [definedAt?, node?_allocNode, if_neg hne]
    rfl
  | param b i =>
    rw [definedAt?, definedAt?, block?_allocNode, Option.bind_map]
    refine congrArg (Option.bind (g.block? b)) (funext fun block => ?_)
    show (if b ∈ spec.blocks then _ else block).params[i]? = _
    split <;> rfl

/-- The outputs of a new node have it as their origin, and all other values stand where they stood. -/
theorem definition_allocNode (h : g.Consistent) (spec : NodeSpec) (v : ValueId) (o : Origin) :
    (g.allocNode spec).2.originOf? v = some o ↔ (g.allocNode spec).2.definedAt? o = some v := by
  constructor
  · intro hv
    by_cases hlt : v.index < g.values.size
    · rw [originOf?_allocNode_of_lt spec hlt, h.definition] at hv
      rw [definedAt?_allocNode_of_ne spec fun i heq => ?_, hv]
      -- The new node was not there before.
      have hnone : g.node? ⟨g.nodes.size⟩ = none := g.node?_eq_none_iff.2 (Nat.le_refl _)
      rw [heq, definedAt?, hnone] at hv
      exact nomatch hv
    · have hsize : v.index < (g.allocNode spec).2.values.size := by
        rw [originOf?, Option.map_eq_some_iff] at hv
        obtain ⟨value, hvalue, -⟩ := hv
        exact (g.allocNode spec).2.index_lt_of_value? hvalue
      rw [size_values_allocNode] at hsize
      obtain ⟨i, hi⟩ : ∃ i, v.index = g.values.size + i := ⟨v.index - g.values.size, by omega⟩
      obtain rfl : v = ⟨g.values.size + i⟩ := by rw [← hi]
      have hlen : i < spec.outputs.length := by omega
      rw [originOf?_allocNode_output hlen] at hv
      obtain rfl := Option.some.inj hv
      rw [definedAt?_allocNode_output, if_pos hlen]
  · intro hv
    by_cases ho : ∃ i, o = .output ⟨g.nodes.size⟩ i
    · obtain ⟨i, rfl⟩ := ho
      rw [definedAt?_allocNode_output] at hv
      split at hv
      · rename_i hi
        obtain rfl := Option.some.inj hv
        exact originOf?_allocNode_output hi
      · exact nomatch hv
    · rw [definedAt?_allocNode_of_ne spec fun i heq => ho ⟨i, heq⟩] at hv
      rw [originOf?_allocNode_of_lt spec (h.index_lt_of_definedAt? hv), h.definition]
      exact hv

/-- Its outputs are defined by it, and its blocks were owned by nobody. -/
theorem newNode (h : g.Consistent) {spec : NodeSpec} {n : NodeId}
    (hok : g.newNode spec = .ok (n, g')) : g'.Consistent := by
  unfold Graph.newNode at hok
  split at hok
  · exact nomatch hok
  rename_i hfault
  obtain rfl : (g.allocNode spec).2 = g' := congrArg Prod.snd (Except.ok.inj hok)
  obtain ⟨hfree, -, hnodup⟩ := ownershipFault?_eq_none_iff.1 hfault
  have hnone : g.node? ⟨g.nodes.size⟩ = none := g.node?_eq_none_iff.2 (Nat.le_refl _)
  refine ⟨?_, ?_, ?_, h.definition_allocNode spec⟩
  · -- the new node stands nowhere yet
    have hparent : (g.allocNode spec).2.parentOf? = g.parentOf? := funext fun m => by
      rw [parentOf?, parentOf?, node?_allocNode]
      split
      · rename_i hm
        rw [hm, hnone]
        rfl
      · rfl
    have hnodes : (g.allocNode spec).2.nodesIn = g.nodesIn := funext fun b => by
      rw [nodesIn, nodesIn, block?_allocNode, Option.map_map]
      refine congrArg (fun f => ((g.block? b).map f).getD []) (funext fun block => ?_)
      show (if b ∈ spec.blocks then _ else block).nodes = _
      split <;> rfl
    rw [hparent, hnodes]
    exact h.placement
  · -- its blocks had no owner, and they are its own now
    have hblocks : (g.allocNode spec).2.blocksOf = fun m =>
        if m = ⟨g.nodes.size⟩ then spec.blocks else g.blocksOf m := funext fun m => by
      rw [blocksOf, node?_allocNode]
      split <;> rfl
    have howner : (g.allocNode spec).2.ownerOf? = fun b =>
        if b ∈ spec.blocks then some ⟨g.nodes.size⟩ else g.ownerOf? b := funext fun b => by
      rw [ownerOf?, block?_allocNode]
      split
      · rename_i hb
        obtain ⟨-, block, hblock, -⟩ := hfree b hb
        simp [hblock]
      · simp [ownerOf?]
    rw [hblocks, howner]
    refine h.ownership.adopt ?_ (fun b hb => ?_) hnodup
    · rw [blocksOf, hnone]
      rfl
    · obtain ⟨-, block, hblock, howned⟩ := hfree b hb
      rw [ownerOf?, hblock]
      exact howned
  · -- the top block is not among them
    obtain ⟨block, htop, howned⟩ := h.top
    refine ⟨block, ?_, howned⟩
    rw [block?_allocNode, htop, Option.map_some, if_neg fun hb => (hfree _ hb).1 rfl]

/-! ### Every edit -/

/-- Basic edits keep the links and the use chains. -/
theorem apply_basic (hc : g.Consistent) (hm : g.Mirrored) (e : Edit) (he : e.IsBasic)
    (hok : e.apply g = .ok g') : g'.Consistent := by
  cases e with
  | internType entry => exact Except.ok.inj hok ▸ hc.withTypes _
  | newBlock => exact Except.ok.inj hok ▸ hc.newBlock
  | newParam block label =>
    obtain ⟨⟨v, g₁⟩, h₁, hok⟩ := bind_eq_ok_iff.1 hok
    exact Except.ok.inj hok ▸ hc.newParam h₁
  | newNode spec =>
    obtain ⟨⟨n, g₁⟩, h₁, hok⟩ := bind_eq_ok_iff.1 hok
    exact Except.ok.inj hok ▸ hc.newNode h₁
  | append block node => exact hc.append hok
  | insertBefore anchor node => exact hc.insertBefore hok
  | detach node => exact hc.detach hok
  | remove node => exact hc.remove hok
  | release block => exact hc.release hok
  | setReturns block values => exact hc.setReturns hok
  | replaceUses old new =>
    -- This edit always goes through, and what it does has been said by substitution.
    obtain ⟨g₁, h₁, hs, -⟩ := hm.replaceUses_ok old new
    exact Except.ok.inj (h₁.symm.trans hok) ▸ hc.substituted hs
  | copyLabel source target => exact hc.copyLabel hok
  | copy node names => exact he.elim
  | erase node => exact he.elim

/-- The mirror is carried along: a value is replaced everywhere only if its chain has all its slots. -/
theorem of_editedTo {g₀ : Graph} (h : g₀.EditedTo g) (hc : g₀.Consistent) (hm : g₀.Mirrored) :
    g.Consistent ∧ g.Mirrored :=
  h.keeps (P := fun g => g.Consistent ∧ g.Mirrored)
    (fun e he hg hok => ⟨hg.1.apply_basic hg.2 e he hok, hg.2.apply e hok⟩) ⟨hc, hm⟩

theorem blocks_pos (h : g.Consistent) : 0 < g.blocks.size := by
  obtain ⟨block, htop, -⟩ := h.top
  exact g.index_lt_of_block? htop

/-- Edits that are not basic are sequences of edits that are. -/
theorem apply (hc : g.Consistent) (hm : g.Mirrored) (e : Edit) (hok : e.apply g = .ok g') :
    g'.Consistent := by
  by_cases he : e.IsBasic
  · exact hc.apply_basic hm e he hok
  · cases e with
    | copy node names =>
      obtain ⟨⟨n, c⟩, hcopy, hok⟩ := bind_eq_ok_iff.1 hok
      obtain rfl := Except.ok.inj hok
      exact (of_editedTo (editedTo_copy hc.blocks_pos hcopy) hc hm).1
    | erase node => exact (of_editedTo (editedTo_erase hok) hc hm).1
    | _ => exact absurd trivial he

end Consistent

/-- A graph that edits build from nothing has consistent links. -/
theorem consistent_ofEdits {edits : List Edit} {g : Graph} (h : ofEdits edits = .ok g) :
    g.Consistent := by
  have hall : g.Consistent ∧ g.Mirrored :=
    ofEdits_induction (P := fun g => g.Consistent ∧ g.Mirrored) ⟨consistent_empty, mirrored_empty⟩
      (fun e hg hok => ⟨hg.1.apply hg.2 e hok, hg.2.apply e hok⟩) h
  exact hall.1

/-- **Both sides of every link agree** in every graph made by edits.  A node names a block as its place
exactly if the block lists it, which it does once, and no other block does.  A block names a node as
its owner exactly if it is among the blocks of the node, where it is once, and among those of no other
node; the top block has no owner.  A value names a place as its origin exactly if it stands there, and
so every value has exactly one origin.  Hence the anchor of an insertion is always found. -/
theorem links_ofEdits (edits : List Edit) (g : Graph) (h : ofEdits edits = .ok g) :
    (∀ n b, (g.parentOf? n = some b ↔ n ∈ g.nodesIn b) ∧
      (n ∈ g.nodesIn b → (g.nodesIn b).count n = 1 ∧ ∀ c, n ∈ g.nodesIn c → c = b)) ∧
    (∀ b n, (g.ownerOf? b = some n ↔ b ∈ g.blocksOf n) ∧
      (b ∈ g.blocksOf n → (g.blocksOf n).count b = 1 ∧ ∀ m, b ∈ g.blocksOf m → m = n)) ∧
    g.ownerOf? top = none ∧
    (∀ v o, g.originOf? v = some o ↔ g.definedAt? o = some v) ∧
    (∀ v value, g.value? v = some value → ∃! o, g.definedAt? o = some v) ∧
    ∀ anchor n, g.insertBefore anchor n ≠ .error .anchorMissing := by
  have hc := consistent_ofEdits h
  refine ⟨fun n b => ⟨hc.placement.mem_iff n b, fun hn => ⟨?_, fun c hcn => ?_⟩⟩,
    fun b n => ⟨hc.ownership.mem_iff b n, fun hb => ⟨?_, fun m hbm => ?_⟩⟩, ?_, hc.definition,
    fun v value hvalue => ?_, hc.insertBefore_ne_anchorMissing⟩
  · -- A list without repetitions has each of its members once.
    exact List.count_eq_one_of_mem (hc.placement.nodup b) hn
  · rw [← hc.placement.mem_iff] at hn hcn
    exact Option.some.inj (hcn.symm.trans hn)
  · exact List.count_eq_one_of_mem (hc.ownership.nodup n) hb
  · rw [← hc.ownership.mem_iff] at hb hbm
    exact Option.some.inj (hbm.symm.trans hb)
  · obtain ⟨block, htop, howned⟩ := hc.top
    rw [ownerOf?, htop]
    exact howned
  · -- The origin is where the value says that it was defined.
    have horigin : g.originOf? v = some value.origin := by
      rw [originOf?, hvalue]
      rfl
    refine ⟨value.origin, (hc.definition v _).1 horigin, fun o ho => ?_⟩
    have ho : g.originOf? v = some o := (hc.definition v o).2 ho
    exact Option.some.inj (ho.symm.trans horigin)

/-- Edits that put a node in front of one that owns a block, and a copy of that one into its block. -/
def nestingEdits : List Edit :=
  [.newBlock, .newParam ⟨1⟩ ⟨⟨0⟩, none⟩,
    .newNode ⟨.conditional, [], [⟨⟨0⟩, none⟩], .empty, [⟨1⟩]⟩, .append top ⟨0⟩,
    .newNode ⟨.raise, [], [], .empty, []⟩, .insertBefore ⟨0⟩ ⟨1⟩, .copy ⟨0⟩ .empty, .append ⟨1⟩ ⟨2⟩]

theorem links_ofEdits_nesting : ∃ g, ofEdits nestingEdits = .ok g ∧
    g.nodesIn top = [⟨1⟩, ⟨0⟩] ∧ g.parentOf? ⟨1⟩ = some top ∧ (∀ c, ⟨1⟩ ∈ g.nodesIn c → c = top) ∧
    g.blocksOf ⟨2⟩ = [⟨2⟩] ∧ g.ownerOf? ⟨2⟩ = some ⟨2⟩ ∧ (∃! o, g.definedAt? o = some ⟨3⟩) ∧
    g.insertBefore ⟨2⟩ ⟨0⟩ ≠ .error .anchorMissing := by
  have hmade : (ofEdits nestingEdits).toOption.map (fun g =>
      (g.nodesIn top, g.blocksOf ⟨2⟩, (g.value? ⟨3⟩).isSome)) =
      some ([⟨1⟩, ⟨0⟩], [⟨2⟩], true) := by decide +kernel
  simp only [Option.map_eq_some_iff, toOption_eq_some_iff, Prod.mk.injEq, Option.isSome_iff_exists]
    at hmade
  obtain ⟨g, hg, hnodes, hblocks, value, hvalue⟩ := hmade
  obtain ⟨hplaces, howners, -, -, hvalues, hanchor⟩ := links_ofEdits nestingEdits g hg
  have hin : (⟨1⟩ : NodeId) ∈ g.nodesIn top := by simp [hnodes]
  have hown : (⟨2⟩ : BlockId) ∈ g.blocksOf ⟨2⟩ := by simp [hblocks]
  exact ⟨g, hg, hnodes, (hplaces _ _).1.2 hin, ((hplaces _ _).2 hin).2, hblocks,
    (howners _ _).1.2 hown, hvalues _ value hvalue, hanchor _ _⟩

end Graph

end Unguard
