import Unguard.Proofs.Reachability

/-!
# Graphs made by edits have trees

Edits may detach nodes and leave values, nodes and blocks behind that nothing holds any more; they may
even put a node into a block of its own.  What is reached from the top block is a tree all the same, in
which nothing occurs twice, and the graph unfolds to it (`Graph.Consistent.exists_unfolds`).

That is so because links agree on both sides.  A block has one owner at most, which stands in one block
at most, so there is one way up from a block (`Graph.Lineage.unique`).  If it leads to the top block, it
meets no block twice, and is no longer than the graph has blocks.
-/

namespace Unguard

namespace Graph

variable {g : Graph}

theorem mem_nodesIn {b : BlockId} {n : NodeId} :
    n ∈ g.nodesIn b ↔ ∃ block, g.block? b = some block ∧ n ∈ block.nodes := by
  rw [nodesIn]
  cases g.block? b <;> simp

theorem mem_blocksOf {n : NodeId} {b : BlockId} :
    b ∈ g.blocksOf n ↔ ∃ node, g.node? n = some node ∧ b ∈ node.blocks := by
  rw [blocksOf]
  cases g.node? n <;> simp

namespace Consistent

theorem exists_block (h : g.Consistent) {n : NodeId} {b : BlockId} (hb : b ∈ g.blocksOf n) :
    ∃ block, g.block? b = some block := by
  obtain ⟨block, hblock, -⟩ := Option.bind_eq_some_iff.1 ((h.ownership.mem_iff b n).2 hb)
  exact ⟨block, hblock⟩

theorem exists_node (h : g.Consistent) {b : BlockId} {n : NodeId} (hn : n ∈ g.nodesIn b) :
    ∃ node, g.node? n = some node := by
  obtain ⟨node, hnode, -⟩ := Option.bind_eq_some_iff.1 ((h.placement.mem_iff n b).2 hn)
  exact ⟨node, hnode⟩

/-- A block belongs to one node at most, since it says itself to which. -/
theorem owner_unique (h : g.Consistent) {b : BlockId} {n n' : NodeId} (hn : b ∈ g.blocksOf n)
    (hn' : b ∈ g.blocksOf n') : n = n' := by
  rw [← h.ownership.mem_iff] at hn hn'
  exact Option.some.inj (hn.symm.trans hn')

/-- A node stands in one block at most, since it says itself in which. -/
theorem place_unique (h : g.Consistent) {n : NodeId} {b b' : BlockId} (hb : n ∈ g.nodesIn b)
    (hb' : n ∈ g.nodesIn b') : b = b' := by
  rw [← h.placement.mem_iff] at hb hb'
  exact Option.some.inj (hb.symm.trans hb')

/-- The top block belongs to no node. -/
theorem top_not_mem_blocksOf (h : g.Consistent) (n : NodeId) : Graph.top ∉ g.blocksOf n := by
  intro hn
  rw [← h.ownership.mem_iff] at hn
  obtain ⟨block, htop, hfree⟩ := h.top
  rw [ownerOf?, htop] at hn
  cases hfree.symm.trans hn

end Consistent

/-! ### The way up from a block -/

/-- The blocks around a block from the inside out, with the block itself first and the top block last. -/
inductive Lineage (g : Graph) : BlockId → List BlockId → Prop
  | top : Lineage g Graph.top [Graph.top]
  | inside {b c : BlockId} {n : NodeId} {bs : List BlockId} : Lineage g b bs → n ∈ g.nodesIn b →
    c ∈ g.blocksOf n → Lineage g c (c :: bs)

namespace Lineage

variable {b c : BlockId} {bs cs : List BlockId}

theorem exists_block (h : g.Lineage b bs) (hg : g.Consistent) : ∃ block, g.block? b = some block := by
  cases h with
  | top =>
    obtain ⟨block, htop, -⟩ := hg.top
    exact ⟨block, htop⟩
  | inside _ _ hb => exact hg.exists_block hb

/-- There is one way up. -/
theorem unique (hg : g.Consistent) (h : g.Lineage b bs) (h' : g.Lineage b cs) : bs = cs := by
  induction h generalizing cs with
  | top =>
    cases h' with
    | top => rfl
    | inside _ _ hb => exact absurd hb (hg.top_not_mem_blocksOf _)
  | inside _ hn hb ih =>
    cases h' with
    | top => exact absurd hb (hg.top_not_mem_blocksOf _)
    | inside hup hn' hb' =>
      -- the owner is the same, and so is the block it stands in
      obtain rfl := hg.owner_unique hb hb'
      obtain rfl := hg.place_unique hn hn'
      rw [ih hup]

/-- The way up from a block on the way up is a part of it. -/
theorem of_mem (h : g.Lineage b bs) (hc : c ∈ bs) : ∃ cs, g.Lineage c cs ∧ cs <:+ bs := by
  induction h with
  | top =>
    rw [List.mem_singleton] at hc
    subst hc
    exact ⟨_, .top, List.suffix_refl _⟩
  | @inside b c' n bs hup hn hb ih =>
    rw [List.mem_cons] at hc
    rcases hc with rfl | hc
    · exact ⟨_, hup.inside hn hb, List.suffix_refl _⟩
    · obtain ⟨cs, hcs, hsuffix⟩ := ih hc
      exact ⟨cs, hcs, hsuffix.trans (List.suffix_cons _ _)⟩

/-- On the way up no block is met twice. -/
theorem nodup (hg : g.Consistent) (h : g.Lineage b bs) : bs.Nodup := by
  induction h with
  | top => exact List.nodup_singleton _
  | @inside b c n bs hup hn hc ih =>
    refine List.nodup_cons.2 ⟨fun hin => ?_, ih⟩
    -- met again, the block would have a shorter way up as well
    obtain ⟨cs, hcs, hsuffix⟩ := hup.of_mem hin
    have hlength := hsuffix.length_le
    rw [unique hg hcs (hup.inside hn hc), List.length_cons] at hlength
    omega

/-- So it is no longer than the table. -/
theorem length_le (hg : g.Consistent) (h : g.Lineage b bs) : bs.length ≤ g.blocks.size := by
  refine length_le_of_nodup_blockIds (h.nodup hg) fun c hc => ?_
  obtain ⟨cs, hcs, -⟩ := h.of_mem hc
  obtain ⟨block, hblock⟩ := hcs.exists_block hg
  exact g.index_lt_of_block? hblock

end Lineage

/-! ### Unfolding goes through -/

/-- Unfolding a block gives a tree that the graph shows. -/
def UnfoldsTo (g : Graph) (unfold : BlockId → Except Fault BlockTree) (b : BlockId) : Prop :=
  ∃ t, unfold b = .ok t ∧ t.head.id = b ∧ t.toArms.ShownBy g

/-- Blocks unfold together if each of them unfolds. -/
theorem exists_unfoldArms {unfold : BlockId → Except Fault BlockTree} : ∀ {bs : List BlockId},
    (∀ b ∈ bs, g.UnfoldsTo unfold b) →
    ∃ arms, unfoldArms unfold bs = .ok arms ∧ arms.headIds = bs ∧ arms.ShownBy g
  | [], _ => ⟨.done, rfl, rfl, trivial⟩
  | b :: bs, h => by
    rw [List.forall_mem_cons] at h
    obtain ⟨t, ht, hid, hshown, hbody, -⟩ := h.1
    obtain ⟨rest, hrest, hids, hshown'⟩ := exists_unfoldArms h.2
    refine ⟨.arm t.head t.body rest, ?_, ?_, hshown, hbody, hshown'⟩
    · rw [unfoldArms, ht, ok_bind, hrest]
      rfl
    · rw [Arms.headIds_arm, hid, hids]

/-- Nodes unfold if their blocks do. -/
theorem exists_unfoldNodes {unfold : BlockId → Except Fault BlockTree} : ∀ {ns : List NodeId},
    (∀ n ∈ ns, ∃ node, g.node? n = some node ∧ ∀ c ∈ node.blocks, g.UnfoldsTo unfold c) →
    ∃ body, g.unfoldNodes (fun _ => true) unfold ns = .ok body ∧ body.headIds = ns ∧ body.ShownBy g
  | [], _ => ⟨.done, rfl, rfl, trivial⟩
  | n :: ns, h => by
    rw [List.forall_mem_cons] at h
    obtain ⟨node, hnode, hblocks⟩ := h.1
    obtain ⟨arms, harms, hids, hshown⟩ := exists_unfoldArms hblocks
    obtain ⟨rest, hrest, hids', hshown'⟩ := exists_unfoldNodes h.2
    refine ⟨.node (node.view n) arms rest, ?_, ?_, ⟨node, hnode, rfl, hids.symm⟩, hshown, hshown'⟩
    · rw [unfoldNodes, g.node_eq_ok_iff.2 hnode, ok_bind, if_pos rfl, harms, ok_bind, hrest]
      rfl
    · rw [Body.headIds_node, hids']
      rfl

/-- A block unfolds to as many levels as are left for the ways up through it. -/
theorem Lineage.unfoldsTo (hg : g.Consistent) : ∀ {depth : Nat} {b : BlockId} {bs : List BlockId},
    g.Lineage b bs → g.blocks.size < bs.length + depth →
    g.UnfoldsTo (g.unfoldBlock (fun _ => true) depth) b
  | 0, b, bs, h, hdepth => by
    have hlength := h.length_le hg
    omega
  | depth + 1, b, bs, h, hdepth => by
    obtain ⟨block, hblock⟩ := h.exists_block hg
    have hnodes : ∀ n ∈ block.nodes, ∃ node, g.node? n = some node ∧ ∀ c ∈ node.blocks,
        g.UnfoldsTo (g.unfoldBlock (fun _ => true) depth) c := by
      intro n hn
      have hin : n ∈ g.nodesIn b := mem_nodesIn.2 ⟨block, hblock, hn⟩
      obtain ⟨node, hnode⟩ := hg.exists_node hin
      refine ⟨node, hnode, fun c hc => ?_⟩
      have hdeeper := h.inside hin (mem_blocksOf.2 ⟨node, hnode, hc⟩)
      refine hdeeper.unfoldsTo hg ?_
      rw [List.length_cons]
      omega
    obtain ⟨body, hbody, hids, hshown⟩ := exists_unfoldNodes hnodes
    refine ⟨⟨block.view b, body⟩, ?_, rfl, ⟨block, hblock, rfl, hids.symm⟩, hshown, trivial⟩
    rw [unfoldBlock, g.block_eq_ok_iff.2 hblock, ok_bind, hbody]
    rfl

/-! ### Nothing occurs twice -/

/-- The way up from a block ends with `bs`. -/
def Descends (g : Graph) (b : BlockId) (bs : List BlockId) : Prop :=
  ∃ cs, g.Lineage b cs ∧ bs <:+ cs

namespace Descends

variable {b c : BlockId} {bs cs : List BlockId}

theorem suffix (hg : g.Consistent) (h : g.Descends b bs) (h' : g.Lineage b cs) : bs <:+ cs := by
  obtain ⟨ds, hds, hsuffix⟩ := h
  rwa [hds.unique hg h'] at hsuffix

theorem tail (h : g.Descends b (c :: bs)) : g.Descends b bs := by
  obtain ⟨ds, hds, hsuffix⟩ := h
  exact ⟨ds, hds, (List.suffix_cons c bs).trans hsuffix⟩

/-- Ways up do not meet on the same level. -/
theorem eq_of_cons (hg : g.Consistent) {d : BlockId} (h : g.Descends d (b :: bs))
    (h' : g.Descends d (c :: bs)) : b = c := by
  obtain ⟨ds, hds, hsuffix⟩ := h'
  have hpart := List.suffix_of_suffix_length_le (h.suffix hg hds) hsuffix (Nat.le_refl _)
  exact (List.cons.inj (hpart.eq_of_length rfl)).1

end Descends

mutual

/-- The blocks inside nodes are different ones, and each is inside one of the nodes. -/
theorem nodup_blockIds_body (hg : g.Consistent) : ∀ {body : NodeTrees} {b : BlockId} {bs : List BlockId},
    body.ShownBy g → g.Lineage b bs → body.headIds.Nodup → (∀ n ∈ body.headIds, n ∈ g.nodesIn b) →
    body.blockIds.Nodup ∧ ∀ c ∈ body.blockIds, ∃ n ∈ body.headIds, ∃ d ∈ g.blocksOf n,
      g.Descends c (d :: bs)
  | .done, _, _, _, _, _, _ => ⟨List.nodup_nil, List.forall_mem_nil _⟩
  | .node head arms rest, b, bs, ⟨⟨node, hnode, _, hblocks⟩, harms, hrest⟩, hup, hnodup, hin => by
    rw [Body.headIds_node, List.nodup_cons] at hnodup
    rw [Body.headIds_node, List.forall_mem_cons] at hin
    have hown : g.blocksOf head.id = arms.headIds := by rw [blocksOf, hnode, ← hblocks]; rfl
    have hinside : ∀ c ∈ arms.headIds, g.Lineage c (c :: bs) := fun c hc =>
      hup.inside hin.1 (hown.symm ▸ hc)
    obtain ⟨harms, hbelow⟩ := nodup_blockIds_arms hg harms hinside (hown ▸ hg.ownership.nodup _)
    obtain ⟨hrest, hbelow'⟩ := nodup_blockIds_body hg hrest hup hnodup.2 hin.2
    rw [Body.blockIds_node]
    constructor
    · refine List.nodup_append.2 ⟨harms, hrest, fun c hc c' hc' hsame => ?_⟩
      -- a block on both sides has a way up through an arm of each
      subst hsame
      obtain ⟨d, hd, hdesc⟩ := hbelow c hc
      obtain ⟨n, hn, d', hd', hdesc'⟩ := hbelow' c hc'
      obtain rfl := hdesc.eq_of_cons hg hdesc'
      exact hnodup.1 (hg.owner_unique (hown.symm ▸ hd) hd' ▸ hn)
    · intro c hc
      rw [List.mem_append] at hc
      rcases hc with hc | hc
      · obtain ⟨d, hd, hdesc⟩ := hbelow c hc
        exact ⟨head.id, List.mem_cons_self, d, hown.symm ▸ hd, hdesc⟩
      · obtain ⟨n, hn, hrest⟩ := hbelow' c hc
        exact ⟨n, List.mem_cons_of_mem _ hn, hrest⟩

/-- Blocks and the blocks inside them are different ones. -/
theorem nodup_blockIds_arms (hg : g.Consistent) : ∀ {arms : BlockTrees} {bs : List BlockId},
    arms.ShownBy g → (∀ b ∈ arms.headIds, g.Lineage b (b :: bs)) → arms.headIds.Nodup →
    arms.blockIds.Nodup ∧ ∀ c ∈ arms.blockIds, ∃ b ∈ arms.headIds, g.Descends c (b :: bs)
  | .done, _, _, _, _ => ⟨List.nodup_nil, List.forall_mem_nil _⟩
  | .arm head body rest, bs, ⟨⟨block, hblock, _, hnodes⟩, hbody, hrest⟩, hup, hnodup => by
    rw [Arms.headIds_arm, List.nodup_cons] at hnodup
    rw [Arms.headIds_arm, List.forall_mem_cons] at hup
    have hheads : g.nodesIn head.id = body.headIds :=
      (Consistent.nodesIn_eq hblock).trans hnodes
    -- Each block knows its way up, which tells the blocks under one head from those under another.
    obtain ⟨hbody, hbelow⟩ := nodup_blockIds_body hg hbody hup.1 (hheads ▸ hg.placement.nodup _)
      fun n hn => hheads.symm ▸ hn
    obtain ⟨hrest, hbelow'⟩ := nodup_blockIds_arms hg hrest hup.2 hnodup.2
    have hfirst : ∀ c ∈ body.blockIds, g.Descends c (head.id :: bs) := fun c hc => by
      obtain ⟨n, -, d, -, hdesc⟩ := hbelow c hc
      exact hdesc.tail
    have hself : g.Descends head.id (head.id :: bs) := ⟨_, hup.1, List.suffix_refl _⟩
    -- A block has one way up only, so it cannot go through two heads.
    have hapart : ∀ c ∈ rest.blockIds, ¬ g.Descends c (head.id :: bs) := fun c hc hdesc => by
      obtain ⟨b, hb, hdesc'⟩ := hbelow' c hc
      exact hnodup.1 (hdesc.eq_of_cons hg hdesc' ▸ hb)
    rw [Arms.blockIds_arm, List.nodup_cons, List.mem_append]
    refine ⟨⟨?_, ?_⟩, ?_⟩
    · rintro (hin | hin)
      · -- the way up from inside is longer
        obtain ⟨n, -, d, -, hdesc⟩ := hbelow _ hin
        have hlength := (hdesc.suffix hg hup.1).length_le
        simp only [List.length_cons] at hlength
        omega
      · exact hapart _ hin hself
    · exact List.nodup_append.2 ⟨hbody, hrest, fun c hc c' hc' hsame =>
        hapart c' hc' (hsame ▸ hfirst c hc)⟩
    · intro c hc
      rw [List.mem_cons, List.mem_append] at hc
      rcases hc with rfl | hc | hc
      · exact ⟨head.id, List.mem_cons_self, hself⟩
      · exact ⟨head.id, List.mem_cons_self, hfirst c hc⟩
      · obtain ⟨b, hb, hdesc⟩ := hbelow' c hc
        exact ⟨b, List.mem_cons_of_mem _ hb, hdesc⟩

end

mutual

/-- The nodes of a tree are those that stand in its blocks. -/
theorem ids_perm_body : ∀ {body : NodeTrees}, body.ShownBy g →
    body.ids.Perm (body.headIds ++ body.blockIds.flatMap g.nodesIn)
  | .done, _ => List.Perm.refl _
  | .node head arms rest, ⟨_, harms, hrest⟩ => by
    have ihArms := ids_perm_arms harms
    have ihRest := ids_perm_body hrest
    rw [List.perm_iff_count] at ihArms ihRest ⊢
    intro n
    have hcount := ihArms n
    have hcount' := ihRest n
    rw [List.count_append] at hcount'
    simp only [Body.ids_node, Body.headIds_node, Body.blockIds_node, List.flatMap_append,
      List.cons_append, List.count_cons, List.count_append]
    omega

/-- The nodes of the tree are those of its blocks. -/
theorem ids_perm_arms : ∀ {arms : BlockTrees}, arms.ShownBy g →
    arms.ids.Perm (arms.blockIds.flatMap g.nodesIn)
  | .done, _ => List.Perm.refl _
  | .arm head body rest, ⟨⟨block, hblock, _, hnodes⟩, hbody, hrest⟩ => by
    have hheads : g.nodesIn head.id = body.headIds :=
      (Consistent.nodesIn_eq hblock).trans hnodes
    rw [Arms.ids_arm, Arms.blockIds_arm, List.flatMap_cons, List.flatMap_append, ← List.append_assoc,
      hheads]
    exact (ids_perm_body hbody).append (ids_perm_arms hrest)

end

/-- In a graph made by edits, what is reached from the top block is a tree. -/
theorem Consistent.exists_unfolds (hg : g.Consistent) : ∃ t, g.Unfolds t := by
  have hunfold : g.UnfoldsTo (g.unfoldBlock (fun _ => true) g.blocks.size) Graph.top := by
    refine Lineage.top.unfoldsTo hg ?_
    rw [List.length_singleton]
    omega
  obtain ⟨t, htree, htop, hshown⟩ := hunfold
  have hblocks : t.toArms.blockIds.Nodup := by
    have hup : ∀ b ∈ t.toArms.headIds, g.Lineage b [b] := by
      intro b hb
      rw [BlockTree.headIds_toArms, List.mem_singleton] at hb
      rw [hb, htop]
      exact .top
    exact (nodup_blockIds_arms hg hshown hup (List.nodup_singleton _)).1
  refine ⟨t, htree, htop, hshown, ?_, hblocks⟩
  rw [(ids_perm_arms hshown).nodup_iff, List.nodup_flatMap]
  refine ⟨fun b _ => hg.placement.nodup b, hblocks.imp fun {b b'} hne n hn hn' => ?_⟩
  exact hne (hg.place_unique hn hn')

end Graph

end Unguard
