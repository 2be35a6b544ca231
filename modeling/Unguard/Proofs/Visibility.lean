import Unguard.Proofs.Unfolding

/-!
# What a slot sees

The check of scopes goes down the tree of a graph with a list of the values that are visible so far.  What
it finds can be said without a tree.  A value is in the scope of a slot (`Graph.InScope`) if it is a
parameter of the slot's block or of one around it, or an output of a node that stands in one of these
blocks in front of the slot, or in front of the node whose arm has the slot in it.

In a graph made by edits, however wrong it is otherwise, the check reports exactly the slots that are
reached and hold a value that is not in their scope, each of them once (`Graph.checkScopes_ofEdits`).
-/

namespace Unguard

/-! ### Scopes of a graph -/

namespace Graph

variable {g : Graph}

/-- The parameters of a block; a block that does not exist has none. -/
def paramsOf (g : Graph) (b : BlockId) : List ValueId :=
  ((g.block? b).map Block.params).getD []

/-- The node `m` stands in the block in front of the node `n`. -/
def StandsBefore (g : Graph) (b : BlockId) (m n : NodeId) : Prop :=
  ∃ front back, g.nodesIn b = front ++ n :: back ∧ m ∈ front

/-- A parameter of the block, or an output of a node that stands in it in front of `n`. -/
def DefinedBefore (g : Graph) (b : BlockId) (n : NodeId) (v : ValueId) : Prop :=
  v ∈ g.paramsOf b ∨ ∃ m, g.StandsBefore b m n ∧ v ∈ g.outputsOf m

/-- The block `c` is inside the node `n` of the block `b`, at any depth. -/
inductive InsideNode (g : Graph) : BlockId → BlockId → NodeId → Prop
  | arm {b c : BlockId} {n : NodeId} : n ∈ g.nodesIn b → c ∈ g.blocksOf n → InsideNode g c b n
  | deeper {a b c : BlockId} {m n : NodeId} : n ∈ g.nodesIn b → c ∈ g.blocksOf n →
    InsideNode g b a m → InsideNode g c a m

/-- Defined in a block around `b`, before the node that has `b` inside. -/
def DefinedAround (g : Graph) (b : BlockId) (v : ValueId) : Prop :=
  ∃ a m, g.InsideNode b a m ∧ g.DefinedBefore a m v

/-- The value may stand in the slots of a holder. -/
def InScope (g : Graph) : Holder → ValueId → Prop
  | .node n, v => ∃ b, n ∈ g.nodesIn b ∧ (g.DefinedBefore b n v ∨ g.DefinedAround b v)
  | .block b, v => v ∈ g.paramsOf b ∨ (∃ m ∈ g.nodesIn b, v ∈ g.outputsOf m) ∨ g.DefinedAround b v

/-- A holder that is reached from the top block. -/
def Reaches (g : Graph) : Holder → Prop
  | .node n => g.ReachesNode n
  | .block b => g.ReachesBlock b

/-- The slot holds the value. -/
def HeldAt (g : Graph) (s : Slot) (v : ValueId) : Prop :=
  ∃ values, g.held s.holder = .ok values ∧ values[s.position]? = some v

namespace Consistent

variable {b c : BlockId} {n : NodeId} {v : ValueId}

/-- In front of a node stand the nodes that the block lists before it. -/
theorem standsBefore_iff (hg : g.Consistent) {front back : List NodeId} {m : NodeId}
    (h : g.nodesIn b = front ++ n :: back) : g.StandsBefore b m n ↔ m ∈ front := by
  refine ⟨fun hm => ?_, fun hm => ⟨front, back, h, hm⟩⟩
  obtain ⟨front', back', h', hm⟩ := hm
  -- the block lists the node once, so there is one way to split the list at it
  have hnodup := hg.placement.nodup b
  have hsame := h.symm.trans h'
  rw [h, List.nodup_middle, List.nodup_cons, List.mem_append, not_or] at hnodup
  obtain ⟨rfl, -⟩ := (List.append_cons_inj_of_notMem hnodup.1.1 hnodup.1.2).1 hsame
  exact hm

/-- Inside an arm of a node, what the node sees is defined around. -/
theorem definedAround_iff (hg : g.Consistent) (hn : n ∈ g.nodesIn b) (hc : c ∈ g.blocksOf n) :
    g.DefinedAround c v ↔ g.DefinedBefore b n v ∨ g.DefinedAround b v := by
  constructor
  · rintro ⟨a, m, hinside, hv⟩
    cases hinside with
    | arm hn' hc' =>
      obtain rfl := hg.owner_unique hc hc'
      obtain rfl := hg.place_unique hn hn'
      exact Or.inl hv
    | deeper hn' hc' hup =>
      obtain rfl := hg.owner_unique hc hc'
      obtain rfl := hg.place_unique hn hn'
      exact Or.inr ⟨a, m, hup, hv⟩
  · rintro (hv | ⟨a, m, hup, hv⟩)
    · exact ⟨b, n, .arm hn hc, hv⟩
    · exact ⟨a, m, .deeper hn hc hup, hv⟩

/-- Nothing is around the top block. -/
theorem not_definedAround_top (hg : g.Consistent) : ¬ g.DefinedAround Graph.top v := by
  rintro ⟨a, m, hinside, -⟩
  cases hinside with
  | arm _ hc => exact hg.top_not_mem_blocksOf _ hc
  | deeper _ hc _ => exact hg.top_not_mem_blocksOf _ hc

end Consistent

/-- `visible` lists what is seen in the block after the nodes `front`. -/
def SeenAfter (g : Graph) (b : BlockId) (front : List NodeId) (visible : List ValueId) : Prop :=
  ∀ v, v ∈ visible ↔ v ∈ g.paramsOf b ∨ (∃ m ∈ front, v ∈ g.outputsOf m) ∨ g.DefinedAround b v

namespace SeenAfter

variable {b : BlockId} {n : NodeId} {front back : List NodeId} {visible : List ValueId}

/-- What is visible at a node is what is defined before it in its block and what is visible around the
block. -/
theorem definedBefore_iff (h : g.SeenAfter b front visible) (hg : g.Consistent)
    (hsplit : g.nodesIn b = front ++ n :: back) (v : ValueId) :
    v ∈ visible ↔ g.DefinedBefore b n v ∨ g.DefinedAround b v := by
  simp only [h v, DefinedBefore, hg.standsBefore_iff hsplit, or_assoc]

/-- A node sees what is seen after the nodes in front of it. -/
theorem inScope_node (h : g.SeenAfter b front visible) (hg : g.Consistent)
    (hsplit : g.nodesIn b = front ++ n :: back) (v : ValueId) :
    v ∈ visible ↔ g.InScope (.node n) v := by
  have hin : n ∈ g.nodesIn b := by simp [hsplit]
  rw [h.definedBefore_iff hg hsplit]
  constructor
  · exact fun hv => ⟨b, hin, hv⟩
  · rintro ⟨b', hin', hv⟩
    obtain rfl := hg.place_unique hin hin'
    exact hv

/-- A block returns what is seen after all of its nodes. -/
theorem inScope_block (h : g.SeenAfter b (g.nodesIn b) visible) (v : ValueId) :
    v ∈ visible ↔ g.InScope (.block b) v :=
  h v

/-- An arm of a node begins with its parameters and what the node sees. -/
theorem arm (h : g.SeenAfter b front visible) (hg : g.Consistent)
    (hsplit : g.nodesIn b = front ++ n :: back) {c : BlockId} (hc : c ∈ g.blocksOf n) :
    g.SeenAfter c [] (g.paramsOf c ++ visible) := by
  intro v
  have hin : n ∈ g.nodesIn b := by simp [hsplit]
  rw [List.mem_append, h.definedBefore_iff hg hsplit, hg.definedAround_iff hin hc]
  simp

/-- After more nodes their outputs are seen too. -/
theorem after (h : g.SeenAfter b front visible) {heads : List NodeView}
    (houtputs : ∀ x ∈ heads, g.outputsOf x.id = x.outputs) :
    g.SeenAfter b (front ++ heads.map NodeView.id) (visibleAfter visible heads) := by
  intro v
  have hheads : (∃ x ∈ heads, v ∈ x.outputs) ↔ ∃ m ∈ heads.map NodeView.id, v ∈ g.outputsOf m := by
    simp only [List.mem_map, exists_exists_and_eq_and]
    exact exists_congr fun x => and_congr_right fun hx => by rw [houtputs x hx]
  rw [visibleAfter, List.mem_append, List.mem_reverse, List.mem_flatMap, h v, hheads]
  simp only [List.mem_append, or_and_right, exists_or]
  grind

end SeenAfter

end Graph

/-! ### Scopes of its tree -/

theorem slotViolations_eq (visible : List ValueId) : ∀ slots : List (ValueId × Slot),
    slotViolations visible slots =
      (slots.filter fun p => p.1 ∉ visible).map fun p => .notVisible p.2 p.1
  | [] => rfl
  | (v, slot) :: slots => by
    rw [slotViolations, slotViolations_eq visible slots, List.filter_cons]
    by_cases hv : v ∈ visible <;> simp [hv]

section Scopes

variable {g : Graph} {scope : Holder → ValueId → Bool}

/-- The slots whose values are not in scope, as the check reports them. -/
def misplaced (scope : Holder → ValueId → Bool) (slots : List (ValueId × Slot)) : List Violation :=
  (slots.filter fun p => !scope p.2.holder p.1).map fun p => .notVisible p.2 p.1

theorem misplaced_append (slots more : List (ValueId × Slot)) :
    misplaced scope (slots ++ more) = misplaced scope slots ++ misplaced scope more := by
  rw [misplaced, List.filter_append, List.map_append]
  rfl

/-- What a scan reports is what is not in scope, if it keeps to the scope. -/
theorem slotViolations_eq_misplaced {visible values : List ValueId} {holder : Holder}
    (h : ∀ v, v ∈ visible ↔ scope holder v = true) :
    slotViolations visible (holder.slots values) = misplaced scope (holder.slots values) := by
  rw [slotViolations_eq, misplaced]
  refine congrArg _ (List.filter_congr fun p hp => ?_)
  obtain ⟨hholder, -⟩ := Holder.mem_slots.1 hp
  rw [hholder]
  by_cases hv : p.1 ∈ visible
  · simp [hv, (h p.1).1 hv]
  · simp [hv, Bool.eq_false_iff.2 (mt (h p.1).2 hv)]

theorem Body.ShownBy.outputsOf : ∀ {body : NodeTrees}, body.ShownBy g → ∀ x ∈ body.heads,
    g.outputsOf x.id = x.outputs
  | .done, _ => List.forall_mem_nil _
  | .node head _ rest, ⟨⟨_, hentry, hview, _⟩, _, hrest⟩ => by
    refine List.forall_mem_cons.2 ⟨?_, hrest.outputsOf⟩
    rw [Graph.outputsOf, hentry, ← hview]
    rfl

mutual

/-- The check of nodes that stand in `b` after the nodes `front` reports the slots among them, and inside
them, that hold a value out of scope. -/
theorem NodeTrees.scopeViolations_eq (hg : g.Consistent)
    (hscope : ∀ h v, scope h v = true ↔ g.InScope h v) : ∀ {body : NodeTrees} {b : BlockId}
    {front : List NodeId} {visible : List ValueId}, body.ShownBy g →
    g.nodesIn b = front ++ body.headIds → g.SeenAfter b front visible →
    NodeTrees.scopeViolations visible body = misplaced scope (NodeTrees.slots body)
  | .done, _, _, _, _, _, _ => rfl
  | .node head arms rest, b, front, visible, hshown, hsplit, hseen => by
    have houtputs : ∀ x ∈ [head], g.outputsOf x.id = x.outputs := fun x hx =>
      hshown.outputsOf x (List.mem_cons.2 (Or.inl (List.mem_singleton.1 hx)))
    obtain ⟨⟨node, hnode, hview, hblocks⟩, harms, hrest⟩ := hshown
    rw [Body.headIds_node] at hsplit
    have hinputs : ∀ v, v ∈ visible ↔ scope (.node head.id) v = true := fun v => by
      rw [hscope, hseen.inScope_node hg hsplit]
    have hinside : ∀ c ∈ arms.headIds, g.SeenAfter c [] (g.paramsOf c ++ visible) := fun c hc =>
      hseen.arm hg hsplit (Graph.mem_blocksOf.2 ⟨node, hnode, hblocks ▸ hc⟩)
    have hsplit' : g.nodesIn b = (front ++ [head.id]) ++ rest.headIds := by
      rw [hsplit, List.append_assoc]
      rfl
    rw [NodeTrees.scopeViolations, NodeTrees.slots, misplaced_append, misplaced_append,
      slotViolations_eq_misplaced hinputs, BlockTrees.scopeViolations_eq hg hscope harms hinside,
      NodeTrees.scopeViolations_eq hg hscope hrest hsplit' (hseen.after houtputs)]

/-- The check of blocks, each of which begins with its parameters and the values of `visible`. -/
theorem BlockTrees.scopeViolations_eq (hg : g.Consistent)
    (hscope : ∀ h v, scope h v = true ↔ g.InScope h v) : ∀ {arms : BlockTrees}
    {visible : List ValueId}, arms.ShownBy g →
    (∀ c ∈ arms.headIds, g.SeenAfter c [] (g.paramsOf c ++ visible)) →
    BlockTrees.scopeViolations visible arms = misplaced scope (BlockTrees.slots arms)
  | .done, _, _, _ => rfl
  | .arm head body rest, visible, ⟨⟨block, hblock, hview, hnodes⟩, hbody, hrest⟩, hseen => by
    rw [Arms.headIds_arm, List.forall_mem_cons] at hseen
    have hparams : g.paramsOf head.id = head.params := by
      rw [Graph.paramsOf, hblock, ← hview]
      rfl
    have hheads : g.nodesIn head.id = body.headIds :=
      (Graph.Consistent.nodesIn_eq hblock).trans hnodes
    rw [hparams] at hseen
    -- A block returns what is seen after the last of its nodes.
    have hlast : g.SeenAfter head.id (g.nodesIn head.id)
        (visibleAfter (head.params ++ visible) body.heads) := by
      rw [hheads]
      exact hseen.1.after hbody.outputsOf
    have hreturns : ∀ v, v ∈ visibleAfter (head.params ++ visible) body.heads ↔
        scope (.block head.id) v = true := fun v => by
      rw [hscope, hlast.inScope_block]
    rw [BlockTrees.scopeViolations, BlockTrees.slots, misplaced_append, misplaced_append,
      slotViolations_eq_misplaced hreturns, NodeTrees.scopeViolations_eq hg hscope hbody hheads hseen.1,
      BlockTrees.scopeViolations_eq hg hscope hrest hseen.2]

end

end Scopes

/-! ### The slots of a tree -/

theorem Holder.map_snd_slotsFrom (h : Holder) : ∀ (values : List ValueId) (k : Nat),
    (h.slotsFrom k values).map Prod.snd = (List.range' k values.length).map (Slot.mk h)
  | [], _ => rfl
  | v :: values, k => by
    rw [slotsFrom, List.map_cons, map_snd_slotsFrom h values (k + 1), List.length_cons, List.range'_succ,
      List.map_cons]

/-- A holder has every slot once. -/
theorem Holder.nodup_slots (h : Holder) (values : List ValueId) :
    ((h.slots values).map Prod.snd).Nodup := by
  rw [slots, map_snd_slotsFrom]
  exact (List.nodup_range').map fun i j hij => congrArg Slot.position hij

theorem Holder.holder_of_mem_slots {h : Holder} {values : List ValueId} {s : Slot}
    (hs : s ∈ (h.slots values).map Prod.snd) : s.holder = h := by
  obtain ⟨p, hp, rfl⟩ := List.mem_map.1 hs
  exact (Holder.mem_slots.1 hp).1

mutual

/-- The slots of a tree are those of its nodes and then those of its blocks, up to order. -/
theorem NodeTrees.slots_perm : ∀ body : NodeTrees, (NodeTrees.slots body).Perm
    ((body.nodes.flatMap fun x => Holder.slots (.node x.id) x.inputs) ++
      body.blocks.flatMap fun b => Holder.slots (.block b.id) b.returns)
  | .done => List.Perm.refl _
  | .node head arms rest => by
    rw [List.perm_iff_count]
    intro p
    have harms := (BlockTrees.slots_perm arms).count_eq p
    have hrest := (NodeTrees.slots_perm rest).count_eq p
    simp only [NodeTrees.slots, Body.nodes, Body.blocks, List.flatMap_cons, List.flatMap_append,
      List.count_append] at harms hrest ⊢
    omega

/-- The slots of the nodes of a tree and those of its blocks. -/
theorem BlockTrees.slots_perm : ∀ arms : BlockTrees, (BlockTrees.slots arms).Perm
    ((arms.nodes.flatMap fun x => Holder.slots (.node x.id) x.inputs) ++
      arms.blocks.flatMap fun b => Holder.slots (.block b.id) b.returns)
  | .done => List.Perm.refl _
  | .arm head body rest => by
    rw [List.perm_iff_count]
    intro p
    have hbody := (NodeTrees.slots_perm body).count_eq p
    have hrest := (BlockTrees.slots_perm rest).count_eq p
    simp only [BlockTrees.slots, Arms.nodes, Arms.blocks, List.flatMap_cons, List.flatMap_append,
      List.count_append] at hbody hrest ⊢
    omega

end

namespace Graph.Unfolds

variable {g : Graph} {t : BlockTree}

/-- No slot occurs twice in the tree. -/
theorem nodup_slots (h : g.Unfolds t) : ((BlockTrees.slots t.toArms).map Prod.snd).Nodup := by
  have hnodes : (t.toArms.nodes.map NodeView.id).Nodup := Arms.map_id_nodes t.toArms ▸ h.nodup_ids
  have hblocks : (t.toArms.blocks.map BlockView.id).Nodup := by
    rw [Arms.blocks_eq_collect, Arms.map_collect]
    exact h.nodup_blockIds
  rw [((BlockTrees.slots_perm t.toArms).map Prod.snd).nodup_iff, List.map_append, List.map_flatMap,
    List.map_flatMap]
  refine List.nodup_append.2 ⟨?_, ?_, ?_⟩
  · refine List.nodup_flatMap.2 ⟨fun x _ => Holder.nodup_slots _ _, ?_⟩
    refine (List.pairwise_map.1 hnodes).imp fun {x y} hne s hs hs' => hne ?_
    exact Holder.node.inj ((Holder.holder_of_mem_slots hs).symm.trans (Holder.holder_of_mem_slots hs'))
  · refine List.nodup_flatMap.2 ⟨fun x _ => Holder.nodup_slots _ _, ?_⟩
    refine (List.pairwise_map.1 hblocks).imp fun {x y} hne s hs hs' => hne ?_
    exact Holder.block.inj ((Holder.holder_of_mem_slots hs).symm.trans (Holder.holder_of_mem_slots hs'))
  · intro s hs s' hs' hsame
    subst hsame
    obtain ⟨x, -, hs⟩ := List.mem_flatMap.1 hs
    obtain ⟨b, -, hs'⟩ := List.mem_flatMap.1 hs'
    cases (Holder.holder_of_mem_slots hs).symm.trans (Holder.holder_of_mem_slots hs')

/-- The slots of the tree are those that are reached. -/
theorem mem_slots_iff (h : g.Unfolds t) {v : ValueId} {s : Slot} :
    (v, s) ∈ BlockTrees.slots t.toArms ↔ g.Reaches s.holder ∧ g.HeldAt s v := by
  obtain ⟨holder, i⟩ := s
  rw [BlockTrees.mem_slots]
  simp only [Holder.mem_slots]
  constructor
  · -- From the tree to the tables: the entry of a view holds what the view mentions.
    rintro (⟨x, hx, rfl, hv⟩ | ⟨b, hb, rfl, hv⟩)
    · obtain ⟨inside, hmem⟩ := Arms.mem_nodes.1 hx
      obtain ⟨node, hnode, hview, -⟩ := h.shown.subtree hmem
      have hinputs : node.inputs = x.inputs := congrArg NodeView.inputs hview
      refine ⟨h.reachesNode_iff.2 (Arms.mem_ids.2 ⟨_, hmem, rfl⟩), node.inputs, ?_, ?_⟩
      · rw [held, g.node_eq_ok_iff.2 hnode]
        rfl
      · rw [hinputs]
        exact hv
    · obtain ⟨block, hblock, hview, -⟩ := h.shown.block hb
      have hreturns : block.returns = b.returns := congrArg BlockView.returns hview
      refine ⟨h.reachesBlock_iff.2 (Arms.mem_blockIds.2 ⟨b, hb, rfl⟩), block.returns, ?_, ?_⟩
      · rw [held, g.block_eq_ok_iff.2 hblock]
        rfl
      · rw [hreturns]
        exact hv
  · -- From the tables to the tree: what is reached has a view there.
    rintro ⟨hreach, values, hheld, hv⟩
    cases holder with
    | node n =>
      obtain ⟨⟨x, inside⟩, hmem, rfl⟩ := Arms.mem_ids.1 (h.reachesNode_iff.1 hreach)
      obtain ⟨node, hnode, hview, -⟩ := h.shown.subtree hmem
      rw [held, g.node_eq_ok_iff.2 hnode] at hheld
      obtain rfl := Except.ok.inj hheld
      have hinputs : node.inputs = x.inputs := congrArg NodeView.inputs hview
      exact Or.inl ⟨x, Arms.mem_nodes.2 ⟨inside, hmem⟩, rfl, hinputs ▸ hv⟩
    | block b =>
      obtain ⟨view, hmem, rfl⟩ := Arms.mem_blockIds.1 (h.reachesBlock_iff.1 hreach)
      obtain ⟨block, hblock, hview, -⟩ := h.shown.block hmem
      rw [held, g.block_eq_ok_iff.2 hblock] at hheld
      obtain rfl := Except.ok.inj hheld
      have hreturns : block.returns = view.returns := congrArg BlockView.returns hview
      exact Or.inr ⟨view, hmem, rfl, hreturns ▸ hv⟩

end Graph.Unfolds

namespace Graph

/-- The check of scopes is sound and complete: in a graph made by edits it reports the slots that are
reached and hold a value which is not in scope there, each of them once. -/
theorem checkScopes_ofEdits (edits : List Edit) (g : Graph) (h : ofEdits edits = .ok g) :
    ∃ slots : List (ValueId × Slot),
      g.checkScopes = .ok ⟨slots.map fun p => .notVisible p.2 p.1⟩ ∧ (slots.map Prod.snd).Nodup ∧
      ∀ v s, (v, s) ∈ slots ↔ g.Reaches s.holder ∧ g.HeldAt s v ∧ ¬ g.InScope s.holder v := by
  classical
  have hg := consistent_ofEdits h
  obtain ⟨t, ht⟩ := hg.exists_unfolds
  let scope : Holder → ValueId → Bool := fun holder v => decide (g.InScope holder v)
  have hseen : ∀ c ∈ t.toArms.headIds, g.SeenAfter c [] (g.paramsOf c ++ []) := by
    intro c hc v
    rw [BlockTree.headIds_toArms, List.mem_singleton] at hc
    rw [hc, ht.top]
    simp [hg.not_definedAround_top]
  have hreport := BlockTrees.scopeViolations_eq hg (fun _ _ => decide_eq_true_iff) ht.shown hseen
  refine ⟨(BlockTrees.slots t.toArms).filter fun p => !scope p.2.holder p.1, ?_, ?_, fun v s => ?_⟩
  · rw [checkScopes_of_tree ht.tree_eq, hreport]
    rfl
  · exact ht.nodup_slots.sublist (List.filter_sublist.map Prod.snd)
  · rw [List.mem_filter, ht.mem_slots_iff, and_assoc]
    simp [scope]

/-- Edits that use the output of a conditional inside its arm, and return a value that does not exist. -/
def misplacingEdits : List Edit :=
  [.newParam top ⟨⟨0⟩, none⟩, .newBlock,
    .newNode ⟨.conditional, [⟨0⟩], [⟨⟨0⟩, none⟩], .empty, [⟨1⟩]⟩, .append top ⟨0⟩,
    .newNode ⟨.raise, [⟨0⟩, ⟨1⟩], [], .empty, []⟩, .append ⟨1⟩ ⟨1⟩, .setReturns top [⟨1⟩, ⟨7⟩]]

/-- The output is out of scope inside the arm, but not after the conditional. -/
theorem checkScopes_ofEdits_misplacing : ∃ g, ofEdits misplacingEdits = .ok g ∧
    g.checkScopes = .ok ⟨[.notVisible ⟨.node ⟨1⟩, 1⟩ ⟨1⟩, .notVisible ⟨.block top, 1⟩ ⟨7⟩]⟩ ∧
    ¬ g.InScope (.node ⟨1⟩) ⟨1⟩ ∧ ¬ g.InScope (.block top) ⟨7⟩ ∧ g.InScope (.block top) ⟨1⟩ := by
  have hmade : (ofEdits misplacingEdits).toOption.map (fun g =>
      (g.checkScopes.toOption, (g.held (.block top)).toOption)) =
      some (some ⟨[.notVisible ⟨.node ⟨1⟩, 1⟩ ⟨1⟩, .notVisible ⟨.block top, 1⟩ ⟨7⟩]⟩,
        some [⟨1⟩, ⟨7⟩]) := by decide +kernel
  simp only [Option.map_eq_some_iff, toOption_eq_some_iff, Prod.mk.injEq] at hmade
  obtain ⟨g, hg, hreport, hheld⟩ := hmade
  obtain ⟨slots, hslots, -, hmem⟩ := checkScopes_ofEdits misplacingEdits g hg
  have hlist := CheckReport.mk.inj (Except.ok.inj (hslots.symm.trans hreport))
  have hreported : ∀ v s, (v, s) ∈ slots ↔ Violation.notVisible s v ∈
      [Violation.notVisible ⟨.node ⟨1⟩, 1⟩ ⟨1⟩, .notVisible ⟨.block top, 1⟩ ⟨7⟩] := by
    intro v s
    rw [← hlist]
    simp
  refine ⟨g, hg, hreport, ?_, ?_, ?_⟩
  · exact ((hmem ⟨1⟩ ⟨.node ⟨1⟩, 1⟩).1 ((hreported _ _).2 (by decide))).2.2
  · exact ((hmem ⟨7⟩ ⟨.block top, 1⟩).1 ((hreported _ _).2 (by decide))).2.2
  · -- otherwise its slot would have been reported
    by_contra hout
    have hin := (hmem ⟨1⟩ ⟨.block top, 0⟩).2 ⟨.top, ⟨_, hheld, rfl⟩, hout⟩
    exact absurd ((hreported _ _).1 hin) (by decide)

end Graph

end Unguard
