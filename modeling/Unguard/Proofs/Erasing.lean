import Unguard.Graph.Erase
import Unguard.Proofs.Edits
import Unguard.Proofs.Represents
import Unguard.Proofs.Rewriting

/-!
# Erasing a node of the tree

Erasing walks down the blocks of a node, empties and releases them, and removes the nodes from the last
to the first.  Each removal faults if an output is still used.  In a well-formed tree none is: the
slots that may hold what a node defines come after it, in its block or further in, and are gone by then
(`eraseNodes_ok`, `eraseArms_ok`).

So a node whose definitions are not mentioned elsewhere can be erased, and what is left represents the
tree without it (`Represents.erase_ok`).
-/

namespace Unguard.Graph

variable {g g' g'' : Graph}

/-! ### What is cleared -/

/-- The nodes `ns` are removed and the blocks `bs` emptied and released, and the nodes `out` are out of
the block `b`.  Nothing else has changed. -/
structure Cleared (b : BlockId) (out ns : List NodeId) (bs : List BlockId) (g g' : Graph) : Prop where
  node? : ∀ n, g'.node? n = (g.node? n).map fun node =>
    if n ∈ ns then { node with parent := none, released := true } else node
  block? : ∀ c, g'.block? c = (g.block? c).map fun block =>
    if c ∈ bs then { block with nodes := [], returns := [], released := true }
    else if c = b then { block with nodes := block.nodes.filter (· ∉ out) } else block

namespace Cleared

variable {b : BlockId} {out ns : List NodeId} {bs : List BlockId}

/-- Only nodes that are cleared change. -/
theorem node?_of_not_mem (h : Cleared b out ns bs g g') {n : NodeId} (hn : n ∉ ns) :
    g'.node? n = g.node? n := by
  rw [h.node?]
  simp [hn]

/-- Only blocks that are cleared change, and the one that loses nodes. -/
theorem block?_of_not_mem (h : Cleared b out ns bs g g') {c : BlockId} (hc : c ∉ bs) (hb : c ≠ b) :
    g'.block? c = g.block? c := by
  rw [h.block?]
  simp [hc, hb]

theorem block?_of_nil (h : Cleared b [] ns bs g g') {c : BlockId} (hc : c ∉ bs) :
    g'.block? c = g.block? c := by
  rw [h.block?]
  simp [hc]

/-- The order in which nodes and blocks are listed does not matter. -/
theorem perm (h : Cleared b out ns bs g g') {ns' : List NodeId} {bs' : List BlockId}
    (hns : ns.Perm ns') (hbs : bs.Perm bs') : Cleared b out ns' bs' g g' where
  node? n := by
    rw [h.node?]
    simp only [hns.mem_iff]
  block? c := by
    rw [h.block?]
    simp only [hbs.mem_iff]

/-- What is held afterwards was held before, by holders that are not cleared. -/
theorem heldIn? (h : Cleared b out ns bs g g') {s : Slot} {v : ValueId}
    (hv : g'.heldIn? s = some v) : g.heldIn? s = some v ∧ ¬ s.holder.Within ns bs := by
  obtain ⟨holder, i⟩ := s
  cases holder with
  | node n =>
    obtain ⟨node, hn, hv⟩ := Option.bind_eq_some_iff.1 hv
    rw [h.node?, Option.map_eq_some_iff] at hn
    obtain ⟨old, hold, rfl⟩ := hn
    by_cases hmem : n ∈ ns
    · simp [hmem] at hv
    · rw [if_neg hmem] at hv
      exact ⟨Option.bind_eq_some_iff.2 ⟨old, hold, hv⟩, hmem⟩
  | block c =>
    obtain ⟨block, hc, hv⟩ := Option.bind_eq_some_iff.1 hv
    rw [h.block?, Option.map_eq_some_iff] at hc
    obtain ⟨old, hold, rfl⟩ := hc
    by_cases hmem : c ∈ bs
    · simp [hmem] at hv
    · refine ⟨Option.bind_eq_some_iff.2 ⟨old, hold, ?_⟩, hmem⟩
      rw [if_neg hmem] at hv
      split at hv <;> exact hv

/-- Holders that are not cleared hold what they held. -/
theorem heldIn?_of_not_within (h : Cleared b out ns bs g g') {s : Slot}
    (hs : ¬ s.holder.Within ns bs) : g'.heldIn? s = g.heldIn? s := by
  obtain ⟨holder, i⟩ := s
  cases holder with
  | node n => rw [heldIn?_node, heldIn?_node, h.node?_of_not_mem hs]
  | block c =>
    have hc : c ∉ bs := hs
    rw [heldIn?_block, heldIn?_block, h.block?]
    cases g.block? c with
    | none => rfl
    | some block =>
      rw [Option.map_some, if_neg hc]
      split <;> rfl

end Cleared

/-- The node `n` is out of the block `b`, and nothing else has changed. -/
structure Detached (n : NodeId) (b : BlockId) (g g' : Graph) : Prop where
  node? : ∀ m, g'.node? m = if n = m then (g.node? m).map fun node => { node with parent := none }
    else g.node? m
  block? : ∀ c, g'.block? c = if b = c then (g.block? c).map fun block =>
    { block with nodes := block.nodes.filter (· ≠ n) } else g.block? c

/-- A node that is detached goes on holding its operands. -/
theorem Detached.heldIn? {n : NodeId} {b : BlockId} (h : Detached n b g g') (s : Slot) :
    g'.heldIn? s = g.heldIn? s := by
  refine heldIn?_eq (fun m => ?_) fun c => ?_
  · rw [h.node?]
    split <;> simp [Function.comp_def]
  · rw [h.block?]
    split <;> simp [Function.comp_def]

/-- Blocks without the node, and apart from the block it stood in, stand as before. -/
theorem Detached.stand {n : NodeId} {b : BlockId} (h : Detached n b g g') {arms : BlockTrees}
    {owner : Option NodeId} (hstand : arms.Stand g owner) (hn : n ∉ arms.ids) (hb : b ∉ arms.blockIds) :
    arms.Stand g' owner := by
  refine hstand.congr (fun m hm => ?_) fun c hc => ?_
  · rw [h.node?, if_neg (fun he : n = m => hn (he ▸ hm))]
  · rw [h.block?, if_neg (fun he : b = c => hb (he ▸ hc))]

/-- The node `n` is released, and nothing else has changed in the tables of nodes and blocks. -/
structure Removed (n : NodeId) (g g' : Graph) : Prop where
  node? : ∀ m, g'.node? m = if n = m then (g.node? m).map fun node => { node with released := true }
    else g.node? m
  block? : ∀ c, g'.block? c = g.block? c

/-- The block `b` returns `values`, and nothing else has changed in the tables of nodes and blocks. -/
structure Returning (b : BlockId) (values : List ValueId) (g g' : Graph) : Prop where
  node? : ∀ n, g'.node? n = g.node? n
  block? : ∀ c, g'.block? c = if b = c then (g.block? c).map fun block =>
    { block with returns := values } else g.block? c

/-- A block that returns nothing holds nothing. -/
theorem Returning.heldIn? {b : BlockId} (h : Returning b [] g g') {s : Slot} {v : ValueId}
    (hv : g'.heldIn? s = some v) : g.heldIn? s = some v ∧ s.holder ≠ .block b := by
  obtain ⟨holder, i⟩ := s
  cases holder with
  | node n =>
    rw [heldIn?_node, h.node?, ← heldIn?_node] at hv
    exact ⟨hv, nofun⟩
  | block c =>
    rw [heldIn?_block, h.block?] at hv
    split at hv
    · obtain ⟨_, hblock, hv⟩ := Option.bind_eq_some_iff.1 hv
      obtain ⟨_, -, rfl⟩ := Option.map_eq_some_iff.1 hblock
      simp at hv
    · rename_i hne
      exact ⟨hv, fun hc => hne (Holder.block.inj hc).symm⟩

/-- The block `b` is released, and nothing else has changed in the tables of nodes and blocks. -/
structure Released (b : BlockId) (g g' : Graph) : Prop where
  node? : ∀ n, g'.node? n = g.node? n
  block? : ∀ c, g'.block? c = if b = c then (g.block? c).map fun block =>
    { block with released := true } else g.block? c

/-! ### Clearing step by step -/

section Steps

variable {g₁ g₂ g₃ : Graph} {b : BlockId} {out out' ns ns' : List NodeId} {bs bs' : List BlockId}

/-- What is cleared twice is cleared once, so two clearings make one. -/
theorem Cleared.trans (h : Cleared b out ns bs g g₁) (h' : Cleared b out' ns' bs' g₁ g₂) :
    Cleared b (out' ++ out) (ns' ++ ns) (bs' ++ bs) g g₂ where
  node? n := by
    rw [h'.node?, h.node?, Option.map_map]
    refine congrArg (Option.map · _) (funext fun node => ?_)
    by_cases hn : n ∈ ns <;> by_cases hn' : n ∈ ns' <;> simp [hn, hn']
  block? c := by
    rw [h'.block?, h.block?, Option.map_map]
    refine congrArg (Option.map · _) (funext fun block => ?_)
    obtain rfl | hb := eq_or_ne c b
    · by_cases hc : c ∈ bs <;> by_cases hc' : c ∈ bs' <;> simp [hc, hc', List.filter_filter]
    · by_cases hc : c ∈ bs <;> by_cases hc' : c ∈ bs' <;> simp [hc, hc', hb]

/-- A node leaves its block, its own blocks are cleared, and it is removed. -/
theorem Cleared.node {n : NodeId} (hd : Detached n b g g₁) (hc : Cleared b [] ns bs g₁ g₂)
    (hr : Removed n g₂ g₃) : Cleared b [n] (n :: ns) bs g g₃ where
  node? m := by
    rw [hr.node?, hc.node?, hd.node?]
    cases g.node? m with
    | none => simp
    | some node =>
      by_cases hm : n = m
      · by_cases hin : m ∈ ns <;> simp [hm, hin]
      · by_cases hin : m ∈ ns <;> simp [hm, Ne.symm hm, hin]
  block? c := by
    rw [hr.block?, hc.block?, hd.block?]
    cases g.block? c with
    | none => simp
    | some block =>
      by_cases hcb : b = c
      · by_cases hin : c ∈ bs <;> simp [hcb, hin]
      · by_cases hin : c ∈ bs <;> simp [hcb, Ne.symm hcb, hin]

/-- A block returns nothing more, its nodes are cleared, and it is released. -/
theorem Cleared.arm {c : BlockId} (a : BlockId) {block : Block} (hblock : g.block? c = some block)
    (hempty : block.nodes ⊆ out) (he : Returning c [] g g₁) (hc : Cleared c out ns bs g₁ g₂)
    (hr : Released c g₂ g₃) : Cleared a [] ns (c :: bs) g g₃ where
  node? n := by
    rw [hr.node?, hc.node?, he.node?]
  block? d := by
    rw [hr.block?, hc.block?, he.block?]
    obtain rfl | hd := eq_or_ne c d
    · have hnone : block.nodes.filter (· ∉ out) = [] :=
        List.filter_eq_nil_iff.2 fun n hn => by simpa using hempty hn
      by_cases hin : c ∈ bs
      · simp [hblock, hin]
      · simp [hblock, hin, ← hnone]
    · by_cases hin : d ∈ bs <;> simp [hd, hd.symm, hin]

end Steps

/-! ### The edits that erase -/

/-- A node that stands somewhere can be detached. -/
theorem detach_ok {n : NodeId} {node : Node} {b : BlockId} (hn : g.node? n = some node)
    (hb : node.parent = some b) : ∃ g', g.detach n = .ok g' ∧ Detached n b g g' := by
  refine ⟨(g.modifyNode n fun node => { node with parent := none }).modifyBlock b fun block =>
    { block with nodes := block.nodes.filter (· ≠ n) }, ?_, fun m => ?_, fun c => ?_⟩
  · rw [detach, (g.node_eq_ok_iff).2 hn, ok_bind, hb]
    rfl
  · rw [node?_modifyBlock, node?_modifyNode]
  · rw [block?_modifyBlock, block?_modifyNode]

/-- A node can be removed when it stands nowhere, nothing uses it, and its blocks have been released. -/
theorem remove_ok {n : NodeId} {node : Node} (hn : g.node? n = some node) (hp : node.parent = none)
    (houtputs : ∀ v ∈ node.outputs, g.usesOf v = [])
    (hblocks : ∀ b ∈ node.blocks, ∃ block, g.block? b = some block ∧ block.released = true) :
    ∃ g', g.remove n = .ok g' ∧ Removed n g g' := by
  have hunused : node.outputs.find? g.isUsed = none := by
    refine List.find?_eq_none.2 fun v hv => ?_
    simp [isUsed, houtputs v hv]
  have hreleased : node.blocks.find? g.isBlockLive = none := by
    refine List.find?_eq_none.2 fun b hb => ?_
    obtain ⟨block, hblock, hr⟩ := hblocks b hb
    simp [isBlockLive, hblock, hr]
  have hfault : g.removalFault? n node = none := by
    rw [removalFault?, hp, hunused, hreleased]
    rfl
  refine ⟨{ g with uses := g.uses.leave (Holder.slots (.node n) node.inputs) }.modifyNode n
    fun node => { node with released := true }, ?_, fun m => ?_, fun b => ?_⟩
  · rw [remove, (g.node_eq_ok_iff).2 hn, ok_bind, hfault]
    rfl
  · rw [node?_modifyNode]
    rfl
  · rw [block?_modifyNode]
    rfl

theorem setReturns_ok {b : BlockId} {block : Block} (hb : g.block? b = some block)
    (values : List ValueId) :
    ∃ g', g.setReturns b values = .ok g' ∧ Returning b values g g' := by
  refine ⟨g.assignReturns b values, ?_, node?_assignReturns g b values, fun c =>
    block?_assignReturns g b c values⟩
  rw [setReturns, (g.block_eq_ok_iff).2 hb, ok_bind]
  rfl

/-- A block can be released when it is empty and is not the top block. -/
theorem release_ok {b : BlockId} {block : Block} (hb : g.block? b = some block) (htop : b ≠ top)
    (hnodes : block.nodes = []) (hreturns : block.returns = []) :
    ∃ g', g.release b = .ok g' ∧ Released b g g' := by
  refine ⟨g.modifyBlock b fun block => { block with released := true }, ?_, fun n => ?_,
    fun c => ?_⟩
  · rw [release, if_neg htop, (g.block_eq_ok_iff).2 hb, ok_bind, hnodes, hreturns]
    rfl
  · rw [node?_modifyBlock]
  · rw [block?_modifyBlock]

/-! ### Erasing what nodes and blocks hold -/

section Within

variable {head : NodeView} {arms more : BlockTrees} {body rest : NodeTrees} {block : BlockView}

theorem within_node {h : Holder} :
    h.Within (Body.node head arms rest).ids (Body.node head arms rest).blockIds ↔
      h = .node head.id ∨ h.Within arms.ids arms.blockIds ∨ h.Within rest.ids rest.blockIds := by
  cases h <;> simp [Holder.Within]

theorem within_arm {h : Holder} :
    h.Within (Arms.arm block body more).ids (Arms.arm block body more).blockIds ↔
      h = .block block.id ∨ h.Within body.ids body.blockIds ∨ h.Within more.ids more.blockIds := by
  cases h <;> simp [Holder.Within]

theorem within_cons_block {h : Holder} {ns : List NodeId} {b : BlockId} {bs : List BlockId} :
    h.Within ns (b :: bs) ↔ h = .block b ∨ h.Within ns bs := by
  cases h <;> simp [Holder.Within]

end Within

/-- Every slot that holds one of the values belongs to one of the nodes or blocks. -/
def Enclosed (g : Graph) (vs : List ValueId) (ns : List NodeId) (bs : List BlockId) : Prop :=
  ∀ v ∈ vs, ∀ s, g.heldIn? s = some v → s.holder.Within ns bs

/-- A node that is out of its block is still there when its blocks are cleared. -/
theorem node?_of_cleared {g₁ g₂ : Graph} {head : NodeView} {arms : BlockTrees} {b : BlockId}
    {out : List NodeId} (hnode : g.node? head.id = some (head.entry arms.headIds (some b)))
    (hhead : head.id ∉ arms.ids) (hd : Detached head.id b g g₁)
    (hc : Cleared b out arms.ids arms.blockIds g₁ g₂) :
    g₂.node? head.id = some { head.entry arms.headIds (some b) with parent := none } := by
  rw [hc.node?_of_not_mem hhead, hd.node?, if_pos rfl, hnode]
  rfl

section Enclosed

variable {head : NodeView} {arms more : BlockTrees} {body rest : NodeTrees} {block : BlockView}
  {parent : Option BlockId} {owner : Option NodeId} {visible : List ValueId}

/-- The inputs of a node are none of the values defined by it, inside it or after it. -/
theorem not_held_by_head (hwf : (Body.node head arms rest).WellFormed visible)
    (hhead : g.node? head.id = some (head.entry arms.headIds parent)) {s : Slot} {v : ValueId}
    (hv : v ∈ NodeTrees.definitions (.node head arms rest)) (hheld : g.heldIn? s = some v) :
    s.holder ≠ .node head.id := by
  intro hs
  obtain ⟨holder, i⟩ := s
  subst hs
  obtain ⟨node, hnode, hi⟩ := Option.bind_eq_some_iff.1 hheld
  obtain rfl := Option.some.inj (hhead.symm.trans hnode)
  exact hwf.fresh v (hwf.scope.1 (List.mem_of_getElem? hi)) hv

/-- What the nodes after the first one define is used among them only. -/
theorem Enclosed.after (henc : g.Enclosed (NodeTrees.definitions (.node head arms rest))
      (Body.node head arms rest).ids (Body.node head arms rest).blockIds)
    (hwf : (Body.node head arms rest).WellFormed visible)
    (hstand : (Body.node head arms rest).Stand g parent) :
    g.Enclosed (NodeTrees.definitions rest) rest.ids rest.blockIds := by
  intro v hv s hheld
  have hall : v ∈ NodeTrees.definitions (.node head arms rest) := by
    simp [hv]
  rcases within_node.1 (henc v hall s hheld) with hs | hs | hs
  · exact absurd hs (not_held_by_head hwf hstand.1 hall hheld)
  · have hdefs := hwf.definitions
    rw [NodeTrees.definitions_node, List.nodup_append, List.nodup_append] at hdefs
    rcases hwf.inside.scope.mem_of_mentions (hstand.2.1.mem_mentions hs hheld) with hvis | hdef
    · exact absurd hall (hwf.fresh v hvis)
    · exact absurd rfl (hdefs.2.1.2.2 v hdef v hv)
  · exact hs

/-- What a body defines is used in it and by the returns of its block, and nowhere else. -/
theorem Enclosed.inside (henc : g.Enclosed (BlockTrees.definitions (.arm block body more))
      (Arms.arm block body more).ids (Arms.arm block body more).blockIds)
    (hwf : (Arms.arm block body more).WellFormed visible)
    (hstand : (Arms.arm block body more).Stand g owner) {s : Slot} {v : ValueId}
    (hv : v ∈ NodeTrees.definitions body) (hheld : g.heldIn? s = some v) :
    s.holder = .block block.id ∨ s.holder.Within body.ids body.blockIds := by
  have hall : v ∈ BlockTrees.definitions (.arm block body more) := by
    simp [hv]
  rcases within_arm.1 (henc v hall s hheld) with hs | hs | hs
  · exact Or.inl hs
  · exact Or.inr hs
  · have hdefs := hwf.definitions
    rw [BlockTrees.definitions_arm, List.nodup_append, List.nodup_append] at hdefs
    rcases hwf.after.scope.mem_of_mentions (hstand.2.2.mem_mentions hs hheld) with hvis | hdef
    · exact absurd hall (hwf.fresh v hvis)
    · exact absurd rfl (hdefs.2.1.2.2 v hv v hdef)

/-- Once a node is out of its block and its blocks are cleared, it can be removed, if its outputs were
held inside it only. -/
theorem remove_cleared {g₁ g₂ : Graph} {b : BlockId}
    (hnode : g.node? head.id = some (head.entry arms.headIds (some b))) (hhead : head.id ∉ arms.ids)
    (hd : Detached head.id b g g₁) (hstand : arms.Stand g₁ (some head.id))
    (hc : Cleared b [] arms.ids arms.blockIds g₁ g₂) (hm : g₂.Mirrored)
    (henc : ∀ v ∈ head.outputs, ∀ s, g₁.heldIn? s = some v → s.holder.Within arms.ids arms.blockIds) :
    ∃ g₃, g₂.remove head.id = .ok g₃ ∧
      Cleared b [head.id] (head.id :: arms.ids) arms.blockIds g g₃ := by
  obtain ⟨g₃, hok, hr⟩ := remove_ok (node?_of_cleared hnode hhead hd hc) rfl
    (by
      -- nothing is held inside the node any more
      intro v hv
      refine List.eq_nil_iff_forall_not_mem.2 fun s hs => ?_
      obtain ⟨hheld, hout⟩ := hc.heldIn? ((hm.mem_iff v s).1 hs)
      exact hout (henc v hv s hheld))
    (by
      intro c hin
      obtain ⟨block, hblock, -⟩ := hstand.exists_head hin
      have hmem := Arms.headIds_subset_blockIds hin
      exact ⟨_, by rw [hc.block?, hblock, Option.map_some, if_pos hmem], rfl⟩)
  exact ⟨g₃, hok, .node hd hc hr⟩

end Enclosed

mutual

/-- Nodes that nothing outside uses can be erased, last to first. By induction along the tree: once the
rest is gone, nothing uses the first node. -/
theorem eraseNodes_ok : ∀ {body : NodeTrees} {g : Graph} {b : BlockId} {visible : List ValueId},
    g.Mirrored → body.Stand g (some b) → b ∉ body.blockIds → top ∉ body.blockIds →
    body.WellFormed visible → g.Enclosed (NodeTrees.definitions body) body.ids body.blockIds →
    ∃ g', g.eraseNodes body = .ok g' ∧ Cleared b body.headIds body.ids body.blockIds g g'
  | .done, g, b, _, _, _, _, _, _, _ => ⟨g, rfl, by simp, by simp⟩
  | .node head arms rest, g, b, visible, hm, hstand, hb, htop, hwf, henc => by
    have hids := hwf.ids
    have hbids := hwf.blockIds
    simp only [Body.ids_node, Body.blockIds_node, List.nodup_cons, List.nodup_append,
      List.mem_append, not_or] at hids hbids hb htop
    obtain ⟨⟨hh₁, hh₂⟩, -, -, hdisj⟩ := hids
    obtain ⟨-, -, hbdisj⟩ := hbids
    -- The nodes after this one go first.
    obtain ⟨g₁, h₁, hc₁⟩ := eraseNodes_ok hm hstand.2.2 hb.2 htop.2 hwf.after
      (Enclosed.after henc hwf hstand)
    have hm₁ := Mirrored.keptByErasing.eraseNodes rest hm h₁
    have hhead₁ := (hc₁.node?_of_not_mem hh₂).trans hstand.1
    have harms₁ : arms.Stand g₁ (some head.id) := by
      refine hstand.2.1.congr (fun n hn => ?_) fun c hc => ?_
      · exact hc₁.node?_of_not_mem fun hr => hdisj n hn n hr rfl
      · exact hc₁.block?_of_not_mem (fun hr => hbdisj c hc c hr rfl) fun h => hb.1 (h ▸ hc)
    obtain ⟨g₂, h₂, hd₂⟩ := detach_ok hhead₁ rfl
    have hm₂ := Mirrored.keptByErasing.detach hm₁ h₂
    have harms₂ := hd₂.stand harms₁ hh₁ hb.1
    -- Slots that hold what is defined by this node or inside it are now inside it.
    have henc₂ : ∀ v ∈ NodeTrees.definitions (.node head arms rest), ∀ s, g₂.heldIn? s = some v →
        s.holder.Within arms.ids arms.blockIds := by
      intro v hv s hheld
      obtain ⟨hheld, hout⟩ := hc₁.heldIn? (hd₂.heldIn? s ▸ hheld)
      rcases within_node.1 (henc v hv s hheld) with hs | hs | hs
      · exact absurd hs (not_held_by_head hwf hstand.1 hv hheld)
      · exact hs
      · exact absurd hs hout
    obtain ⟨g₃, h₃, hc₃⟩ := eraseArms_ok b hm₂ harms₂ htop.1 hwf.inside fun v hv =>
      henc₂ v (by simp [hv])
    obtain ⟨g₄, h₄, hc₄⟩ := remove_cleared hhead₁ hh₁ hd₂ harms₂ hc₃
      (Mirrored.keptByErasing.eraseArms arms hm₂ h₃) fun v hv =>
        henc₂ v (List.mem_append_left _ (List.mem_append_left _ hv))
    refine ⟨g₄, ?_, hc₁.trans hc₄⟩
    rw [eraseNodes, h₁, ok_bind, h₂, ok_bind, h₃, ok_bind, h₄]

/-- Blocks that nothing outside uses can be erased. Its returns are taken from a block before its nodes
are erased, since they may use what the nodes define. -/
theorem eraseArms_ok : ∀ {arms : BlockTrees} {g : Graph} {owner : Option NodeId}
    {visible : List ValueId} (b : BlockId), g.Mirrored → arms.Stand g owner → top ∉ arms.blockIds →
    arms.WellFormed visible → g.Enclosed (BlockTrees.definitions arms) arms.ids arms.blockIds →
    ∃ g', g.eraseArms arms = .ok g' ∧ Cleared b [] arms.ids arms.blockIds g g'
  | .done, g, _, _, b, _, _, _, _, _ => ⟨g, rfl, by simp, by simp⟩
  | .arm head body rest, g, owner, visible, b, hm, hstand, htop, hwf, henc => by
    have hids := hwf.ids
    have hbids := hwf.blockIds
    simp only [Arms.ids_arm, Arms.blockIds_arm, List.nodup_cons, List.nodup_append,
      List.mem_append, List.mem_cons, not_or] at hids hbids htop
    obtain ⟨-, -, hdisj⟩ := hids
    obtain ⟨⟨hh₁, hh₂⟩, -, -, hbdisj⟩ := hbids
    -- The block returns nothing from here on, so it holds no slots of its own.
    obtain ⟨g₁, h₁, he₁⟩ := setReturns_ok hstand.1 []
    have hm₁ := Mirrored.keptByErasing.clearReturns hm h₁
    have hbody₁ : body.Stand g₁ (some head.id) := by
      refine hstand.2.1.congr (fun n _ => he₁.node? n) fun c hc => ?_
      rw [he₁.block?, if_neg (fun h : head.id = c => hh₁ (h ▸ hc))]
    -- Its nodes are mentioned inside it only, so they can go.
    obtain ⟨g₂, h₂, hc₂⟩ := eraseNodes_ok hm₁ hbody₁ hh₁ htop.2.1 hwf.inside (by
      intro v hv s hheld
      obtain ⟨hheld, hs⟩ := he₁.heldIn? hheld
      exact (Enclosed.inside henc hwf hstand hv hheld).resolve_left hs)
    have hm₂ := Mirrored.keptByErasing.eraseNodes body hm₁ h₂
    have hempty : body.headIds.filter (· ∉ body.headIds) = [] := by
      simp
    have hhead₂ : g₂.block? head.id =
        some { head.entry body.headIds owner with nodes := [], returns := [] } := by
      rw [hc₂.block?, he₁.block?, if_pos rfl, hstand.1, Option.map_some, Option.map_some, if_neg hh₁,
        if_pos rfl, ← hempty]
      rfl
    -- What is left of the block is empty, and may be released.
    obtain ⟨g₃, h₃, hr₃⟩ := release_ok hhead₂ (Ne.symm htop.1) rfl rfl
    have hm₃ := Mirrored.keptByErasing.release hm₂ h₃
    have hc₃ : Cleared b [] body.ids (head.id :: body.blockIds) g g₃ :=
      .arm b hstand.1 (List.Subset.refl _) he₁ hc₂ hr₃
    have hrest₃ : rest.Stand g₃ owner := by
      refine hstand.2.2.congr (fun n hn => ?_) fun c hc => ?_
      · exact hc₃.node?_of_not_mem fun hb => hdisj n hb n hn rfl
      · refine hc₃.block?_of_nil fun hin => ?_
        rcases List.mem_cons.1 hin with rfl | hin
        · exact hh₂ hc
        · exact hbdisj c hin c hc rfl
    -- The other blocks still stand as they did, and are mentioned among themselves only.
    obtain ⟨g₄, h₄, hc₄⟩ := eraseArms_ok b hm₃ hrest₃ htop.2.2 hwf.after (by
      intro v hv s hheld
      obtain ⟨hheld, hout⟩ := hc₃.heldIn? hheld
      rw [within_cons_block, not_or] at hout
      rcases within_arm.1 (henc v (by simp [hv]) s hheld) with h | h | h
      · exact absurd h hout.1
      · exact absurd h hout.2
      · exact h)
    refine ⟨g₄, ?_, (hc₃.trans hc₄).perm List.perm_append_comm List.perm_append_comm⟩
    rw [eraseArms, h₁, ok_bind, h₂, ok_bind, h₃, ok_bind, h₄]

end

/-! ### Erasing one node -/

/-- Erasing does not touch values and types. -/
theorem keptByErasing_values (g : Graph) :
    KeptByErasing fun g' => g'.values = g.values ∧ g'.types = g.types where
  detach := by
    rintro g₁ g₂ n ⟨hv, ht⟩ h
    obtain ⟨node, -, h⟩ := bind_eq_ok_iff.1 h
    split at h <;> exact Except.ok.inj h ▸ ⟨hv, ht⟩
  clearReturns := by
    rintro g₁ g₂ b ⟨hv, ht⟩ h
    obtain ⟨block, -, h⟩ := bind_eq_ok_iff.1 h
    rw [← Except.ok.inj h, assignReturns]
    split <;> exact ⟨hv, ht⟩
  release := by
    rintro g₁ g₂ b ⟨hv, ht⟩ h
    unfold release at h
    split at h
    · cases h
    obtain ⟨block, -, h⟩ := bind_eq_ok_iff.1 h
    split at h
    · cases h
    split at h
    · cases h
    exact Except.ok.inj h ▸ ⟨hv, ht⟩
  remove := by
    rintro g₁ g₂ n ⟨hv, ht⟩ h
    obtain ⟨node, -, h⟩ := bind_eq_ok_iff.1 h
    split at h
    · cases h
    exact Except.ok.inj h ▸ ⟨hv, ht⟩

theorem flatMap_eq_filter (n : NodeId) (l : List NodeId) :
    (l.flatMap fun m => if m = n then [] else [m]) = l.filter (· ≠ n) := by
  induction l with
  | nil => rfl
  | cons m l ih =>
    rw [List.flatMap_cons, List.filter_cons, ih]
    by_cases h : m = n <;> simp [h]

section Erase

variable {t : BlockTree} {head : NodeView} {arms : BlockTrees} {seen : List ValueId}

/-- A slot that holds a value that is not mentioned outside a node, and that the node does not take,
is inside the node. -/
theorem Represents.within_of_unmentioned (h : g.Represents t)
    (hmem : (head, arms) ∈ t.toArms.subtrees) {s : Slot} {v : ValueId}
    (hv : v ∉ (t.toArms.replace head.id .done).mentions) (hinputs : v ∉ head.inputs)
    (hheld : g.heldIn? s = some v) : s.holder.Within arms.ids arms.blockIds := by
  rw [Arms.mentions, Arms.mem_collect, not_or] at hv
  obtain ⟨x, hx, hs, hvx⟩ | ⟨b, hb, hs, hvb⟩ := h.stand.holder (h.within_of_held hheld) hheld
  · have hx := (Arms.nodes_perm h.nodup_ids hmem).subset hx
    rw [List.mem_append, List.mem_cons] at hx
    rcases hx with (rfl | hx) | hx
    · exact absurd hvx hinputs
    · rw [hs, Holder.Within, Arms.ids, Arms.mem_collect]
      exact Or.inl ⟨x, hx, List.mem_singleton_self _⟩
    · exact absurd ⟨x, hx, hvx⟩ hv.1
  · rcases List.mem_append.1 ((Arms.blocks_perm h.nodup_ids hmem).subset hb) with hb | hb
    · rw [hs]
      exact Arms.mem_blockIds.2 ⟨b, hb, rfl⟩
    · exact absurd ⟨b, hb, hvb⟩ hv.2

/-- Erasing a node comes down to its removal, once it is out of its block and its blocks are cleared. -/
theorem Represents.erase_eq_remove (h : g.Represents t) (hmem : (head, arms) ∈ t.toArms.subtrees)
    (hinputs : head.inputs ⊆ seen) (hwf : arms.WellFormed seen)
    (hunused : ∀ v ∈ BlockTrees.definitions arms, v ∉ (t.toArms.replace head.id .done).mentions) :
    ∃ g₁ g₂ b, g.erase head.id = g₂.remove head.id ∧ g₂.Mirrored ∧
      g.node? head.id = some (head.entry arms.headIds (some b)) ∧ b ∉ arms.blockIds ∧
      Detached head.id b g g₁ ∧ Cleared b [] arms.ids arms.blockIds g₁ g₂ := by
  obtain ⟨b, block, hnode, -, -, hb⟩ := h.parent hmem
  have hhead := h.not_mem_inside hmem
  obtain ⟨g₁, h₁, hd₁⟩ := detach_ok hnode rfl
  have hm₁ := Mirrored.keptByErasing.detach h.mirrored h₁
  have hnode₁ : g₁.node? head.id = some { head.entry arms.headIds (some b) with parent := none } := by
    rw [hd₁.node?, if_pos rfl, hnode]
    rfl
  have harms₁ : arms.Stand g₁ (some head.id) := hd₁.stand (h.stand_inside hmem) hhead hb
  -- What is defined inside the node is held inside it only.
  obtain ⟨g₂, h₂, hc₂⟩ := eraseArms_ok b hm₁ harms₁ (h.top_not_mem_inside hmem) hwf fun v hv s hheld =>
    h.within_of_unmentioned hmem (hunused v hv) (fun hin => hwf.fresh v (hinputs hin) hv)
      (hd₁.heldIn? s ▸ hheld)
  refine ⟨g₁, g₂, b, ?_, Mirrored.keptByErasing.eraseArms arms hm₁ h₂, hnode, hb, hd₁, hc₂⟩
  rw [erase, h₁, ok_bind, (g₁.node_eq_ok_iff).2 hnode₁, ok_bind]
  change (g₁.blockTrees arms.headIds >>= _) = _
  rw [harms₁.blockTrees_eq hwf.blockIds, ok_bind, h₂, ok_bind]

/-- A node of the tree can be erased if nothing outside mentions what is defined by it and in it. -/
theorem Represents.erase_cleared (h : g.Represents t) (hmem : (head, arms) ∈ t.toArms.subtrees)
    (hinputs : head.inputs ⊆ seen) (hwf : arms.WellFormed seen)
    (hseen : ∀ v ∈ seen, v ∉ head.outputs)
    (hunused : ∀ v ∈ head.outputs ++ BlockTrees.definitions arms,
      v ∉ (t.toArms.replace head.id .done).mentions) :
    ∃ g' b, g.erase head.id = .ok g' ∧ g.node? head.id = some (head.entry arms.headIds (some b)) ∧
      Cleared b [head.id] (head.id :: arms.ids) arms.blockIds g g' := by
  obtain ⟨g₁, g₂, b, herase, hm₂, hnode, hb, hd₁, hc₂⟩ := h.erase_eq_remove hmem hinputs hwf fun v hv =>
    hunused v (List.mem_append_right _ hv)
  have hhead := h.not_mem_inside hmem
  obtain ⟨g₃, h₃, hc₃⟩ := remove_cleared hnode hhead hd₁ (hd₁.stand (h.stand_inside hmem) hhead hb) hc₂
    hm₂ fun v hv s hheld =>
      -- the outputs are held inside the node only
      h.within_of_unmentioned hmem (hunused v (List.mem_append_left _ hv))
        (fun hin => hseen v (hinputs hin) hv) (hd₁.heldIn? s ▸ hheld)
  exact ⟨g₃, b, herase.trans h₃, hnode, hc₃⟩

/-- What is left of the tree without a node stands in the graph without it. -/
theorem Represents.stand_of_cleared (h : g.Represents t) (hmem : (head, arms) ∈ t.toArms.subtrees)
    {b : BlockId} (hnode : g.node? head.id = some (head.entry arms.headIds (some b)))
    (hc : Cleared b [head.id] (head.id :: arms.ids) arms.blockIds g g') :
    (t.toArms.replace head.id .done).Stand g' none := by
  have hids := (Arms.ids_perm h.nodup_ids hmem).nodup_iff.1 h.nodup_ids
  have hperm := Arms.blockIds_perm h.nodup_ids hmem
  have hbids := hperm.nodup_iff.1 h.nodup_blockIds
  refine Arms.Stand.replace h.stand (fun m hm => ?_) (fun c hcm => ?_) fun _ _ => trivial
  · -- a node that is left is not one of those that were cleared
    exact hc.node?_of_not_mem fun hin => (List.nodup_append.1 hids).2.2 m hin m hm rfl
  · obtain ⟨view, hview, rfl⟩ := Arms.mem_blockIds.1 (hperm.symm.subset (List.mem_append_right _ hcm))
    obtain ⟨nodes, place, hblock, -⟩ := h.stand.block hview
    have hout : view.id ∉ arms.blockIds := fun hin => (List.nodup_append.1 hbids).2.2 _ hin _ hcm rfl
    rw [hc.block?, hblock, Option.map_some, Option.map_some, if_neg hout, Body.headIds_done,
      flatMap_eq_filter]
    -- Only the block that the node stood in has lost it.
    split
    · simp
    · rename_i hne
      have hnot := h.not_mem_nodes hnode rfl hview hne hblock
      have hfilter : nodes.filter (· ≠ head.id) = nodes :=
        List.filter_eq_self.2 fun m hm => by simpa using fun he : m = head.id => hnot (he ▸ hm)
      rw [BlockView.entry, hfilter]

/-- A node whose definitions are not mentioned outside it can be erased, and what is left represents
the tree without it. -/
theorem Represents.erase_ok (h : g.Represents t) (hmem : (head, arms) ∈ t.toArms.subtrees)
    (hinputs : head.inputs ⊆ seen) (hwf : arms.WellFormed seen)
    (hseen : ∀ v ∈ seen, v ∉ head.outputs)
    (hunused : ∀ v ∈ head.outputs ++ BlockTrees.definitions arms,
      v ∉ (t.toArms.replace head.id .done).mentions) :
    ∃ g', g.erase head.id = .ok g' ∧ g'.Represents (t.replace head.id .done) ∧
      g'.values = g.values ∧ g'.types = g.types := by
  obtain ⟨g', b, hok, hnode, hc⟩ := h.erase_cleared hmem hinputs hwf hseen hunused
  obtain ⟨hvalues, htypes⟩ := (keptByErasing_values g).erase ⟨rfl, rfl⟩ hok
  -- The numbers of the tree are those of the node with its blocks, and those that are left.
  have hids := Arms.ids_perm h.nodup_ids hmem
  have hbids := Arms.blockIds_perm h.nodup_ids hmem
  refine ⟨g', hok, ?_, hvalues, htypes⟩
  constructor
  · exact h.top
  · exact h.stand_of_cleared hmem hnode hc
  · exact (List.nodup_append.1 (hids.nodup_iff.1 h.nodup_ids)).2.1
  · exact (List.nodup_append.1 (hbids.nodup_iff.1 h.nodup_blockIds)).2.1
  · intro n node hn hlive
    rw [hc.node?, Option.map_eq_some_iff] at hn
    obtain ⟨old, hold, rfl⟩ := hn
    by_cases hin : n ∈ head.id :: arms.ids
    · rw [if_pos hin] at hlive
      exact nomatch hlive
    · rw [if_neg hin] at hlive
      exact (List.mem_append.1 (hids.subset (h.mem_ids n old hold hlive))).resolve_left hin
  · intro c block hblock hout
    rw [hc.block?, Option.map_eq_some_iff] at hblock
    obtain ⟨old, hold, rfl⟩ := hblock
    by_cases hin : c ∈ arms.blockIds
    · rw [if_pos hin]
    · have hnot : c ∉ t.toArms.blockIds := fun hmem =>
        (List.mem_append.1 (hbids.subset hmem)).elim hin hout
      rw [if_neg hin]
      split <;> exact h.returns c old hold hnot
  · exact Mirrored.keptByErasing.erase h.mirrored hok
  · intro v hv
    rw [hvalues]
    exact h.defined v ((Arms.definitions_perm h.nodup_ids hmem).symm.subset
      (List.mem_append_right _ hv))

end Erase

end Unguard.Graph
