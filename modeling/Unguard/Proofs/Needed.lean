import Unguard.Proofs.Idle
import Unguard.Proofs.Subtrees

/-!
# What a sweep leaves

A node is needed for what it does, or because an output of it is returned by a block or taken by a node
that is needed (`Graph.Needs`).  Sweeps leave exactly the needed nodes, and the first one does already
(`Graph.sweepDeadCode_needed`).

There are two sides to it.  A dead node is not needed, and nothing is needed less once it is gone
(`Arms.needs_replace_done`), so no sweep takes too much.  And a sweep meets every node after all nodes
that take its outputs (`Arms.WellFormed.pairwise_sweepOrder`).  So when it comes to a node that is not
dead, what takes an output of the node was met already and stayed, and was needed itself
(`Graph.eraseDead_prunes`).
-/

namespace Unguard

/-! ### Needed nodes of a tree -/

/-- Does more than to compute its outputs, where the operators of `impure` have effects. -/
def Kind.HasEffect (impure : OpSet) : Kind → Prop
  | .op name => impure.contains name = true
  | .conditional | .raise => True

/-- An output of the one is an input of the other. -/
def NodeView.Feeds (x y : NodeView) : Prop :=
  ∃ v ∈ x.outputs, v ∈ y.inputs

/-- The least set of nodes with all that have effects, and with those whose outputs are returned by a
block or taken by a node of the set. -/
inductive Arms.Needs (impure : OpSet) (arms : BlockTrees) : NodeView → Prop
  | effect {x : NodeView} : x ∈ arms.nodes → x.kind.HasEffect impure → Needs impure arms x
  | returned {x : NodeView} {b : BlockView} {v : ValueId} : x ∈ arms.nodes → v ∈ x.outputs →
    b ∈ arms.blocks → v ∈ b.returns → Needs impure arms x
  | used {x y : NodeView} : x ∈ arms.nodes → x.Feeds y → Needs impure arms y → Needs impure arms x

section Needs

variable {impure : OpSet} {x head : NodeView} {arms more : BlockTrees}

/-- A node is dead if it has no effect and what it defines is not mentioned. -/
theorem NodeView.isDead_iff :
    x.IsDead impure arms ↔ ¬ x.kind.HasEffect impure ∧ ∀ v ∈ x.outputs, v ∉ arms.mentions := by
  rw [NodeView.IsDead]
  cases x.kind with
  | op name => simp [Kind.HasEffect]
  | conditional => simp [Kind.HasEffect]
  | raise => simp [Kind.HasEffect]

namespace Arms.Needs

theorem mem (h : arms.Needs impure x) : x ∈ arms.nodes := by
  cases h with
  | effect hx _ => exact hx
  | returned hx _ _ _ => exact hx
  | used hx _ _ => exact hx

/-- A node that is needed stays so in a larger tree. -/
theorem mono (h : arms.Needs impure x) (hnodes : arms.nodes ⊆ more.nodes)
    (hblocks : arms.blocks ⊆ more.blocks) : more.Needs impure x := by
  induction h with
  | effect hx heffect => exact .effect (hnodes hx) heffect
  | returned hx hv hb hreturn => exact .returned (hnodes hx) hv (hblocks hb) hreturn
  | used hx hfeeds _ ih => exact .used (hnodes hx) hfeeds ih

/-- What is needed is not dead. -/
theorem not_isDead (h : arms.Needs impure x) : ¬ x.IsDead impure arms := by
  rw [NodeView.isDead_iff]
  rintro ⟨hpure, hunused⟩
  cases h with
  | effect _ heffect => exact hpure heffect
  | returned _ hv hb hreturn => exact hunused _ hv (Arms.mem_collect.2 (Or.inr ⟨_, hb, hreturn⟩))
  | used _ hfeeds huser =>
    obtain ⟨v, hv, hinput⟩ := hfeeds
    exact hunused v hv (Arms.inputs_subset huser.mem hinput)

/-- A node that is not dead is needed, if all that it feeds is. -/
theorem of_not_isDead (hx : x ∈ arms.nodes) (hlive : ¬ x.IsDead impure arms)
    (husers : ∀ y ∈ arms.nodes, x.Feeds y → arms.Needs impure y) : arms.Needs impure x := by
  by_cases heffect : x.kind.HasEffect impure
  · exact .effect hx heffect
  rw [NodeView.isDead_iff] at hlive
  obtain ⟨v, hv, hmention⟩ : ∃ v ∈ x.outputs, v ∈ arms.mentions := by
    by_contra hnone
    exact hlive ⟨heffect, fun v hv hmention => hnone ⟨v, hv, hmention⟩⟩
  rcases Arms.mem_collect.1 hmention with ⟨y, hy, hinput⟩ | ⟨b, hb, hreturn⟩
  · exact .used hx ⟨v, hv, hinput⟩ (husers y hy ⟨v, hv, hinput⟩)
  · exact .returned hx hv hb hreturn

end Arms.Needs

/-- A dead node does not make other nodes needed. -/
theorem Arms.needs_replace_done (hids : arms.ids.Nodup) (hmem : (head, .done) ∈ arms.subtrees)
    (hdead : head.IsDead impure arms) :
    (arms.replace head.id .done).Needs impure x ↔ arms.Needs impure x := by
  have hnodes := Arms.nodes_perm hids hmem
  have hblocks := Arms.blocks_perm hids hmem
  refine ⟨fun h => h.mono (fun y hy => ?_) fun b hb => ?_, fun h => ?_⟩
  · exact hnodes.symm.subset (List.mem_append_right _ hy)
  · exact hblocks.symm.subset (List.mem_append_right _ hb)
  have hleft : ∀ {y}, arms.Needs impure y → y ∈ (arms.replace head.id .done).nodes := by
    intro y hy
    rcases List.mem_append.1 (hnodes.subset hy.mem) with hhead | hy
    · rw [List.mem_singleton.1 hhead] at hy
      exact absurd hdead hy.not_isDead
    · exact hy
  induction h with
  | effect hx heffect => exact .effect (hleft (.effect hx heffect)) heffect
  | returned hx hv hb hreturn =>
    refine .returned (hleft (.returned hx hv hb hreturn)) hv ?_ hreturn
    exact (List.mem_append.1 (hblocks.subset hb)).resolve_left List.not_mem_nil
  | used hx hfeeds huser ih => exact .used (hleft (.used hx hfeeds huser)) hfeeds ih

theorem Arms.WellFormed.nodup_nodes {visible : List ValueId} (h : arms.WellFormed visible) :
    arms.nodes.Nodup := by
  apply List.Nodup.of_map NodeView.id
  rw [Arms.map_id_nodes]
  exact h.ids

/-- No node reads what it defines itself. -/
theorem Arms.WellFormed.not_feeds_self {visible : List ValueId} (h : arms.WellFormed visible)
    (hx : x ∈ arms.nodes) : ¬ x.Feeds x := by
  rintro ⟨v, hv, hinput⟩
  obtain ⟨inside, hmem⟩ := Arms.mem_nodes.1 hx
  obtain ⟨seen, hinputs, -, hseen⟩ := h.subtree hmem
  exact hseen v (hinputs hinput) hv

end Needs

/-! ### The order of a sweep -/

mutual

/-- In the order of a sweep nothing that comes earlier feeds what comes later. By induction along the
tree, for what is inside nodes and then for the nodes from last to first. -/
theorem Body.WellFormed.pairwise_innerOrder : ∀ {body : NodeTrees} {visible : List ValueId},
    body.WellFormed visible →
    (body.innerOrder ++ body.heads.reverse).Pairwise fun x y => ¬ x.Feeds y
  | .done, _, _ => .nil
  | .node head arms rest, visible, h => by
    rw [Body.innerOrder, Body.heads, List.reverse_cons, ← List.append_assoc,
      List.append_assoc arms.sweepOrder, List.append_assoc arms.sweepOrder]
    have hdefs := h.definitions
    rw [NodeTrees.definitions_node, List.nodup_append, List.nodup_append] at hdefs
    refine List.pairwise_append.2 ⟨h.inside.pairwise_sweepOrder, List.pairwise_append.2
      ⟨h.after.pairwise_innerOrder, List.pairwise_singleton _ _, ?_⟩, ?_⟩
    · -- The node takes nothing of what comes after it.
      rintro x hx y hy ⟨v, hv, hinput⟩
      obtain rfl := List.mem_singleton.1 hy
      exact h.not_mem_after (Or.inl (List.mem_append_left _ hinput))
        (Body.outputs_subset (rest.innerOrder_perm.subset hx) hv)
    · -- What is inside the node is not seen outside of it.
      rintro x hx y hy ⟨v, hv, hinput⟩
      have hinside := Arms.outputs_subset (arms.sweepOrder_perm.subset hx) hv
      rcases List.mem_append.1 hy with hy | hy
      · have hmention := Body.inputs_subset (rest.innerOrder_perm.subset hy) hinput
        rcases h.after.scope.mem_of_mentions hmention with hvis | hdef
        · rcases List.mem_append.1 hvis with hout | hvis
          · exact hdefs.2.2 v hout v (List.mem_append_left _ hinside) rfl
          · exact h.inside.fresh v hvis hinside
        · exact hdefs.2.1.2.2 v hinside v hdef rfl
      · obtain rfl := List.mem_singleton.1 hy
        exact h.inside.fresh v (h.scope.1 hinput) hinside

/-- A sweep meets a node after the nodes that take its outputs. -/
theorem Arms.WellFormed.pairwise_sweepOrder : ∀ {arms : BlockTrees} {visible : List ValueId},
    arms.WellFormed visible → arms.sweepOrder.Pairwise fun x y => ¬ x.Feeds y
  | .done, _, _ => .nil
  | .arm block body rest, visible, h => by
    rw [Arms.sweepOrder]
    have hdefs := h.definitions
    rw [BlockTrees.definitions_arm, List.nodup_append, List.nodup_append] at hdefs
    refine List.pairwise_append.2 ⟨h.inside.pairwise_innerOrder, h.after.pairwise_sweepOrder, ?_⟩
    rintro x hx y hy ⟨v, hv, hinput⟩
    have hinside := Body.outputs_subset (body.innerOrder_perm.subset hx) hv
    have hmention := Arms.inputs_subset (rest.sweepOrder_perm.subset hy) hinput
    rcases h.after.scope.mem_of_mentions hmention with hvis | hdef
    · exact h.inside.fresh v (List.mem_append_right _ hvis) hinside
    · exact hdefs.2.1.2.2 v hinside v hdef rfl

end

namespace Graph

variable {g g' g₁ : Graph} {impure : OpSet}

/-! ### Taking out nodes without blocks -/

/-- Nodes are released and in no block any more.  Nothing else is different. -/
structure Pruned (out : List NodeId) (g g' : Graph) : Prop where
  node? : ∀ n, g'.node? n = (g.node? n).map fun node =>
    if n ∈ out then { node with parent := none, released := true } else node
  block? : ∀ b, g'.block? b = (g.block? b).map fun block =>
    { block with nodes := block.nodes.filter (· ∉ out) }

theorem Pruned.refl (g : Graph) : Pruned [] g g where
  node? n := by simp
  block? b := by simp

theorem Pruned.trans {out out' : List NodeId} (h : Pruned out g g₁) (h' : Pruned out' g₁ g') :
    Pruned (out ++ out') g g' where
  node? n := by
    rw [h'.node?, h.node?, Option.map_map]
    refine congrArg (Option.map · _) (funext fun node => ?_)
    by_cases hn : n ∈ out <;> by_cases hn' : n ∈ out' <;> simp [hn, hn']
  block? b := by
    rw [h'.block?, h.block?, Option.map_map]
    refine congrArg (Option.map · _) (funext fun block => ?_)
    simp [List.filter_filter, Bool.and_comm]

/-- No block lists a node but the one that it stands in. -/
theorem Cleared.pruned {n : NodeId} {b : BlockId} (h : Cleared b [n] [n] [] g g') (hc : g.Consistent)
    (hb : g.parentOf? n = some b) : Pruned [n] g g' where
  node? := h.node?
  block? c := by
    rw [h.block?]
    cases hblock : g.block? c with
    | none => rfl
    | some block =>
      by_cases hcb : c = b
      · simp [hcb]
      · have hout : n ∉ block.nodes := by
          rw [← Consistent.nodesIn_eq hblock, ← hc.placement.mem_iff, hb]
          exact fun heq => hcb (Option.some.inj heq).symm
        have hall : block.nodes.filter (· ∉ [n]) = block.nodes := by
          refine List.filter_eq_self.2 fun m hm => ?_
          simpa using fun heq : m = n => hout (heq ▸ hm)
        rw [Option.map_some, Option.map_some, hall]
        simp [hcb]

/-! ### One sweep -/

/-- The nodes `out` were swept, none of which was needed. -/
structure Prunes (impure : OpSet) (out : List NodeView) (g g' : Graph) (t t' : BlockTree) : Prop where
  holds : Holds (fun g _ => g.Consistent) g' t'
  pruned : Pruned (out.map NodeView.id) g g'
  labels : g'.values = g.values ∧ g'.types = g.types
  nodes : t.toArms.nodes.Perm (out ++ t'.toArms.nodes)
  needs : ∀ x, t'.toArms.Needs impure x ↔ t.toArms.Needs impure x

namespace Prunes

variable {t t₁ t' : BlockTree} {out out' : List NodeView} {head : NodeView} {arms : BlockTrees}

theorem refl (h : Holds (fun g _ => g.Consistent) g t) : Prunes impure [] g g t t where
  holds := h
  pruned := Pruned.refl g
  labels := ⟨rfl, rfl⟩
  nodes := .refl _
  needs _ := Iff.rfl

/-- Nodes that are taken out in two steps are taken out together. -/
theorem trans (h : Prunes impure out g g₁ t t₁) (h' : Prunes impure out' g₁ g' t₁ t') :
    Prunes impure (out ++ out') g g' t t' where
  holds := h'.holds
  pruned := by
    rw [List.map_append]
    exact h.pruned.trans h'.pruned
  labels := ⟨h'.labels.1.trans h.labels.1, h'.labels.2.trans h.labels.2⟩
  nodes := by
    rw [List.append_assoc]
    exact h.nodes.trans (h'.nodes.append_left out)
  needs x := (h'.needs x).trans (h.needs x)

/-- A dead node is erased. -/
theorem erase_dead (h : Holds (fun g _ => g.Consistent) g t) (hmem : (head, arms) ∈ t.toArms.subtrees)
    (hdead : head.IsDead impure t.toArms) :
    ∃ g', g.erase head.id = .ok g' ∧ Prunes impure [head] g g' t (t.replace head.id .done) := by
  obtain ⟨hg, hwf, hshape, hc⟩ := h
  obtain ⟨rfl, hunused, g', hok, hg', hlabels⟩ := hg.erase_dead hwf hshape hmem hdead
  obtain ⟨g₁, b, hok₁, hb, hcleared⟩ := hg.erase_unused hwf hmem (NodeView.isDead_iff.1 hdead).2
  obtain rfl := Except.ok.inj (hok.symm.trans hok₁)
  refine ⟨g', hok, ?_⟩
  constructor
  · exact ⟨hg', hwf.replace_done hmem hunused, Arms.AllNodes.replace_done hshape _,
      hc.apply hg.mirrored (.erase head.id) hok⟩
  · exact hcleared.pruned hc hb
  · exact hlabels
  · exact Arms.nodes_perm hwf.ids hmem
  · exact fun x => Arms.needs_replace_done hwf.ids hmem hdead

end Prunes

/-- Nodes are looked at, each after those that it feeds.  If all the others are needed, then in the end
only needed ones are left. -/
theorem eraseDead_prunes {xs : List NodeView} : ∀ {g : Graph} {t : BlockTree},
    Holds (fun g _ => g.Consistent) g t → xs.Nodup → xs ⊆ t.toArms.nodes →
    (xs.Pairwise fun x y => ¬ x.Feeds y) →
    (∀ y ∈ t.toArms.nodes, y ∉ xs → t.toArms.Needs impure y) →
    ∃ out g' t', g.eraseDead impure (xs.map NodeView.id) = .ok (out.length, g') ∧
      Prunes impure out g g' t t' ∧ ∀ y ∈ t'.toArms.nodes, t'.toArms.Needs impure y := by
  -- The nodes that were looked at and stayed are needed: this holds from each node to the next.
  induction xs with
  | nil =>
    intro g t h _ _ _ hneeds
    exact ⟨[], g, t, rfl, Prunes.refl h, fun y hy => hneeds y hy List.not_mem_nil⟩
  | cons x xs ih =>
    intro g t h hnodup hsub horder hneeds
    rw [List.nodup_cons] at hnodup
    rw [List.cons_subset] at hsub
    rw [List.pairwise_cons] at horder
    obtain ⟨arms, hmem⟩ := Arms.mem_nodes.1 hsub.1
    rw [List.map_cons, eraseDead]
    by_cases hdead : x.IsDead impure t.toArms
    · rw [if_pos ((h.1.isDead_iff hmem).2 hdead)]
      obtain ⟨g₁, hok, hfirst⟩ := Prunes.erase_dead h hmem hdead
      have hgone : x ∉ (t.replace x.id .done).toArms.nodes :=
        (List.nodup_cons.1 (hfirst.nodes.nodup_iff.1 h.2.1.nodup_nodes)).1
      -- The nodes that are still to be looked at are in the tree that is left.
      have hsub₁ : xs ⊆ (t.replace x.id .done).toArms.nodes := fun y hy => by
        rcases List.mem_append.1 (hfirst.nodes.subset (hsub.2 hy)) with hx | hy'
        · exact absurd (List.mem_singleton.1 hx ▸ hy) hnodup.1
        · exact hy'
      obtain ⟨out, g', t', hrest, hprunes, hall⟩ := ih hfirst.holds hnodup.2 hsub₁ horder.2
        fun y hy hout => by
          rw [hfirst.needs]
          refine hneeds y (hfirst.nodes.symm.subset (List.mem_append_right _ hy)) fun hin => ?_
          rcases List.mem_cons.1 hin with rfl | hin
          · exact hgone hy
          · exact hout hin
      refine ⟨x :: out, g', t', ?_, hfirst.trans hprunes, hall⟩
      rw [hok, ok_bind, hrest]
      rfl
    · rw [if_neg fun hd => hdead ((h.1.isDead_iff hmem).1 hd)]
      refine ih h hnodup.2 hsub.2 horder.2 fun y hy hout => ?_
      by_cases hyx : y = x
      · subst hyx
        -- What the node feeds is neither the node itself nor still to be looked at.
        refine Arms.Needs.of_not_isDead hy hdead fun z hz hfeeds => hneeds z hz ?_
        rw [List.mem_cons, not_or]
        refine ⟨?_, fun hzs => horder.1 z hzs hfeeds⟩
        rintro rfl
        exact h.2.1.not_feeds_self hz hfeeds
      · exact hneeds y hy fun hin => (List.mem_cons.1 hin).elim hyx hout

/-- One sweep leaves the needed nodes only. -/
theorem sweep_prunes (impure : OpSet) {t : BlockTree} (h : Holds (fun g _ => g.Consistent) g t) :
    ∃ out g' t', g.sweep impure = .ok (out.length, g') ∧ Prunes impure out g g' t t' ∧
      ∀ x, x ∈ t'.toArms.nodes ↔ t.toArms.Needs impure x := by
  have hperm := t.toArms.sweepOrder_perm
  obtain ⟨out, g', t', hok, hprunes, hall⟩ := eraseDead_prunes h
    (hperm.nodup_iff.2 h.2.1.nodup_nodes) hperm.subset h.2.1.pairwise_sweepOrder
    fun y hy hout => absurd (hperm.symm.subset hy) hout
  refine ⟨out, g', t', h.1.sweep_eq.trans hok, hprunes, fun x => ?_⟩
  rw [← hprunes.needs]
  exact ⟨hall x, Arms.Needs.mem⟩

/-- Where one sweep leaves nothing to do, a second one only confirms it. -/
theorem sweeps_of_sweep {removed limit : Nat} (h : g.sweep impure = .ok (removed, g'))
    (hswept : g'.Swept impure) (hlimit : 0 < limit) :
    ∃ report, sweeps impure limit g = .ok (report, g') ∧ report.removed = removed ∧
      report.sweeps = (if removed = 0 then 1 else min 2 limit) ∧
      (report.settled = false ↔ limit = 1 ∧ removed ≠ 0) := by
  obtain ⟨limit, rfl⟩ := Nat.exists_eq_add_of_lt hlimit
  rw [Nat.zero_add, sweeps, h, ok_bind]
  dsimp only
  by_cases hzero : removed = 0
  · rw [if_pos hzero, if_pos hzero]
    exact ⟨_, rfl, hzero.symm, rfl, by simp [hzero]⟩
  rw [if_neg hzero, if_neg hzero]
  cases limit with
  | zero => exact ⟨_, rfl, rfl, rfl, by simp [hzero]⟩
  | succ limit =>
    rw [sweeps_of_swept hswept]
    exact ⟨_, rfl, rfl, by show 2 = _; omega, by simp⟩

/-! ### Needed nodes of a graph -/

/-- The least set of nodes that are reached with all conditionals, all raises and all operators of
`impure`, and with those whose outputs are returned by a block that is reached or taken by a node of the
set. -/
inductive Needs (g : Graph) (impure : OpSet) : NodeId → Prop
  | effect {n : NodeId} {node : Node} : g.ReachesNode n → g.node? n = some node →
    node.kind.HasEffect impure → Needs g impure n
  | returned {n : NodeId} {node : Node} {b : BlockId} {block : Block} {v : ValueId} :
    g.ReachesNode n → g.node? n = some node → v ∈ node.outputs → g.ReachesBlock b →
    g.block? b = some block → v ∈ block.returns → Needs g impure n
  | used {n m : NodeId} {node user : Node} {v : ValueId} : g.ReachesNode n → g.node? n = some node →
    v ∈ node.outputs → Needs g impure m → g.node? m = some user → v ∈ user.inputs → Needs g impure n

section Needs

variable {t : BlockTree} {n : NodeId} {x : NodeView}

/-- The tree of a graph needs what the graph needs. -/
theorem Represents.needs_iff (h : g.Represents t) :
    g.Needs impure n ↔ ∃ x, t.toArms.Needs impure x ∧ x.id = n := by
  constructor
  · intro hn
    -- Node by node along the reason why it is needed; what is reached is in the tree.
    induction hn with
    | effect hn hnode heffect =>
      obtain ⟨x, hx, rfl, blocks, place, rfl⟩ := h.exists_view hn hnode
      exact ⟨x, .effect hx heffect, rfl⟩
    | returned hn hnode hv hb hblock hreturn =>
      obtain ⟨x, hx, rfl, blocks, place, rfl⟩ := h.exists_view hn hnode
      obtain ⟨view, hview, rfl⟩ := Arms.mem_blockIds.1 (h.reachesBlock_iff.1 hb)
      obtain ⟨nodes, owner, hentry, -⟩ := h.stand.block hview
      obtain rfl := Option.some.inj (hentry.symm.trans hblock)
      exact ⟨x, .returned hx hv hview hreturn, rfl⟩
    | used hn hnode hv _ huser hinput ih =>
      obtain ⟨x, hx, rfl, blocks, place, rfl⟩ := h.exists_view hn hnode
      obtain ⟨y, hy, rfl⟩ := ih
      obtain ⟨blocks', place', hentry'⟩ := h.exists_entry hy.mem
      obtain rfl := Option.some.inj (hentry'.symm.trans huser)
      exact ⟨x, .used hx ⟨_, hv, hinput⟩ hy, rfl⟩
  · rintro ⟨x, hx, rfl⟩
    -- And back: what is in the tree is reached.
    induction hx with
    | effect hx heffect =>
      obtain ⟨blocks, place, hentry⟩ := h.exists_entry hx
      exact .effect (h.reachesNode_iff_nodes.2 ⟨_, hx, rfl⟩) hentry heffect
    | returned hx hv hb hreturn =>
      obtain ⟨blocks, place, hentry⟩ := h.exists_entry hx
      obtain ⟨nodes, owner, hblock, -⟩ := h.stand.block hb
      exact .returned (h.reachesNode_iff_nodes.2 ⟨_, hx, rfl⟩) hentry hv
        (h.reachesBlock_iff.2 (Arms.mem_blockIds.2 ⟨_, hb, rfl⟩)) hblock hreturn
    | used hx hfeeds hy ih =>
      obtain ⟨v, hv, hinput⟩ := hfeeds
      obtain ⟨blocks, place, hentry⟩ := h.exists_entry hx
      obtain ⟨blocks', place', hentry'⟩ := h.exists_entry hy.mem
      exact .used (h.reachesNode_iff_nodes.2 ⟨_, hx, rfl⟩) hentry hv ih hentry' hinput

end Needs

/-- **Sweeping leaves exactly the needed nodes.**  A graph that was read and then changed by any sequence
of runs of passes is swept without a fault, and the first sweep does it all.  The nodes `out` that are
taken out are those that are reached and not needed.  The others stay as they are, in the same order,
and so does everything else.  As many live nodes are gone as are reported.  There are two sweeps if
something was taken out and the limit allows it, and one otherwise.  The report is unsettled exactly if
there could be just one sweep and it took something out. -/
theorem sweepDeadCode_needed (source : String) (g₀ g : Graph) (runs : List PassRun)
    (hread : Graph.ofText source = .ok g₀) (hruns : g₀.applyRuns runs = .ok g) (impure : OpSet)
    (limit : Nat) :
    ∃ report g' out, g.sweepDeadCode impure limit = .ok (report, g') ∧
      g.sweep impure = .ok (report.removed, g') ∧
      (∀ n, g'.ReachesNode n ↔ g.Needs impure n) ∧
      (∀ n, n ∈ out ↔ g.ReachesNode n ∧ ¬ g.Needs impure n) ∧ Pruned out g g' ∧
      g'.values = g.values ∧ g'.types = g.types ∧
      g.liveCount = g'.liveCount + report.removed ∧
      report.sweeps = (if report.removed = 0 then 1 else min 2 (effectiveLimit limit)) ∧
      (report.settled = false ↔ effectiveLimit limit = 1 ∧ report.removed ≠ 0) := by
  obtain ⟨t, hg, hwf, hshape⟩ := represents_of_runs hread hruns
  have hc := consistent_of_runs hread hruns
  obtain ⟨out, g', t', hsweep, hprunes, hneeds⟩ := sweep_prunes impure ⟨hg, hwf, hshape, hc⟩
  obtain ⟨hg', -⟩ := hprunes.holds
  -- After one sweep only needed nodes are left, and none of those is dead.
  have hswept : g'.Swept impure := by
    refine hg'.swept_iff.2 fun p hp => ?_
    have hin : p.1 ∈ t'.toArms.nodes := Arms.mem_nodes.2 ⟨p.2, hp⟩
    exact ((hprunes.needs _).2 ((hneeds _).1 hin)).not_isDead
  have hlimit : 0 < effectiveLimit limit := by
    obtain ⟨n, hn⟩ := exists_effectiveLimit limit
    omega
  -- So the second sweep, if there is one, finds nothing.
  obtain ⟨report, hsweeps, hremoved, hcount, hsettled⟩ := sweeps_of_sweep hsweep hswept hlimit
  rw [← hremoved] at hsweep hcount hsettled
  have hleft : ∀ n, g'.ReachesNode n ↔ g.Needs impure n := fun n => by
    rw [hg'.reachesNode_iff_nodes, hg.needs_iff]
    simp only [hneeds]
  refine ⟨report, g', out.map NodeView.id, hsweeps, hsweep, hleft, fun n => ?_, hprunes.pruned,
    hprunes.labels.1, hprunes.labels.2, ?_, hcount, hsettled⟩
  · -- What was reached is what was taken out and what is left, and nothing is both.
    have hids : t.toArms.ids.Perm (out.map NodeView.id ++ t'.toArms.ids) := by
      rw [← Arms.map_id_nodes, ← Arms.map_id_nodes, ← List.map_append]
      exact hprunes.nodes.map _
    have hapart := (List.nodup_append.1 (hids.nodup_iff.1 hg.nodup_ids)).2.2
    rw [← hleft, hg'.reachesNode_iff, hg.reachesNode_iff, hids.mem_iff, List.mem_append]
    constructor
    · exact fun hn => ⟨Or.inl hn, fun hin => hapart n hn n hin rfl⟩
    · exact fun hn => hn.1.resolve_right hn.2
  · rw [hg.liveCount_eq, hg'.liveCount_eq, hprunes.nodes.length_eq, List.length_append, hremoved]
    omega

/-- Two computations that lead to nothing, and one for the sake of an effect. -/
def idleComputation : String :=
  "graph(%x: core.t) \x7b %a = aten.f(%x) : core.t %b = aten.f(%a) : core.t " ++
    "%c = aten.g(%x) : core.t %d = aten.h(%c) : core.t return %x \x7d"

/-- With a limit of one sweep, both idle computations go, the first of which is used by the second, and
it remains open whether there was more. -/
theorem sweepDeadCode_needed_idleComputation : ∃ g₀ g report g',
    Graph.ofText idleComputation = .ok g₀ ∧ g₀.applyRuns [.guardRemoval 0] = .ok g ∧
    g.sweepDeadCode (.ofList [⟨"aten", "h"⟩]) 1 = .ok (report, g') ∧
    report.removed = 2 ∧ report.sweeps = 1 ∧ report.settled = false ∧
    ¬ g.Needs (.ofList [⟨"aten", "h"⟩]) ⟨0⟩ ∧ g.Needs (.ofList [⟨"aten", "h"⟩]) ⟨2⟩ := by
  have hruns : (Graph.ofText idleComputation).toOption.bind (fun g =>
      (g.applyRuns [.guardRemoval 0]).toOption.bind fun g =>
        (g.sweepDeadCode (.ofList [⟨"aten", "h"⟩]) 1).toOption.map fun r =>
          ((r.1.removed, g.isLive ⟨0⟩ && !r.2.isLive ⟨0⟩), (r.2.block? top).map Block.nodes)) =
      some ((2, true), some [⟨2⟩, ⟨3⟩]) := by
    decide +kernel
  simp only [Option.bind_eq_some_iff, Option.map_eq_some_iff, toOption_eq_some_iff, Prod.mk.injEq,
    Bool.and_eq_true, Bool.not_eq_true'] at hruns
  obtain ⟨g₀, hread, g, hruns, ⟨report, g'⟩, hsweep, ⟨hremoved, hlive, hgone⟩, block, hblock, hnodes⟩ :=
    hruns
  obtain ⟨report', g'', out, hsweep', -, hleft, hout, hpruned, -, -, -, hcount, hsettled⟩ :=
    sweepDeadCode_needed idleComputation g₀ g _ hread hruns (.ofList [⟨"aten", "h"⟩]) 1
  obtain ⟨rfl, rfl⟩ := Prod.mk.inj (Except.ok.inj (hsweep.symm.trans hsweep'))
  refine ⟨g₀, g, report, g', hread, hruns, hsweep, hremoved, ?_, ?_, ?_, ?_⟩
  · rw [hcount, hremoved]
    rfl
  · rw [hsettled, hremoved]
    exact ⟨rfl, by decide⟩
  · refine ((hout ⟨0⟩).1 ?_).2
    -- A node that is not taken out keeps its entry, but this one has lost it.
    by_contra hin
    have hsame : g'.node? ⟨0⟩ = g.node? ⟨0⟩ := by
      rw [hpruned.node?]
      simp [hin]
    rw [isLive, hsame, ← isLive, hlive] at hgone
    cases hgone
  · exact (hleft ⟨2⟩).1 ⟨top, block, .top, hblock, hnodes ▸ List.mem_cons_self⟩

end Graph

end Unguard
