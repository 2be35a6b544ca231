import Unguard.Proofs.Reachability

/-!
# Erasing takes out one subtree

A node holds blocks, which hold nodes, and so on: its subtree.  What is in it is said on the graph
itself (`Graph.EnclosesNode`, `Graph.EnclosesBlock`), and is what the tree has below the node.

Erasing faults exactly if an output of the node is used, and otherwise takes out just the subtree
(`Graph.erase_subtree`).  Which entries and slots are cleared is known from `Graph.Cleared`.  That the
chains keep their order needs an argument of its own: each step of erasing only drops slots from a
chain, so a chain afterwards is a sublist of the chain before, and a sublist of a list without
duplicates is known by its members.
-/

namespace Unguard

instance (ns : List NodeId) (bs : List BlockId) : DecidablePred (Holder.Within ns bs)
  | .node n => inferInstanceAs (Decidable (n ∈ ns))
  | .block b => inferInstanceAs (Decidable (b ∈ bs))

/-- A sublist of a list without duplicates is the part of it that has the members of the sublist. -/
theorem eq_filter_of_sublist {α : Type} {l l' : List α} {p : α → Bool} (hsub : l'.Sublist l)
    (hnodup : l.Nodup) (hmem : ∀ x, x ∈ l' ↔ x ∈ l ∧ p x = true) : l' = l.filter p := by
  have hself : l'.filter p = l' := List.filter_eq_self.2 fun x hx => ((hmem x).1 hx).2
  have hfilter : l'.Sublist (l.filter p) := hself ▸ hsub.filter p
  apply hfilter.eq_of_length
  refine ((List.perm_ext_iff_of_nodup (hsub.nodup hnodup) (hnodup.filter p)).2 fun x => ?_).length_eq
  rw [hmem, List.mem_filter]

namespace Graph

variable {g g' : Graph}

/-! ### What a node encloses -/

/-- Blocks inside a node: its own, and those of the nodes that stand in such a block. -/
inductive EnclosesBlock (g : Graph) (n : NodeId) : BlockId → Prop
  | own {b : BlockId} {node : Node} : g.node? n = some node → b ∈ node.blocks → EnclosesBlock g n b
  | inside {b c : BlockId} {m : NodeId} {block : Block} {node : Node} : EnclosesBlock g n b →
    g.block? b = some block → m ∈ block.nodes → g.node? m = some node → c ∈ node.blocks →
    EnclosesBlock g n c

/-- A node itself and the nodes in the blocks inside it. -/
def EnclosesNode (g : Graph) (n m : NodeId) : Prop :=
  m = n ∨ g.StandsIn (g.EnclosesBlock n) m

namespace Unfolds

variable {t : BlockTree} {head : NodeView} {arms : BlockTrees}

/-- What the tree has below a node is inside it. -/
theorem encloses_of_mem (h : g.Unfolds t) (hmem : (head, arms) ∈ t.toArms.subtrees) :
    (∀ m ∈ arms.ids, g.StandsIn (g.EnclosesBlock head.id) m) ∧
      ∀ b ∈ arms.blockIds, g.EnclosesBlock head.id b := by
  obtain ⟨node, hnode, -, hblocks⟩ := h.shown.subtree hmem
  refine below_of_shownArms (P := g.EnclosesBlock head.id) (fun hm hnode hc => ?_)
    (h.shown.inside hmem) fun c hc => .own hnode (hblocks ▸ hc)
  obtain ⟨b, block, hb, hblock, hin⟩ := hm
  exact hb.inside hblock hin hnode hc

theorem enclosesBlock_iff (h : g.Unfolds t) (hids : arms.ids.Nodup)
    (hmem : (head, arms) ∈ t.toArms.subtrees) {b : BlockId} :
    b ∈ arms.blockIds ↔ g.EnclosesBlock head.id b := by
  refine ⟨(h.encloses_of_mem hmem).2 b, fun hb => ?_⟩
  have hshown := h.shown.inside hmem
  induction hb with
  | own hnode hb =>
    obtain ⟨node, hentry, -, hblocks⟩ := h.shown.subtree hmem
    obtain rfl := Option.some.inj (hentry.symm.trans hnode)
    exact Arms.headIds_subset_blockIds (hblocks ▸ hb)
  | inside _ hblock hm hnode hc ih =>
    exact mem_blockIds_of_node? hshown hids (mem_ids_of_block? hshown ih hblock hm) hnode hc

/-- The nodes that the tree has below a node are those that stand in the blocks inside it. -/
theorem standsInside_iff (h : g.Unfolds t) (hids : arms.ids.Nodup)
    (hmem : (head, arms) ∈ t.toArms.subtrees) {m : NodeId} :
    m ∈ arms.ids ↔ g.StandsIn (g.EnclosesBlock head.id) m := by
  refine ⟨(h.encloses_of_mem hmem).1 m, ?_⟩
  rintro ⟨b, block, hb, hblock, hm⟩
  exact mem_ids_of_block? (h.shown.inside hmem) ((h.enclosesBlock_iff hids hmem).2 hb) hblock hm

end Unfolds

namespace Represents

variable {t : BlockTree} {head : NodeView} {arms : BlockTrees}

theorem enclosesBlock_iff (h : g.Represents t) (hids : arms.ids.Nodup)
    (hmem : (head, arms) ∈ t.toArms.subtrees) {b : BlockId} :
    b ∈ arms.blockIds ↔ g.EnclosesBlock head.id b :=
  h.unfolds.enclosesBlock_iff hids hmem

theorem enclosesNode_iff (h : g.Represents t) (hids : arms.ids.Nodup)
    (hmem : (head, arms) ∈ t.toArms.subtrees) {m : NodeId} :
    m ∈ head.id :: arms.ids ↔ g.EnclosesNode head.id m := by
  rw [List.mem_cons, h.unfolds.standsInside_iff hids hmem]
  rfl

end Represents

/-! ### Chains while erasing -/

/-- Erasing drops slots from the chains, and does nothing else to them. -/
theorem keptByErasing_sublist (g : Graph) :
    KeptByErasing fun g' => ∀ v, (g'.usesOf v).Sublist (g.usesOf v) where
  detach h hok := by
    obtain ⟨node, -, hok⟩ := bind_eq_ok_iff.1 hok
    split at hok <;> exact Except.ok.inj hok ▸ h
  clearReturns h hok := by
    intro v
    obtain ⟨block, hblock, hok⟩ := bind_eq_ok_iff.1 hok
    rw [← Except.ok.inj hok, usesOf_assignReturns ((block_eq_ok_iff _).1 hblock)]
    show (_ ++ []).Sublist _
    rw [List.append_nil]
    exact List.filter_sublist.trans (h v)
  release h hok := release_eq_ok hok ▸ h
  remove h hok := by
    intro v
    obtain ⟨node, -, hok⟩ := bind_eq_ok_iff.1 hok
    split at hok
    · cases hok
    obtain rfl := Except.ok.inj hok
    show (UseTable.get (UseTable.leave _ _) v).Sublist _
    rw [UseTable.get_leave]
    exact List.filter_sublist.trans (h v)

/-- Where entries are cleared by steps that only drop slots, a chain keeps the slots of the other
holders, in their order. -/
theorem Cleared.usesOf {b : BlockId} {out ns : List NodeId} {bs : List BlockId}
    (h : Cleared b out ns bs g g') (hm : g.Mirrored) (hm' : g'.Mirrored) {v : ValueId}
    (hsub : (g'.usesOf v).Sublist (g.usesOf v)) :
    g'.usesOf v = (g.usesOf v).filter fun s => ¬ s.holder.Within ns bs := by
  refine eq_filter_of_sublist hsub (hm.nodup v) fun s => ?_
  rw [hm'.mem_iff, hm.mem_iff, decide_eq_true_eq]
  constructor
  · exact h.heldIn?
  · rintro ⟨hheld, hout⟩
    rw [h.heldIn?_of_not_within hout, hheld]

/-! ### Erasing a node -/

theorem remove_used {n : NodeId} {node : Node} (hn : g.node? n = some node) (hp : node.parent = none)
    {v : ValueId} (hv : v ∈ node.outputs) (hused : g.isUsed v = true) :
    ∃ fault, g.remove n = .error fault := by
  obtain ⟨w, hw⟩ : ∃ w, node.outputs.find? g.isUsed = some w :=
    Option.isSome_iff_exists.1 (List.find?_isSome.2 ⟨v, hv, hused⟩)
  have hfault : g.removalFault? n node = some (.outputUsed w n (g.usesOf w).length) := by
    rw [removalFault?, hp, hw]
  refine ⟨.outputUsed w n (g.usesOf w).length, ?_⟩
  rw [remove, (g.node_eq_ok_iff).2 hn, ok_bind, hfault]

namespace Represents

variable {t : BlockTree} {head : NodeView} {arms : BlockTrees}

/-- A node whose outputs are not used can be erased. -/
theorem erase_unused (h : g.Represents t) (hwf : t.toArms.WellFormed [])
    (hmem : (head, arms) ∈ t.toArms.subtrees) (hunused : ∀ v ∈ head.outputs, v ∉ t.toArms.mentions) :
    ∃ g' b, g.erase head.id = .ok g' ∧ g.parentOf? head.id = some b ∧
      Cleared b [head.id] (head.id :: arms.ids) arms.blockIds g g' := by
  obtain ⟨seen, hinputs, harms, hseen⟩ := hwf.subtree hmem
  have hperm := Arms.mentions_perm hwf.ids hmem
  obtain ⟨g', b, hok, hnode, hc⟩ := h.erase_cleared hmem hinputs harms hseen fun v hv => by
    rcases List.mem_append.1 hv with hv | hv
    · exact fun hin => hunused v hv (hperm.symm.subset (List.mem_append_right _ hin))
    · exact hwf.not_mem_mentions hmem hv
  exact ⟨g', b, hok, Consistent.parentOf?_eq hnode, hc⟩

/-- A node with an output that is used cannot be erased: the slot that holds the output is not inside
the node, and still holds it when the node is to be removed. -/
theorem erase_used (h : g.Represents t) (hwf : t.toArms.WellFormed [])
    (hmem : (head, arms) ∈ t.toArms.subtrees) {v : ValueId} (hv : v ∈ head.outputs)
    (hused : v ∈ t.toArms.mentions) : ∃ fault, g.erase head.id = .error fault := by
  obtain ⟨seen, hinputs, harms, hseen⟩ := hwf.subtree hmem
  obtain ⟨g₁, g₂, b, herase, hm₂, hnode, -, hd₁, hc₂⟩ := h.erase_eq_remove hmem hinputs harms
    fun v hv => hwf.not_mem_mentions hmem hv
  obtain ⟨s, hs⟩ := h.exists_mem_usesOf_iff.2 hused
  have hheld := (h.mirrored.mem_iff v s).1 hs
  -- A slot that uses the node is outside of it: nothing inside sees what it defines.
  have hout : ¬ s.holder.Within arms.ids arms.blockIds := by
    intro hin
    have hdefs := hwf.definitions
    rw [BlockTrees.definitions_eq_collect] at hdefs
    have hapart := hwf.nodup_collect hmem hdefs
    rw [List.nodup_append, List.nodup_append] at hapart
    rcases harms.scope.mem_of_mentions ((h.stand_inside hmem).mem_mentions hin hheld) with hvis | hdef
    · exact hseen v hvis hv
    · rw [BlockTrees.definitions_eq_collect] at hdef
      exact hapart.1.2.2 v hv v hdef rfl
  -- So it is still there when the inside has been cleared, and the node cannot be removed.
  have hstill : g₂.isUsed v = true := by
    rw [← hd₁.heldIn?, ← hc₂.heldIn?_of_not_within hout, ← hm₂.mem_iff] at hheld
    rw [isUsed, Bool.not_eq_true', List.isEmpty_eq_false_iff]
    exact List.ne_nil_of_mem hheld
  rw [herase]
  exact remove_used (node?_of_cleared hnode (h.not_mem_inside hmem) hd₁ hc₂) rfl hv hstill

end Represents

/-- **Erasing removes exactly the subtree.**  In a graph that was read and then changed by any sequence
of runs of passes, erasing a node that is reached faults exactly if an output of the node has a use.
Otherwise the nodes `ns` and blocks `bs` inside the node, and no others, are released, the node leaves
its block, where the others keep their order, and the chain of every value loses the slots of `ns` and
`bs`, where the others keep their order too.  Everything else stays as it is. -/
theorem erase_subtree (source : String) (g₀ g : Graph) (runs : List PassRun) (n : NodeId)
    (hread : Graph.ofText source = .ok g₀) (hruns : g₀.applyRuns runs = .ok g)
    (hn : g.ReachesNode n) :
    ((∃ fault, g.erase n = .error fault) ↔ ∃ v ∈ g.outputsOf n, g.usesOf v ≠ []) ∧
    ∀ g', g.erase n = .ok g' → ∃ b ns bs, g.parentOf? n = some b ∧
      (∀ m, m ∈ ns ↔ g.EnclosesNode n m) ∧ (∀ c, c ∈ bs ↔ g.EnclosesBlock n c) ∧
      Cleared b [n] ns bs g g' ∧ g'.values = g.values ∧ g'.types = g.types ∧
      ∀ v, g'.usesOf v = (g.usesOf v).filter fun s => ¬ s.holder.Within ns bs := by
  obtain ⟨t, hg, hwf, -⟩ := represents_of_runs hread hruns
  obtain ⟨⟨head, arms⟩, hmem, rfl⟩ := Arms.mem_ids.1 (hg.reachesNode_iff.1 hn)
  -- Uses are mentions in the tree.
  have hused : ∀ v, g.usesOf v ≠ [] ↔ v ∈ t.toArms.mentions := fun v => by
    rw [← hg.exists_mem_usesOf_iff, Ne, List.eq_nil_iff_forall_not_mem, not_forall_not]
  have hids := (hwf.subtree hmem).choose_spec.2.1.ids
  rw [hg.outputsOf_eq hmem]
  simp only [hused]
  -- If a result is used the node cannot be erased; otherwise it can.
  by_cases hout : ∃ v ∈ head.outputs, v ∈ t.toArms.mentions
  · obtain ⟨v, hv, hmention⟩ := hout
    have herror := hg.erase_used hwf hmem hv hmention
    refine ⟨⟨fun _ => ⟨v, hv, hmention⟩, fun _ => herror⟩, fun g' hok => ?_⟩
    obtain ⟨fault, hfault⟩ := herror
    cases hfault.symm.trans hok
  · obtain ⟨g₁, b, hok, hplace, hc⟩ := hg.erase_unused hwf hmem fun v hv hin => hout ⟨v, hv, hin⟩
    refine ⟨⟨fun herror => ?_, fun h => absurd h hout⟩, fun g' hok' => ?_⟩
    · obtain ⟨fault, hfault⟩ := herror
      cases hfault.symm.trans hok
    obtain rfl := Except.ok.inj (hok.symm.trans hok')
    obtain ⟨hvalues, htypes⟩ := (keptByErasing_values g).erase ⟨rfl, rfl⟩ hok
    have hm := Mirrored.keptByErasing.erase hg.mirrored hok
    have hsub := (keptByErasing_sublist g).erase (fun v => List.Sublist.refl _) hok
    exact ⟨b, head.id :: arms.ids, arms.blockIds, hplace, fun m => hg.enclosesNode_iff hids hmem,
      fun c => hg.enclosesBlock_iff hids hmem, hc, hvalues, htypes, fun v =>
      hc.usesOf hg.mirrored hm (hsub v)⟩

/-- A conditional whose output is not used. -/
def droppedChoice : String :=
  "graph(%c: core.bool, %x: core.t) \x7b %y = if(%c) : core.t \x7b %z = aten.f(%x) : core.t " ++
    "return %z \x7d else \x7b return %x \x7d return %x \x7d"

/-- The computation inside cannot be erased on its own, since its block returns it.  With the conditional
around it it can, and of the three uses of `%x` the last is left. -/
theorem erase_subtree_droppedChoice : ∃ g₀ g g', Graph.ofText droppedChoice = .ok g₀ ∧
    g₀.applyRuns [.guardRemoval 0] = .ok g ∧ g.ReachesNode ⟨0⟩ ∧ g.ReachesNode ⟨1⟩ ∧
    (∃ fault, g.erase ⟨0⟩ = .error fault) ∧ g.erase ⟨1⟩ = .ok g' ∧
    g.usesOf ⟨1⟩ = [⟨.node ⟨0⟩, 0⟩, ⟨.block ⟨2⟩, 0⟩, ⟨.block top, 0⟩] ∧
    g'.usesOf ⟨1⟩ = [⟨.block top, 0⟩] ∧ ∃ b ns bs, g.parentOf? ⟨1⟩ = some b ∧
      (∀ m, m ∈ ns ↔ g.EnclosesNode ⟨1⟩ m) ∧ (∀ c, c ∈ bs ↔ g.EnclosesBlock ⟨1⟩ c) ∧
      Cleared b [⟨1⟩] ns bs g g' := by
  have hruns : (Graph.ofText droppedChoice).toOption.bind (fun g =>
      (g.applyRuns [.guardRemoval 0]).toOption.bind fun g => (g.erase ⟨1⟩).toOption.map fun g' =>
        ((g.nodes.size, g.isLive ⟨0⟩ && g.isLive ⟨1⟩), g.outputsOf ⟨0⟩,
          [g.usesOf ⟨2⟩, g.usesOf ⟨1⟩, g'.usesOf ⟨1⟩])) =
      some ((2, true), [⟨2⟩], [[⟨.block ⟨1⟩, 0⟩],
        [⟨.node ⟨0⟩, 0⟩, ⟨.block ⟨2⟩, 0⟩, ⟨.block top, 0⟩], [⟨.block top, 0⟩]]) := by
    decide +kernel
  simp only [Option.bind_eq_some_iff, Option.map_eq_some_iff, toOption_eq_some_iff, Prod.mk.injEq,
    List.cons.injEq, Bool.and_eq_true] at hruns
  obtain ⟨g₀, hread, g, hruns, g', hok, ⟨hsize, hlive₀, hlive₁⟩, houtputs, huses, hbefore, hafter, -⟩ :=
    hruns
  obtain ⟨t, hg, -⟩ := represents_of_runs hread hruns
  -- Live nodes are those that can be reached.
  have hreach : ∀ n, n.index < 2 ∧ g.isLive n = true → g.ReachesNode n := fun n hn => by
    rw [← hsize, hg.live_iff_mem_ids, ← hg.reachesNode_iff] at hn
    exact hn
  have h₀ := hreach ⟨0⟩ ⟨by decide, hlive₀⟩
  have h₁ := hreach ⟨1⟩ ⟨by decide, hlive₁⟩
  have hfault := (erase_subtree droppedChoice g₀ g _ ⟨0⟩ hread hruns h₀).1.2
    ⟨⟨2⟩, by simp [houtputs], by simp [huses]⟩
  obtain ⟨b, ns, bs, hb, hns, hbs, hc, -⟩ :=
    (erase_subtree droppedChoice g₀ g _ ⟨1⟩ hread hruns h₁).2 g' hok
  exact ⟨g₀, g, g', hread, hruns, h₀, h₁, hfault, hok, hbefore, hafter, b, ns, bs, hb, hns, hbs, hc⟩

end Graph

end Unguard
