import Unguard.Proofs.Erasing
import Unguard.Proofs.Reading
import Unguard.Proofs.Rounds

/-!
# What guard removal leaves

Deleting a guard may make a guard of a conditional around it: an arm becomes empty, or its last node
a raise.  `Body.prune` deletes from the inside out all that become guards in this way.  Deleting one
guard of a tree does not change what is left in the end (`Arms.prune_replace`), and a tree without
guards is left as it is (`Arms.prune_eq_self`), so a settled run of rounds leaves the pruned tree,
whatever the order in which it found the guards.
-/

namespace Unguard

/-! ### Pruning -/

mutual

/-- Deletes the conditionals that are guards once what they hold is pruned. -/
def Body.prune : NodeTrees → NodeTrees
  | .done => .done
  | .node head arms rest =>
    if head.isGuard arms.prune then rest.prune else .node head arms.prune rest.prune

@[inherit_doc Body.prune]
def Arms.prune : BlockTrees → BlockTrees
  | .done => .done
  | .arm head body rest => .arm head body.prune rest.prune

end

/-- Deletes the conditionals in a block that are guards once what they hold is pruned. -/
def BlockTree.prune (t : BlockTree) : BlockTree :=
  ⟨t.head, t.body.prune⟩

/-- Whether a node becomes a guard once what it holds is pruned. -/
def NodeView.isEliminable (head : NodeView) (arms : BlockTrees) : Bool :=
  head.isGuard arms.prune

theorem Arms.members_prune (arms : BlockTrees) :
    arms.prune.members = arms.members.map BlockTree.prune := by
  cases arms with
  | done => rfl
  | arm _ _ rest => exact congrArg (List.cons _) rest.members_prune

theorem Arms.heads_prune (arms : BlockTrees) : arms.prune.heads = arms.heads := by
  cases arms with
  | done => rfl
  | arm head _ rest => exact congrArg (head :: ·) rest.heads_prune

/-! ### Guards stay guards -/

theorem NodeView.kind_of_isGuard {head : NodeView} {arms : BlockTrees}
    (h : head.isGuard arms = true) : head.kind = .conditional := by
  rw [NodeView.isGuard] at h
  split at h
  · cases h
  · rename_i hbare
    exact (NodeView.members_of_bareArms? hbare).1

theorem Body.ending_eq_empty_iff {body : NodeTrees} : body.ending = .empty ↔ body = .done := by
  cases body with
  | done => exact ⟨fun _ => rfl, fun _ => rfl⟩
  | node head arms rest =>
    rw [Body.ending, Body.heads, List.getLast?_cons]
    simp only [reduceCtorEq, iff_false]
    split <;> simp

/-- An ending in a raise is one in a node of that kind. -/
theorem Body.ending_eq_inRaise_iff {body : NodeTrees} :
    body.ending = .inRaise ↔ ∃ x, body.heads.getLast? = some x ∧ x.kind = .raise := by
  rw [Body.ending]
  cases body.heads.getLast? with
  | none => simp
  | some x => by_cases hx : x.kind = .raise <;> simp [hx]

/-- A raise at the end stays there. -/
theorem Body.getLast?_heads_prune {x : NodeView} (hx : x.kind = .raise) : ∀ body : NodeTrees,
    body.heads.getLast? = some x → body.prune.heads.getLast? = some x
  | .node head arms .done, h => by
    obtain rfl : head = x := Option.some.inj h
    have hguard : head.isGuard arms.prune ≠ true := fun hg =>
      nomatch hx.symm.trans (NodeView.kind_of_isGuard hg)
    rw [Body.prune, if_neg hguard]
    rfl
  | .node head arms (.node next inside rest), h => by
    rw [Body.heads, Body.heads, List.getLast?_cons_cons] at h
    have ih := Body.getLast?_heads_prune hx (.node next inside rest) h
    rw [Body.prune]
    split
    · exact ih
    · rw [Body.heads, List.getLast?_cons, ih]
      rfl

theorem Body.ending_prune_of_empty {body : NodeTrees} (h : body.ending = .empty) :
    body.prune.ending = .empty := by
  rw [Body.ending_eq_empty_iff.1 h]
  rfl

/-- A raise is no conditional, so it is not pruned. -/
theorem Body.ending_prune_of_inRaise {body : NodeTrees} (h : body.ending = .inRaise) :
    body.prune.ending = .inRaise := by
  obtain ⟨x, hlast, hx⟩ := Body.ending_eq_inRaise_iff.1 h
  exact Body.ending_eq_inRaise_iff.2 ⟨x, Body.getLast?_heads_prune hx body hlast, hx⟩

/-- A guard is one of which the arms are an empty one and one that ends in a raise. -/
theorem NodeView.isGuard_iff {head : NodeView} {arms : BlockTrees} :
    head.isGuard arms = true ↔ ∃ first second, head.bareArms? arms = some (first, second) ∧
      head.outputs = [] ∧
        (first.body.ending = .inRaise ∧ second.body.ending = .empty ∨
          first.body.ending = .empty ∧ second.body.ending = .inRaise) := by
  rw [NodeView.isGuard]
  cases head.bareArms? arms with
  | none => simp
  | some p =>
    obtain ⟨first, second⟩ := p
    simp only [Bool.and_eq_true, List.isEmpty_iff, Option.some.injEq, Prod.mk.injEq]
    constructor
    · rintro ⟨houtputs, h⟩
      refine ⟨first, second, ⟨rfl, rfl⟩, houtputs, ?_⟩
      split at h
      · rename_i h₁ h₂
        exact Or.inl ⟨h₁, h₂⟩
      · rename_i h₁ h₂
        exact Or.inr ⟨h₁, h₂⟩
      · cases h
    · rintro ⟨_, _, ⟨rfl, rfl⟩, houtputs, ⟨h₁, h₂⟩ | ⟨h₁, h₂⟩⟩ <;>
        exact ⟨houtputs, by rw [h₁, h₂]⟩

/-- The arms of a guard end as they did when they are pruned, so it can be eliminated. -/
theorem NodeView.isEliminable_of_isGuard {head : NodeView} {arms : BlockTrees}
    (h : head.isGuard arms = true) : head.isEliminable arms = true := by
  obtain ⟨first, second, hbare, houtputs, hends⟩ := NodeView.isGuard_iff.1 h
  have hbare' : head.bareArms? arms.prune = some (first.prune, second.prune) := by
    rw [NodeView.bareArms?_of_members rfl arms.members_prune fun _ => Iff.rfl, hbare]
    rfl
  refine NodeView.isGuard_iff.2 ⟨_, _, hbare', houtputs, ?_⟩
  rcases hends with ⟨h₁, h₂⟩ | ⟨h₁, h₂⟩
  · exact Or.inl ⟨Body.ending_prune_of_inRaise h₁, Body.ending_prune_of_empty h₂⟩
  · exact Or.inr ⟨Body.ending_prune_of_empty h₁, Body.ending_prune_of_inRaise h₂⟩

/-! ### The order of deletions -/

section Replace

variable {head : NodeView} {arms : BlockTrees}

mutual

/-- Deleting a guard does not change what is left in the end. -/
theorem Body.prune_replace (hguard : head.isGuard arms = true) : ∀ {body : NodeTrees},
    body.ids.Nodup → (head, arms) ∈ body.subtrees →
    (body.replace head.id .done).prune = body.prune
  | .node first inside rest, hnodup, h => by
    simp only [Body.ids_node, List.nodup_cons, List.nodup_append, List.mem_append, not_or] at hnodup
    obtain ⟨⟨hf₁, hf₂⟩, hinside, hrest, hdisj⟩ := hnodup
    simp only [Body.subtrees, List.mem_cons, List.mem_append, Prod.mk.injEq] at h
    rw [Body.replace]
    rcases h with ⟨rfl, rfl⟩ | h | h
    · -- The guard itself: pruning would have taken it out as well.
      have heliminable : head.isGuard arms.prune = true := NodeView.isEliminable_of_isGuard hguard
      rw [if_pos rfl, Body.done_append, Body.replace_of_not_mem hf₂, Body.prune, if_pos heliminable]
    · -- Elsewhere the numbers tell where it is, and only that part changes.
      have hmem : head.id ∈ inside.ids := Arms.mem_ids.2 ⟨_, h, rfl⟩
      have hout : head.id ∉ rest.ids := fun hr => hdisj _ hmem _ hr rfl
      rw [if_neg fun heq : first.id = head.id => hf₁ (heq ▸ hmem), Body.replace_of_not_mem hout,
        Body.prune, Body.prune, Arms.prune_replace hguard hinside h]
    · have hmem : head.id ∈ rest.ids := Body.mem_ids.2 ⟨_, h, rfl⟩
      have hout : head.id ∉ inside.ids := fun hi => hdisj _ hi _ hmem rfl
      rw [if_neg fun heq : first.id = head.id => hf₂ (heq ▸ hmem), Arms.replace_of_not_mem hout,
        Body.prune, Body.prune, Body.prune_replace hguard hrest h]

/-- The guard is in one of the blocks, and the others do not change. -/
theorem Arms.prune_replace (hguard : head.isGuard arms = true) : ∀ {more : BlockTrees},
    more.ids.Nodup → (head, arms) ∈ more.subtrees →
    (more.replace head.id .done).prune = more.prune
  | .arm block body rest, hnodup, h => by
    simp only [Arms.ids_arm, List.nodup_append] at hnodup
    obtain ⟨hbody, hrest, hdisj⟩ := hnodup
    rw [Arms.subtrees, List.mem_append] at h
    rw [Arms.replace, Arms.prune, Arms.prune]
    rcases h with h | h
    · have hmem : head.id ∈ body.ids := Body.mem_ids.2 ⟨_, h, rfl⟩
      rw [Arms.replace_of_not_mem fun hr => hdisj _ hmem _ hr rfl, Body.prune_replace hguard hbody h]
    · have hmem : head.id ∈ rest.ids := Arms.mem_ids.2 ⟨_, h, rfl⟩
      rw [Body.replace_of_not_mem fun hb => hdisj _ hb _ hmem rfl, Arms.prune_replace hguard hrest h]

end

end Replace

mutual

/-- Without guards there is nothing to prune. -/
theorem Body.prune_eq_self : ∀ {body : NodeTrees},
    (∀ p ∈ body.subtrees, p.1.isGuard p.2 = false) → body.prune = body
  | .done, _ => rfl
  | .node head arms rest, h => by
    rw [Body.subtrees, List.forall_mem_cons, List.forall_mem_append] at h
    rw [Body.prune, Arms.prune_eq_self h.2.1, Body.prune_eq_self h.2.2, h.1, if_neg Bool.false_ne_true]

theorem Arms.prune_eq_self : ∀ {arms : BlockTrees},
    (∀ p ∈ arms.subtrees, p.1.isGuard p.2 = false) → arms.prune = arms
  | .done, _ => rfl
  | .arm head body rest, h => by
    rw [Arms.subtrees, List.forall_mem_append] at h
    rw [Arms.prune, Body.prune_eq_self h.1, Arms.prune_eq_self h.2]

end

/-! ### What is left -/

mutual

/-- The nodes left are in their order and as they were, apart from what is deleted inside them. -/
theorem Body.subtrees_prune_sublist : ∀ body : NodeTrees,
    body.prune.subtrees.Sublist (body.subtrees.map fun p => (p.1, p.2.prune))
  | .done => List.Sublist.refl _
  | .node head arms rest => by
    have hrest := Body.subtrees_prune_sublist rest
    rw [Body.prune, Body.subtrees, List.map_cons, List.map_append]
    split
    · exact (hrest.trans (List.sublist_append_right _ _)).cons _
    · exact ((Arms.subtrees_prune_sublist arms).append hrest).cons_cons _

@[inherit_doc Body.subtrees_prune_sublist]
theorem Arms.subtrees_prune_sublist : ∀ arms : BlockTrees,
    arms.prune.subtrees.Sublist (arms.subtrees.map fun p => (p.1, p.2.prune))
  | .done => List.Sublist.refl _
  | .arm head body rest => by
    rw [Arms.prune, Arms.subtrees, Arms.subtrees, List.map_append]
    exact (Body.subtrees_prune_sublist body).append (Arms.subtrees_prune_sublist rest)

end

/-- What is not in a tree is not in any of its nodes. -/
theorem Body.not_mem_of_subtree {p : NodeView × BlockTrees} {body : NodeTrees} {n : NodeId}
    (hp : p ∈ body.subtrees) (hn : n ∉ body.ids) : n ≠ p.1.id ∧ n ∉ p.2.ids := by
  refine ⟨fun h => hn (Body.mem_ids.2 ⟨p, hp, h.symm⟩), fun h => hn ?_⟩
  obtain ⟨q, hq, rfl⟩ := Arms.mem_ids.1 h
  exact Body.mem_ids.2 ⟨q, Body.subtrees_trans hp hq, rfl⟩

theorem Arms.not_mem_of_subtree {p : NodeView × BlockTrees} {arms : BlockTrees} {n : NodeId}
    (hp : p ∈ arms.subtrees) (hn : n ∉ arms.ids) : n ≠ p.1.id ∧ n ∉ p.2.ids := by
  refine ⟨fun h => hn (Arms.mem_ids.2 ⟨p, hp, h.symm⟩), fun h => hn ?_⟩
  obtain ⟨q, hq, rfl⟩ := Arms.mem_ids.1 h
  exact Arms.mem_ids.2 ⟨q, Arms.subtrees_trans hp hq, rfl⟩

mutual

/-- The nodes left are those that are neither eliminable nor inside an eliminable one. -/
theorem Body.mem_ids_prune {n : NodeId} : ∀ {body : NodeTrees}, body.ids.Nodup →
    (n ∈ body.prune.ids ↔ n ∈ body.ids ∧ ∀ p ∈ body.subtrees, p.1.isEliminable p.2 = true →
      n ≠ p.1.id ∧ n ∉ p.2.ids)
  | .done, _ => by simp [Body.prune, Body.subtrees]
  | .node head arms rest, hnodup => by
    simp only [Body.ids_node, List.nodup_cons, List.nodup_append, List.mem_append, not_or] at hnodup
    obtain ⟨⟨hh₁, hh₂⟩, harms, hrest, hdisj⟩ := hnodup
    have ih := Body.mem_ids_prune (n := n) hrest
    have ih' := Arms.mem_ids_prune (n := n) harms
    have hout : n ∈ rest.ids → n ≠ head.id ∧ n ∉ arms.ids := fun hn =>
      ⟨fun h => hh₂ (h ▸ hn), fun h => hdisj _ h _ hn rfl⟩
    rw [Body.prune, Body.subtrees, List.forall_mem_cons, List.forall_mem_append, Body.ids_node,
      List.mem_cons, List.mem_append]
    -- A node is eliminable if it is a guard once its own blocks have been pruned.
    by_cases hg : head.isGuard arms.prune = true
    · rw [if_pos hg, ih]
      constructor
      · rintro ⟨hn, hall⟩
        refine ⟨Or.inr (Or.inr hn), fun _ => hout hn, fun p hp _ => ?_, hall⟩
        exact Arms.not_mem_of_subtree hp (hout hn).2
      · rintro ⟨hn, hself, -, hall⟩
        obtain ⟨h₁, h₂⟩ := hself hg
        exact ⟨(hn.resolve_left h₁).resolve_left h₂, hall⟩
    · rw [if_neg hg, Body.ids_node, List.mem_cons, List.mem_append, ih, ih']
      have hself : head.isEliminable arms = true → n ≠ head.id ∧ n ∉ arms.ids := fun h => absurd h hg
      constructor
      · rintro (rfl | ⟨hn, hall⟩ | ⟨hn, hall⟩)
        · exact ⟨Or.inl rfl, hself, fun p hp _ => Arms.not_mem_of_subtree hp hh₁,
            fun p hp _ => Body.not_mem_of_subtree hp hh₂⟩
        · exact ⟨Or.inr (Or.inl hn), hself, hall, fun p hp _ =>
            Body.not_mem_of_subtree hp fun hr => (hout hr).2 hn⟩
        · exact ⟨Or.inr (Or.inr hn), hself, fun p hp _ => Arms.not_mem_of_subtree hp (hout hn).2,
            hall⟩
      · rintro ⟨hn | hn | hn, -, hall, hall'⟩
        · exact Or.inl hn
        · exact Or.inr (Or.inl ⟨hn, hall⟩)
        · exact Or.inr (Or.inr ⟨hn, hall'⟩)

@[inherit_doc Body.mem_ids_prune]
theorem Arms.mem_ids_prune {n : NodeId} : ∀ {arms : BlockTrees}, arms.ids.Nodup →
    (n ∈ arms.prune.ids ↔ n ∈ arms.ids ∧ ∀ p ∈ arms.subtrees, p.1.isEliminable p.2 = true →
      n ≠ p.1.id ∧ n ∉ p.2.ids)
  | .done, _ => by simp [Arms.prune, Arms.subtrees]
  | .arm head body rest, hnodup => by
    simp only [Arms.ids_arm, List.nodup_append] at hnodup
    obtain ⟨hbody, hrest, hdisj⟩ := hnodup
    rw [Arms.prune, Arms.subtrees, List.forall_mem_append, Arms.ids_arm, Arms.ids_arm,
      List.mem_append, List.mem_append, Body.mem_ids_prune hbody, Arms.mem_ids_prune hrest]
    constructor
    · rintro (⟨hn, hall⟩ | ⟨hn, hall⟩)
      · exact ⟨Or.inl hn, hall, fun p hp _ =>
          Arms.not_mem_of_subtree hp fun hr => hdisj _ hn _ hr rfl⟩
      · exact ⟨Or.inr hn, fun p hp _ =>
          Body.not_mem_of_subtree hp fun hb => hdisj _ hb _ hn rfl, hall⟩
    · rintro ⟨hn | hn, hall, hall'⟩
      · exact Or.inl ⟨hn, hall⟩
      · exact Or.inr ⟨hn, hall'⟩

end

/-! ### Runs -/

/-- The sites of guard removal. -/
def guardSite (head : NodeView) (arms : BlockTrees) : Option Unit :=
  if head.isGuard arms then some () else none

theorem guardSite_eq_some_iff {head : NodeView} {arms : BlockTrees} {a : Unit} :
    guardSite head arms = some a ↔ head.isGuard arms = true := by
  rw [guardSite]
  split <;> simp_all

theorem guardSite_eq_none_iff {head : NodeView} {arms : BlockTrees} :
    guardSite head arms = none ↔ head.isGuard arms = false := by
  rw [guardSite]
  split <;> simp_all

/-- A guard defines nothing, so nothing has to be replaced when it is erased. -/
theorem NodeView.outputs_of_isGuard {head : NodeView} {arms : BlockTrees}
    (h : head.isGuard arms = true) : head.outputs = [] := by
  obtain ⟨first, second, -, houtputs, -⟩ := NodeView.isGuard_iff.1 h
  exact houtputs

/-- Erasing a guard erases it from the tree. -/
theorem Graph.Represents.erase_guard {g : Graph} {t : BlockTree} {head : NodeView} {arms : BlockTrees}
    (h : g.Represents t) (hwf : t.toArms.WellFormed []) (hmem : (head, arms) ∈ t.toArms.subtrees)
    (hguard : head.isGuard arms = true) :
    ∃ g', g.erase head.id = .ok g' ∧ g'.Represents (t.replace head.id .done) ∧
      (g'.values = g.values ∧ g'.types = g.types) ∧
      (t.replace head.id .done).toArms.WellFormed [] := by
  have houtputs := NodeView.outputs_of_isGuard hguard
  obtain ⟨seen, hinputs, harms, hseen⟩ := hwf.subtree hmem
  obtain ⟨g', hok, hg', hlabels⟩ := h.erase_ok hmem hinputs harms hseen fun v hv => by
    rw [houtputs] at hv
    exact hwf.not_mem_mentions hmem hv
  refine ⟨g', hok, hg', hlabels, hwf.replace_done hmem fun v hv => ?_⟩
  rw [houtputs] at hv
  exact nomatch hv

/-- Guard removal keeps every property of graphs and trees that the deletion of one guard keeps. -/
theorem guardRemoval_sound {X : Graph → BlockTree → Prop}
    (hX : ∀ {g t head arms g'}, t.toArms.WellFormed [] → (head, arms) ∈ t.toArms.subtrees →
      head.isGuard arms = true → g'.values = g.values ∧ g'.types = g.types → X g t →
      X g' (t.replace head.id .done)) :
    guardRemoval.Sound guardSite fun g t => g.Represents t ∧ t.toArms.WellFormed [] ∧ X g t where
  represents h := h.1
  site?_eq h p hp := by
    change (if Graph.isGuard _ p.1.id then some () else none) = _
    rw [h.1.isGuard_eq hp]
    rfl
  apply_ok := by
    rintro g t ⟨hg, hwf, hx⟩ ⟨head, arms⟩ hp a hsite
    have hguard := guardSite_eq_some_iff.1 hsite
    obtain ⟨g', hok, hg', hlabels, hwf'⟩ := hg.erase_guard hwf hp hguard
    refine ⟨g', _, hok, ⟨hg', hwf', hX hwf hp hguard hlabels hx⟩, ?_, ?_⟩
    · -- A guard is a conditional, and one is gone.
      exact Arms.conditionals_replace_lt hwf.ids hp (NodeView.kind_of_isGuard hguard) (Nat.zero_le _)
    -- Guards apart from this one stay guards, since their nodes are not touched.
    rintro s ⟨q, hq, hid, hids, hs⟩ hapart
    refine ⟨q, Arms.mem_subtrees_of_apart hwf.ids hp hq ?_ _, hid, hids, hs⟩
    rw [hid, hids]
    exact hapart

/-- **Guard removal deletes exactly the eliminable guards.**  A settled run on the graph of a text
whose conditionals return what they should leaves the pruned tree: the nodes that are neither
eliminable nor inside an eliminable one, in their blocks and in their order, with all their data and
the blocks they own as they were. -/
theorem tree_guardRemoval (source : String) (g : Graph) (limit : Nat)
    (hread : Graph.ofText source = .ok g) (harity : g.firstMismatch = .ok none) :
    ∃ t run, g.tree = .ok t ∧ guardRemoval.run limit g = .ok run ∧
      (run.settled = true → run.graph.tree = .ok t.prune ∧
        (∀ n, n ∈ t.prune.body.ids ↔ n ∈ t.body.ids ∧
          ∀ p ∈ t.body.subtrees, p.1.isEliminable p.2 = true → n ≠ p.1.id ∧ n ∉ p.2.ids) ∧
        t.prune.body.subtrees.Sublist (t.body.subtrees.map fun p => (p.1, p.2.prune)) ∧
        ∀ p ∈ t.body.subtrees, p.2.prune.heads = p.2.heads) := by
  obtain ⟨t, hg, hwf, -⟩ := Graph.ofText_represents hread
  -- What pruning would leave is the same before and after every step.
  have hsound := guardRemoval_sound (X := fun _ s => s.toArms.prune = t.toArms.prune)
    fun hs hmem hguard _ hx => (Arms.prune_replace hguard hs.ids hmem).trans hx
  obtain ⟨run, s, hrun, ⟨hrep, -, hs⟩, hsettled⟩ := hsound.run_ok limit ⟨hg, hwf, rfl⟩ harity
  refine ⟨t, run, hg.tree_eq, hrun, fun hset => ⟨?_, fun n => ?_, Body.subtrees_prune_sublist _,
    fun p _ => p.2.heads_prune⟩⟩
  · -- A settled run has left no guard, so there is nothing to prune.
    have hself : s.toArms.prune = s.toArms := Arms.prune_eq_self fun p hp =>
      guardSite_eq_none_iff.1 (hsettled hset p hp)
    rw [hrep.tree_eq, BlockTree.toArms_injective (t := t.prune) (hself.symm.trans hs)]
  · have hids : t.body.ids.Nodup := by
      have h := hwf.ids
      rw [BlockTree.toArms, Arms.ids_arm, List.nodup_append] at h
      exact h.1
    exact Body.mem_ids_prune hids

/-- A guard inside another one, and a node after them. -/
def nestedGuards : String :=
  "graph(%c: core.bool, %d: core.bool) \x7b if(%c) \x7b if(%d) \x7b\x7d else \x7b raise() \x7d \x7d " ++
    "else \x7b raise() \x7d %y = aten.not(%d) : core.bool return %y \x7d"

theorem tree_guardRemoval_nestedGuards :
    ∃ g t run, Graph.ofText nestedGuards = .ok g ∧ g.firstMismatch = .ok none ∧ g.tree = .ok t ∧
      guardRemoval.run 0 g = .ok run ∧ run.settled = true ∧ run.graph.tree = .ok t.prune ∧
      t.prune.body.ids = [⟨4⟩] := by
  have harity : (Graph.ofText nestedGuards).toOption.map (fun g => g.firstMismatch.toOption) =
      some (some none) := by decide +kernel
  have hsettled : (Graph.ofText nestedGuards).toOption.map (fun g =>
      (guardRemoval.run 0 g).toOption.map fun run => run.settled) = some (some true) := by
    decide +kernel
  have hids : (Graph.ofText nestedGuards).toOption.map (fun g =>
      g.tree.toOption.map fun t => t.prune.body.ids) = some (some [⟨4⟩]) := by decide +kernel
  simp only [Option.map_eq_some_iff, toOption_eq_some_iff] at harity
  obtain ⟨g, hread, harity⟩ := harity
  rw [hread] at hsettled hids
  obtain ⟨t, run, htree, hrun, hleft⟩ := tree_guardRemoval nestedGuards g 0 hread harity
  simp only [Except.toOption, Option.map_some, hrun, htree, Option.some.injEq] at hsettled hids
  exact ⟨g, t, run, hread, harity, htree, hrun, hsettled, (hleft hsettled).1, hids⟩

end Unguard
