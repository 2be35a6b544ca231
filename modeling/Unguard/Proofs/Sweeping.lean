import Unguard.Lower.DeadCode
import Unguard.Proofs.Conditionals
import Unguard.Proofs.Erasing

/-!
# Sweeping dead code

Whether a node is dead is read off the tree (`Graph.Represents.isDead_iff`).  The recursion of a sweep
comes down to a list: it erases the dead ones among all nodes, in a certain order
(`Graph.sweepArms_eq`).  A dead node can always be erased, and owns no blocks, so that a sweep still
meets every other node it has to.  So sweeps never fault, and keep every property of graphs and trees
that the deletion of one dead node keeps (`Graph.KeptBySweeping.sweepDeadCode_ok`).
-/

namespace Unguard

/-- Computes by an operator without effects, and none of its outputs is used in `arms`. -/
def NodeView.IsDead (impure : OpSet) (head : NodeView) (arms : BlockTrees) : Prop :=
  ∃ name, head.kind = .op name ∧ impure.contains name = false ∧
    ∀ v ∈ head.outputs, v ∉ arms.mentions

/-- What a dead node defines is not mentioned in what is left without it. -/
theorem NodeView.IsDead.not_mem_replace {impure : OpSet} {t : BlockTree} {head : NodeView}
    {arms : BlockTrees} (hdead : head.IsDead impure t.toArms) (hwf : t.toArms.WellFormed [])
    (hmem : (head, arms) ∈ t.toArms.subtrees) :
    ∀ v ∈ head.outputs, v ∉ (t.replace head.id .done).toArms.mentions := by
  obtain ⟨name, -, -, hunused⟩ := hdead
  intro v hv hm
  exact hunused v hv ((Arms.mentions_perm hwf.ids hmem).symm.subset (List.mem_append_right _ hm))

/-! ### The order of a sweep -/

mutual

/-- The nodes inside those of a sequence, in the order in which a sweep meets them. -/
def Body.innerOrder : NodeTrees → List NodeView
  | .done => []
  | .node _ arms rest => arms.sweepOrder ++ rest.innerOrder

/-- The nodes in the order in which a sweep meets them. -/
def Arms.sweepOrder : BlockTrees → List NodeView
  | .done => []
  | .arm _ body rest => body.innerOrder ++ body.heads.reverse ++ rest.sweepOrder

end

mutual

theorem Body.innerOrder_perm : ∀ body : NodeTrees, (body.innerOrder ++ body.heads.reverse).Perm body.nodes
  | .done => .refl _
  | .node head arms rest => by
    rw [Body.innerOrder, Body.heads, Body.nodes, List.reverse_cons, ← List.append_assoc,
      List.append_assoc arms.sweepOrder]
    refine List.perm_append_comm.trans (.cons head ?_)
    exact arms.sweepOrder_perm.append rest.innerOrder_perm

/-- A sweep meets every node once. -/
theorem Arms.sweepOrder_perm : ∀ arms : BlockTrees, arms.sweepOrder.Perm arms.nodes
  | .done => .refl _
  | .arm _ body rest => body.innerOrder_perm.append rest.sweepOrder_perm

end

theorem Arms.map_id_sweepOrder_perm (arms : BlockTrees) :
    (arms.sweepOrder.map NodeView.id).Perm arms.ids := by
  rw [← Arms.map_id_nodes]
  exact arms.sweepOrder_perm.map NodeView.id

namespace Graph

variable {impure : OpSet}

/-- Sweeping two lists is sweeping one and then the other. -/
theorem eraseDead_append (ms ns : List NodeId) (g : Graph) : g.eraseDead impure (ms ++ ns) =
    g.eraseDead impure ms >>= fun first => (first.2.eraseDead impure ns).map fun second =>
      (first.1 + second.1, second.2) := by
  induction ms generalizing g with
  | nil =>
    show g.eraseDead impure ns = (g.eraseDead impure ns).map fun second => (0 + second.1, second.2)
    simp only [Nat.zero_add]
    cases g.eraseDead impure ns <;> rfl
  | cons n ms ih =>
    rw [List.cons_append, eraseDead, eraseDead]
    split
    · -- A dead node counts once, in the first part.
      cases g.erase n with
      | error fault => rfl
      | ok g₁ =>
        rw [ok_bind, ok_bind, ih]
        cases g₁.eraseDead impure ms with
        | error fault => rfl
        | ok first =>
          obtain ⟨count, g₂⟩ := first
          show ((g₂.eraseDead impure ns).map fun second => (count + second.1, second.2)) >>= _ =
            (g₂.eraseDead impure ns).map fun second => (count + 1 + second.1, second.2)
          simp only [Nat.add_right_comm count 1]
          cases g₂.eraseDead impure ns <;> rfl
    · exact ih g

mutual

/-- What is inside nodes is swept in the order given. -/
theorem sweepInside_eq : ∀ (body : NodeTrees) (g : Graph),
    g.sweepInside impure body = g.eraseDead impure (body.innerOrder.map NodeView.id)
  | .done, g => rfl
  | .node head arms rest, g => by
    rw [sweepInside, Body.innerOrder, List.map_append, eraseDead_append, sweepArms_eq arms g]
    apply bind_congr
    rintro ⟨first, g₁⟩
    dsimp only
    rw [sweepInside_eq rest g₁]
    cases g₁.eraseDead impure (rest.innerOrder.map NodeView.id) <;> rfl

/-- A sweep erases the dead ones among all nodes, in its order. -/
theorem sweepArms_eq : ∀ (arms : BlockTrees) (g : Graph),
    g.sweepArms impure arms = g.eraseDead impure (arms.sweepOrder.map NodeView.id)
  | .done, g => rfl
  | .arm head body rest, g => by
    rw [sweepArms, Arms.sweepOrder, List.map_append, List.map_append, List.map_reverse,
      eraseDead_append, eraseDead_append, sweepInside_eq body g, bind_assoc]
    apply bind_congr
    rintro ⟨inside, g₁⟩
    dsimp only
    cases g₁.eraseDead impure (body.heads.map NodeView.id).reverse with
    | error fault => rfl
    | ok own =>
      obtain ⟨own, g₂⟩ := own
      show (g₂.sweepArms impure rest >>= _) = (g₂.eraseDead impure _).map _
      rw [sweepArms_eq rest g₂]
      cases g₂.eraseDead impure (rest.sweepOrder.map NodeView.id) <;> rfl

end

theorem Represents.sweep_eq {g : Graph} {t : BlockTree} (h : g.Represents t) :
    g.sweep impure = g.eraseDead impure (t.toArms.sweepOrder.map NodeView.id) := by
  rw [sweep, h.tree_eq, ok_bind]
  exact sweepArms_eq t.toArms g

variable {g : Graph} {t : BlockTree} {head : NodeView} {arms : BlockTrees}

/-! ### Erasing dead nodes -/

/-- Dead in the graph is dead in its tree. -/
theorem Represents.isDead_iff (h : g.Represents t) (hmem : (head, arms) ∈ t.toArms.subtrees) :
    g.isDead impure head.id = true ↔ head.IsDead impure t.toArms := by
  obtain ⟨place, hnode, -⟩ := h.stand.subtree hmem
  simp only [isDead, hnode, NodeView.entry, NodeView.IsDead]
  cases head.kind with
  | op name =>
    simp only [Bool.and_eq_true, Bool.not_eq_true', List.all_eq_true, Kind.op.injEq, exists_eq_left',
      ← Bool.not_eq_true, h.isUsed_iff]
  | conditional => simp
  | raise => simp

/-- Erasing a dead node erases it from the tree. -/
theorem Represents.erase_dead (h : g.Represents t) (hwf : t.toArms.WellFormed [])
    (hshape : t.toArms.Shaped) (hmem : (head, arms) ∈ t.toArms.subtrees)
    (hdead : head.IsDead impure t.toArms) :
    arms = .done ∧ (∀ v ∈ head.outputs, v ∉ (t.replace head.id .done).toArms.mentions) ∧
      ∃ g', g.erase head.id = .ok g' ∧ g'.Represents (t.replace head.id .done) ∧
        g'.values = g.values ∧ g'.types = g.types := by
  have hleft := hdead.not_mem_replace hwf hmem
  obtain ⟨name, hkind, -, -⟩ := hdead
  obtain rfl : arms = .done := by
    have hown : (if head.kind = .conditional then arms.heads.length = 2 else arms.heads = []) :=
      hshape _ hmem
    rw [hkind, if_neg nofun] at hown
    cases arms with
    | done => rfl
    | arm => exact nomatch hown
  obtain ⟨seen, hinputs, harms, hseen⟩ := hwf.subtree hmem
  obtain ⟨g', hok, hg', hlabels⟩ := h.erase_ok hmem hinputs harms hseen fun v hv =>
    hleft v (List.append_nil head.outputs ▸ hv)
  exact ⟨rfl, hleft, g', hok, hg', hlabels⟩

/-- What has to be shown of a property in order that sweeps keep it. -/
structure KeptBySweeping (impure : OpSet) (X : Graph → BlockTree → Prop) : Prop where
  erase : ∀ {g g' t head arms}, t.toArms.WellFormed [] → (head, arms) ∈ t.toArms.subtrees →
    head.IsDead impure t.toArms → g'.values = g.values ∧ g'.types = g.types → X g t →
    X g' (t.replace head.id .done)

/-- A graph that represents a well-formed tree, with a property. -/
def Holds (X : Graph → BlockTree → Prop) (g : Graph) (t : BlockTree) : Prop :=
  g.Represents t ∧ t.toArms.WellFormed [] ∧ t.toArms.Shaped ∧ X g t

namespace KeptBySweeping

variable {X : Graph → BlockTree → Prop}

/-- A sweep goes through: when the turn of a node comes it is still in the tree, since nodes that were
erased before it had no blocks. -/
theorem eraseDead_ok (h : KeptBySweeping impure X) : ∀ {ns : List NodeId} {g : Graph} {t : BlockTree},
    Holds X g t → ns.Nodup → ns ⊆ t.toArms.ids →
    ∃ count g' t', g.eraseDead impure ns = .ok (count, g') ∧ Holds X g' t'
  | [], g, t, hX, _, _ => ⟨0, g, t, rfl, hX⟩
  | n :: ns, g, t, hX, hnodup, hsub => by
    rw [List.nodup_cons] at hnodup
    obtain ⟨⟨head, arms⟩, hmem, rfl⟩ := Arms.mem_ids.1 (hsub List.mem_cons_self)
    obtain ⟨hg, hwf, hshape, hx⟩ := hX
    rw [eraseDead]
    split
    · rename_i hd
      have hdead := (hg.isDead_iff hmem).1 hd
      obtain ⟨rfl, hunused, g₁, hok, hg₁, hlabels⟩ := hg.erase_dead hwf hshape hmem hdead
      have hids : t.toArms.ids.Perm (head.id :: (t.toArms.replace head.id .done).ids) :=
        Arms.ids_perm hwf.ids hmem
      -- The nodes that are still to be looked at are in the tree that is left.
      have hleft : ns ⊆ (t.replace head.id .done).toArms.ids := by
        intro m hm
        have hne : m ≠ head.id := fun heq => hnodup.1 (heq ▸ hm)
        exact (List.mem_cons.1 (hids.subset (hsub (List.mem_cons_of_mem _ hm)))).resolve_left hne
      obtain ⟨count, g', t', hrest, hX'⟩ := h.eraseDead_ok
        ⟨hg₁, hwf.replace_done hmem hunused, Arms.AllNodes.replace_done hshape _,
          h.erase hwf hmem hdead hlabels hx⟩ hnodup.2 hleft
      refine ⟨count + 1, g', t', ?_, hX'⟩
      rw [hok, ok_bind, hrest]
      rfl
    · exact h.eraseDead_ok ⟨hg, hwf, hshape, hx⟩ hnodup.2 fun m hm => hsub (List.mem_cons_of_mem _ hm)

theorem sweep_ok (h : KeptBySweeping impure X) {g : Graph} {t : BlockTree} (hX : Holds X g t) :
    ∃ count g' t', g.sweep impure = .ok (count, g') ∧ Holds X g' t' := by
  have hperm := t.toArms.map_id_sweepOrder_perm
  rw [hX.1.sweep_eq]
  exact h.eraseDead_ok hX (hperm.nodup_iff.2 hX.1.nodup_ids) hperm.subset

/-- So do sweeps one after another. -/
theorem sweeps_ok (h : KeptBySweeping impure X) : ∀ (limit : Nat) {g : Graph} {t : BlockTree},
    Holds X g t → ∃ report g' t', sweeps impure limit g = .ok (report, g') ∧ Holds X g' t'
  | 0, g, t, hX => ⟨_, g, t, rfl, hX⟩
  | limit + 1, g, t, hX => by
    obtain ⟨count, g₁, t₁, hok, hX₁⟩ := h.sweep_ok hX
    rw [sweeps, hok, ok_bind]
    by_cases hzero : count = 0
    · simp only [hzero, if_true]
      exact ⟨_, g₁, t₁, rfl, hX₁⟩
    · obtain ⟨report, g', t', hrest, hX'⟩ := h.sweeps_ok limit hX₁
      simp only [hzero, if_false, hrest, ok_bind]
      exact ⟨_, g', t', rfl, hX'⟩

/-- Sweeping never faults, and keeps what the deletion of one dead node keeps. -/
theorem sweepDeadCode_ok (h : KeptBySweeping impure X) (limit : Nat) {g : Graph} {t : BlockTree}
    (hX : Holds X g t) :
    ∃ report g' t', g.sweepDeadCode impure limit = .ok (report, g') ∧ Holds X g' t' :=
  h.sweeps_ok (effectiveLimit limit) hX

end KeptBySweeping

end Graph

end Unguard
