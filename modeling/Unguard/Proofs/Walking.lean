import Unguard.Proofs.Subtrees
import Unguard.Proofs.Unfolding

/-!
# Walks from the top

In a graph made by edits a walk from the top block ends, whatever the visitor remembers and decides, and
although detached nodes may be inside themselves: what is reached is a tree, no deeper than the graph
has blocks.

Which nodes are visited, and in which order, is said on the graph itself.  A node that is reached has an
address (`Graph.At`), the positions to go by from the top block down to it, and pre-order is the
lexicographic order of addresses.  A visitor that passes by the blocks of some nodes and ends the walk
at one node visits, in that order and up to that node, the nodes that no node passed by has inside
(`Graph.walk_ofEdits`).
-/

namespace Unguard

/-! ### Walks of a tree -/

/-- The visitor that ends the walk at `stop` and does not go into the blocks of the nodes of `skip`. -/
def passing (skip : NodeId → Prop) [DecidablePred skip] (stop : NodeId) : NodeId → Step :=
  fun n => if n = stop then .stop else if skip n then .skip else .descend

namespace Walk

/-- The walk that visits nodes in order and ends at `stop`, if that is one of them. -/
def upTo (stop : NodeId) (order : List NodeId) : Walk :=
  if stop ∈ order then ⟨order.takeWhile (· ≠ stop) ++ [stop], some stop⟩ else ⟨order, none⟩

variable {stop n : NodeId} {order rest : List NodeId}

theorem upTo_cons_self : upTo stop (stop :: order) = ⟨[stop], some stop⟩ := by
  simp [upTo]

theorem upTo_cons (h : n ≠ stop) : upTo stop (n :: order) = ⟨[n], none⟩ ++ upTo stop order := by
  have hmem : stop ∈ n :: order ↔ stop ∈ order := by simp [h.symm]
  simp only [upTo, hmem]
  split
  · rw [List.takeWhile_cons_of_pos (by simpa using h)]
    rfl
  · rfl

/-- A walk goes on where it was not ended. -/
theorem upTo_append : upTo stop (order ++ rest) =
    if (upTo stop order).stopped.isSome then upTo stop order
    else upTo stop order ++ upTo stop rest := by
  induction order with
  | nil => rfl
  | cons n order ih =>
    by_cases hn : n = stop
    · subst hn
      rw [List.cons_append, upTo_cons_self, upTo_cons_self]
      rfl
    · rw [List.cons_append, upTo_cons hn, upTo_cons hn, ih]
      show _ = if (upTo stop order).stopped.isSome then _ else _
      split
      · rfl
      · exact congrArg (Walk.mk · _) (List.append_assoc [n] _ _).symm

end Walk

theorem Body.inside_subset {body : NodeTrees} {p : NodeView × BlockTrees} (hp : p ∈ body.subtrees) :
    p.2.ids ⊆ body.ids := by
  intro n hn
  obtain ⟨q, hq, rfl⟩ := Arms.mem_ids.1 hn
  exact Body.mem_ids.2 ⟨q, Body.subtrees_trans hp hq, rfl⟩

theorem Arms.inside_subset {arms : BlockTrees} {p : NodeView × BlockTrees} (hp : p ∈ arms.subtrees) :
    p.2.ids ⊆ arms.ids := by
  intro n hn
  obtain ⟨q, hq, rfl⟩ := Arms.mem_ids.1 hn
  exact Arms.mem_ids.2 ⟨q, Arms.subtrees_trans hp hq, rfl⟩

section Exposed

variable (skip : NodeId → Prop) [DecidablePred skip]

mutual

/-- The nodes that are not inside a node of `skip`, each before what is inside it. -/
def Body.exposed : NodeTrees → List NodeId
  | .done => []
  | .node head arms rest =>
    head.id :: ((if skip head.id then [] else arms.exposed) ++ rest.exposed)

@[inherit_doc Body.exposed]
def Arms.exposed : BlockTrees → List NodeId
  | .done => []
  | .arm _ body rest => body.exposed ++ rest.exposed

end

mutual

/-- A walk that skips some nodes and stops at another visits what is exposed, up to there. -/
theorem Body.walk_passing (stop : NodeId) : ∀ body : NodeTrees,
    body.walk (passing skip stop) = .upTo stop (body.exposed skip)
  | .done => rfl
  | .node head arms rest => by
    rw [Body.walk, Body.exposed, passing, Arms.walk_passing stop arms, Body.walk_passing stop rest]
    by_cases hstop : head.id = stop
    · rw [if_pos hstop, hstop, Walk.upTo_cons_self]
      rfl
    · rw [if_neg hstop, Walk.upTo_cons hstop]
      by_cases hskip : skip head.id
      · rw [if_pos hskip, if_pos hskip]
        rfl
      · rw [if_neg hskip, if_neg hskip, Walk.upTo_append]
        show (if (Walk.upTo stop (arms.exposed skip)).stopped.isSome then _ else _) = _
        split
        · rfl
        · exact congrArg (Walk.mk · _) (List.append_assoc [head.id] _ _)

/-- What a walk of a tree visits. -/
theorem Arms.walk_passing (stop : NodeId) : ∀ arms : BlockTrees,
    arms.walk (passing skip stop) = .upTo stop (arms.exposed skip)
  | .done => rfl
  | .arm head body rest => by
    rw [Arms.walk, Arms.exposed, Body.walk_passing stop body, Arms.walk_passing stop rest,
      Walk.upTo_append]

end

mutual

/-- What is exposed comes in the order of the tree. -/
theorem Body.exposed_sublist : ∀ body : NodeTrees, (body.exposed skip).Sublist body.ids
  | .done => List.Sublist.refl _
  | .node head arms rest => by
    rw [Body.exposed, Body.ids_node]
    refine (List.Sublist.append ?_ rest.exposed_sublist).cons_cons head.id
    split
    · exact List.nil_sublist _
    · exact arms.exposed_sublist

theorem Arms.exposed_sublist : ∀ arms : BlockTrees, (arms.exposed skip).Sublist arms.ids
  | .done => List.Sublist.refl _
  | .arm head body rest => by
    rw [Arms.exposed, Arms.ids_arm]
    exact body.exposed_sublist.append rest.exposed_sublist

end

mutual

/-- A node is exposed unless it is inside one that is skipped. -/
theorem Body.mem_exposed {n : NodeId} : ∀ {body : NodeTrees}, body.ids.Nodup →
    (n ∈ body.exposed skip ↔ n ∈ body.ids ∧ ∀ p ∈ body.subtrees, skip p.1.id → n ∉ p.2.ids)
  | .done, _ => iff_of_false List.not_mem_nil fun h => List.not_mem_nil h.1
  | .node head arms rest, hnodup => by
    rw [Body.ids_node, List.nodup_cons, List.mem_append, not_or, List.nodup_append] at hnodup
    obtain ⟨⟨hhead, hhead'⟩, harms, hrest, hapart⟩ := hnodup
    have hinside : n ∉ arms.ids → ∀ p ∈ arms.subtrees, skip p.1.id → n ∉ p.2.ids :=
      fun hn p hp _ hin => hn (Arms.inside_subset hp hin)
    have hafter : n ∉ rest.ids → ∀ p ∈ rest.subtrees, skip p.1.id → n ∉ p.2.ids :=
      fun hn p hp _ hin => hn (Body.inside_subset hp hin)
    have hdisjoint : n ∈ arms.ids → n ∉ rest.ids := fun hn hn' => hapart n hn n hn' rfl
    have hmem : n ∈ (if skip head.id then [] else arms.exposed skip) ↔
        ¬skip head.id ∧ n ∈ arms.exposed skip := by split <;> simp [*]
    rw [Body.exposed, Body.ids_node, Body.subtrees, List.forall_mem_cons, List.forall_mem_append]
    simp only [List.mem_cons, List.mem_append, hmem, Arms.mem_exposed harms, Body.mem_exposed hrest]
    by_cases hn : n = head.id
    · subst hn
      simp only [true_or, true_and, true_iff]
      exact ⟨fun _ => hhead, hinside hhead, hafter hhead'⟩
    · tauto

/-- The nodes that are visited are those that no node passed by has inside. -/
theorem Arms.mem_exposed {n : NodeId} : ∀ {arms : BlockTrees}, arms.ids.Nodup →
    (n ∈ arms.exposed skip ↔ n ∈ arms.ids ∧ ∀ p ∈ arms.subtrees, skip p.1.id → n ∉ p.2.ids)
  | .done, _ => iff_of_false List.not_mem_nil fun h => List.not_mem_nil h.1
  | .arm head body rest, hnodup => by
    rw [Arms.ids_arm, List.nodup_append] at hnodup
    obtain ⟨hbody, hrest, hapart⟩ := hnodup
    have hinside : n ∉ body.ids → ∀ p ∈ body.subtrees, skip p.1.id → n ∉ p.2.ids :=
      fun hn p hp _ hin => hn (Body.inside_subset hp hin)
    have hafter : n ∉ rest.ids → ∀ p ∈ rest.subtrees, skip p.1.id → n ∉ p.2.ids :=
      fun hn p hp _ hin => hn (Arms.inside_subset hp hin)
    have hdisjoint : n ∈ body.ids → n ∉ rest.ids := fun hn hn' => hapart n hn n hn' rfl
    rw [Arms.exposed, Arms.ids_arm, Arms.subtrees, List.forall_mem_append]
    simp only [List.mem_append, Body.mem_exposed hbody, Arms.mem_exposed hrest]
    tauto

end

end Exposed

namespace Graph

variable {g : Graph}

/-! ### Ends -/

section Ends

variable {σ : Type} (visit : Visitor σ)

mutual

/-- Walks end: there is enough depth for a tree, and more depth makes no difference. -/
theorem exists_walkNodes : ∀ {body : NodeTrees}, body.ShownBy g → ∀ memory, ∃ walk, ∀ depth,
    body.height ≤ depth → g.walkNodes visit (g.walkTo visit depth) memory body.headIds = .ok walk
  | .done, _, memory => ⟨(.empty, memory), fun _ _ => rfl⟩
  | .node head arms rest, ⟨⟨node, hnode, _, hblocks⟩, harms, hrest⟩, memory => by
    obtain ⟨⟨first, memory₁⟩, hfirst⟩ : ∃ walk, ∀ depth, arms.height ≤ depth →
        g.visitNode visit (g.walkTo visit depth) memory head.id = .ok walk := by
      simp only [visitNode, g.node_eq_ok_iff.2 hnode, ok_bind, hblocks]
      obtain ⟨step, memory₁⟩ := visit memory head.id
      cases step with
      | stop => exact ⟨_, fun _ _ => rfl⟩
      | skip => exact ⟨_, fun _ _ => rfl⟩
      | descend =>
        obtain ⟨inside, hinside⟩ := exists_walkArms harms memory₁
        refine ⟨(⟨[head.id], none⟩ ++ inside.1, inside.2), fun depth hdepth => ?_⟩
        simp only [hinside depth hdepth, ok_bind, pure_eq_ok]
    obtain ⟨after, hafter⟩ := exists_walkNodes hrest memory₁
    refine ⟨if first.stopped.isSome then (first, memory₁) else (first ++ after.1, after.2),
      fun depth hdepth => ?_⟩
    rw [Body.height, Nat.max_le] at hdepth
    simp only [Body.headIds_node, walkNodes, hfirst depth hdepth.1, hafter depth hdepth.2, ok_bind,
      pure_eq_ok]
    split <;> rfl

/-- A walk of a tree ends, and no bound on its depth makes a difference that is not less than the height
of the tree. -/
theorem exists_walkArms : ∀ {arms : BlockTrees}, arms.ShownBy g → ∀ memory, ∃ walk, ∀ depth,
    arms.height ≤ depth → walkArms (g.walkTo visit depth) memory arms.headIds = .ok walk
  | .done, _, memory => ⟨(.empty, memory), fun _ _ => rfl⟩
  | .arm head body rest, ⟨⟨block, hblock, _, hnodes⟩, hbody, hrest⟩, memory => by
    obtain ⟨⟨first, memory₁⟩, hfirst⟩ := exists_walkNodes hbody memory
    obtain ⟨after, hafter⟩ := exists_walkArms hrest memory₁
    refine ⟨if first.stopped.isSome then (first, memory₁) else (first ++ after.1, after.2),
      fun depth hdepth => ?_⟩
    rw [Arms.height, Nat.max_le] at hdepth
    have hblock : g.walkTo visit depth memory head.id = .ok (first, memory₁) := by
      obtain ⟨depth, rfl⟩ : ∃ d, depth = d + 1 := ⟨depth - 1, by omega⟩
      rw [walkTo, g.block_eq_ok_iff.2 hblock, ok_bind, hnodes]
      exact hfirst depth (by omega)
    simp only [Arms.headIds_arm, walkArms, hblock, hafter depth hdepth.2, ok_bind, pure_eq_ok]
    split <;> rfl

end

/-- The size of the table is depth enough. -/
theorem Unfolds.exists_walk {t : BlockTree} (h : g.Unfolds t) (memory : σ) : ∃ walk, ∀ depth,
    g.blocks.size ≤ depth → g.walkTo visit depth memory Graph.top = .ok walk := by
  have hheight : max (t.body.height + 1) 0 ≤ g.blocks.size := h.shown.height_le h.nodup_blockIds
  obtain ⟨⟨block, hblock, -, hnodes⟩, hbody, -⟩ := h.shown
  obtain ⟨walk, hwalk⟩ := exists_walkNodes visit hbody memory
  refine ⟨walk, fun depth hdepth => ?_⟩
  obtain ⟨depth, rfl⟩ : ∃ d, depth = d + 1 := ⟨depth - 1, by omega⟩
  rw [walkTo, ← h.top, g.block_eq_ok_iff.2 hblock, ok_bind, hnodes]
  exact hwalk depth (by omega)

end Ends

/-! ### Order -/

/-- The address of a node that is reached: its position in the top block, or else the address of the
node around it, the position of the block in that node, and the position in the block. -/
inductive At (g : Graph) : NodeId → List Nat → Prop
  | top {n : NodeId} {i : Nat} : (g.nodesIn Graph.top)[i]? = some n → At g n [i]
  | inside {m n : NodeId} {b : BlockId} {path : List Nat} {i j : Nat} : At g m path →
    (g.blocksOf m)[j]? = some b → (g.nodesIn b)[i]? = some n → At g n (path ++ [j, i])

/-- Pre-order: the lexicographic order of addresses, by which a node comes before what is inside it. -/
def Precedes (g : Graph) (m n : NodeId) : Prop :=
  ∃ p q, g.At m p ∧ g.At n q ∧ p < q

theorem eq_of_getElem?_eq {α : Type} {l : List α} (h : l.Nodup) {i j : Nat} {a : α}
    (hi : l[i]? = some a) (hj : l[j]? = some a) : i = j := by
  obtain ⟨hlt, -⟩ := List.getElem?_eq_some_iff.1 hi
  exact (List.getElem?_inj hlt h).1 (hi.trans hj.symm)

/-- A node has one address. -/
theorem At.unique (hg : g.Consistent) {n : NodeId} {p q : List Nat} (h : g.At n p) (h' : g.At n q) :
    p = q := by
  induction h generalizing q with
  | top hn =>
    cases h' with
    | top hn' => rw [eq_of_getElem?_eq (hg.placement.nodup _) hn hn']
    | inside _ hb hn' =>
      obtain rfl := hg.place_unique (List.mem_of_getElem? hn) (List.mem_of_getElem? hn')
      exact absurd (List.mem_of_getElem? hb) (hg.top_not_mem_blocksOf _)
  | inside _ hb hn ih =>
    cases h' with
    | top hn' =>
      obtain rfl := hg.place_unique (List.mem_of_getElem? hn) (List.mem_of_getElem? hn')
      exact absurd (List.mem_of_getElem? hb) (hg.top_not_mem_blocksOf _)
    | inside hm hb' hn' =>
      -- it stands in one block, which belongs to one node
      obtain rfl := hg.place_unique (List.mem_of_getElem? hn) (List.mem_of_getElem? hn')
      obtain rfl := hg.owner_unique (List.mem_of_getElem? hb) (List.mem_of_getElem? hb')
      rw [ih hm, eq_of_getElem?_eq (hg.ownership.nodup _) hb hb',
        eq_of_getElem?_eq (hg.placement.nodup _) hn hn']

/-- Of two places in a block, all that is at the first is before all that is at the second. -/
theorem lt_of_position_lt (path : List Nat) {i j : Nat} (h : i < j) (p q : List Nat) :
    path ++ i :: p < path ++ j :: q :=
  List.append_left_lt (List.cons_lt_cons_iff.2 (Or.inl h))

/-- A node is before what is inside it. -/
theorem lt_append_cons (path : List Nat) (i : Nat) (p : List Nat) : path < path ++ i :: p := by
  have hlt : path ++ [] < path ++ i :: p := List.append_left_lt (List.nil_lt_cons _ _)
  rwa [List.append_nil] at hlt

mutual

/-- The nodes of a body come in order. By induction along the tree, for the part of the block from some
position on. -/
theorem pairwise_precedes_body : ∀ {body : NodeTrees} {b : BlockId} {front : List NodeId}
    {path : List Nat}, body.ShownBy g → g.nodesIn b = front ++ body.headIds →
    (∀ i n, (g.nodesIn b)[i]? = some n → g.At n (path ++ [i])) →
    body.ids.Pairwise g.Precedes ∧
      ∀ n ∈ body.ids, ∃ i p, front.length ≤ i ∧ g.At n (path ++ i :: p)
  | .done, _, _, _, _, _, _ => ⟨List.Pairwise.nil, List.forall_mem_nil _⟩
  | .node head arms rest, b, front, path, ⟨⟨node, hnode, _, hblocks⟩, harms, hrest⟩, hsplit, hat => by
    rw [Body.headIds_node] at hsplit
    have hhead : g.At head.id (path ++ [front.length]) := hat _ _ (by simp [hsplit])
    have hown : g.blocksOf head.id = [] ++ arms.headIds := by
      rw [blocksOf, hnode, ← hblocks]
      rfl
    have hsplit' : g.nodesIn b = (front ++ [head.id]) ++ rest.headIds := by
      rw [hsplit, List.append_assoc]
      rfl
    obtain ⟨hpair, hinside⟩ := pairwise_precedes_arms harms hown hhead
    obtain ⟨hpair', hafter⟩ := pairwise_precedes_body hrest hsplit' hat
    rw [List.length_append, List.length_singleton] at hafter
    -- the node, what is inside it, and what comes after it have ever larger addresses
    have hfirst : ∀ n ∈ arms.ids, g.Precedes head.id n := fun n hn => by
      obtain ⟨j, p, -, hp⟩ := hinside n hn
      exact ⟨_, _, hhead, hp, lt_append_cons _ j p⟩
    have hlast : ∀ n ∈ head.id :: arms.ids, ∀ m ∈ rest.ids, g.Precedes n m := fun n hn m hm => by
      obtain ⟨i, q, hi, hq⟩ := hafter m hm
      obtain ⟨p, hp⟩ : ∃ p, g.At n (path ++ front.length :: p) := by
        rcases List.mem_cons.1 hn with rfl | hn
        · exact ⟨[], hhead⟩
        · obtain ⟨j, p, -, hp⟩ := hinside n hn
          exact ⟨j :: p, by simpa using hp⟩
      exact ⟨_, _, hp, hq, lt_of_position_lt path hi p q⟩
    rw [Body.ids_node, ← List.cons_append, List.pairwise_append]
    refine ⟨⟨List.pairwise_cons.2 ⟨hfirst, hpair⟩, hpair', hlast⟩, fun n hn => ?_⟩
    simp only [List.cons_append, List.mem_cons, List.mem_append] at hn
    rcases hn with rfl | hn | hn
    · exact ⟨front.length, [], Nat.le_refl _, hhead⟩
    · obtain ⟨j, p, -, hp⟩ := hinside n hn
      exact ⟨front.length, j :: p, Nat.le_refl _, by simpa using hp⟩
    · obtain ⟨i, p, hi, hp⟩ := hafter n hn
      exact ⟨i, p, by omega, hp⟩

/-- The tree lists its nodes in pre-order. -/
theorem pairwise_precedes_arms : ∀ {arms : BlockTrees} {m : NodeId} {front : List BlockId}
    {path : List Nat}, arms.ShownBy g → g.blocksOf m = front ++ arms.headIds → g.At m path →
    arms.ids.Pairwise g.Precedes ∧
      ∀ n ∈ arms.ids, ∃ j p, front.length ≤ j ∧ g.At n (path ++ j :: p)
  | .done, _, _, _, _, _, _ => ⟨List.Pairwise.nil, List.forall_mem_nil _⟩
  | .arm head body rest, m, front, path, ⟨⟨block, hblock, _, hnodes⟩, hbody, hrest⟩, hsplit, hm => by
    rw [Arms.headIds_arm] at hsplit
    have hheads : g.nodesIn head.id = [] ++ body.headIds :=
      (Consistent.nodesIn_eq hblock).trans hnodes
    -- What is in this block has the position of the block in its path, after that of the node.
    have hat : ∀ i n, (g.nodesIn head.id)[i]? = some n → g.At n ((path ++ [front.length]) ++ [i]) := by
      intro i n hn
      rw [List.append_assoc]
      exact hm.inside (by simp [hsplit]) hn
    have hsplit' : g.blocksOf m = (front ++ [head.id]) ++ rest.headIds := by
      rw [hsplit, List.append_assoc]
      rfl
    obtain ⟨hpair, hinside⟩ := pairwise_precedes_body hbody hheads hat
    obtain ⟨hpair', hafter⟩ := pairwise_precedes_arms hrest hsplit' hm
    rw [List.length_append, List.length_singleton] at hafter
    have hfirst : ∀ n ∈ body.ids, ∃ p, g.At n (path ++ front.length :: p) := fun n hn => by
      obtain ⟨i, p, -, hp⟩ := hinside n hn
      exact ⟨i :: p, by simpa using hp⟩
    rw [Arms.ids_arm, List.pairwise_append]
    refine ⟨⟨hpair, hpair', fun n hn n' hn' => ?_⟩, fun n hn => ?_⟩
    · -- The two paths part where the positions of the blocks differ.
      obtain ⟨p, hp⟩ := hfirst n hn
      obtain ⟨j, q, hj, hq⟩ := hafter n' hn'
      exact ⟨_, _, hp, hq, lt_of_position_lt path hj p q⟩
    · rcases List.mem_append.1 hn with hn | hn
      · obtain ⟨p, hp⟩ := hfirst n hn
        exact ⟨front.length, p, Nat.le_refl _, hp⟩
      · obtain ⟨j, p, hj, hp⟩ := hafter n hn
        exact ⟨j, p, by omega, hp⟩

end

/-! ### What is visited -/

/-- The node `a` has the node `n` inside, at any depth. -/
def Around (g : Graph) (a n : NodeId) : Prop :=
  g.StandsIn (g.EnclosesBlock a) n

namespace Consistent

variable {a n : NodeId} {b : BlockId}

/-- What has a block inside that is reached is reached. -/
theorem reachesNode_of_encloses (hg : g.Consistent) (h : g.EnclosesBlock a b)
    (hb : g.ReachesBlock b) : g.ReachesNode a := by
  have howner : ∀ {m b}, b ∈ g.blocksOf m → g.ReachesBlock b →
      ∃ c, g.ReachesBlock c ∧ m ∈ g.nodesIn c := by
    intro m b hm hb
    cases hb with
    | top => exact absurd hm (hg.top_not_mem_blocksOf m)
    | inside hc hblock hn hnode hb =>
      obtain rfl := hg.owner_unique hm (mem_blocksOf.2 ⟨_, hnode, hb⟩)
      exact ⟨_, hc, mem_nodesIn.2 ⟨_, hblock, hn⟩⟩
  induction h with
  | own hnode hin =>
    obtain ⟨c, hc, hn⟩ := howner (mem_blocksOf.2 ⟨_, hnode, hin⟩) hb
    obtain ⟨block, hblock, hn⟩ := mem_nodesIn.1 hn
    exact ⟨c, block, hc, hblock, hn⟩
  | inside _ hblock hm hnode hin ih =>
    obtain ⟨c, hc, hn⟩ := howner (mem_blocksOf.2 ⟨_, hnode, hin⟩) hb
    obtain rfl := hg.place_unique hn (mem_nodesIn.2 ⟨_, hblock, hm⟩)
    exact ih hc

/-- What is around a node that can be reached can be reached. -/
theorem reachesNode_of_around (hg : g.Consistent) (h : g.Around a n) (hn : g.ReachesNode n) :
    g.ReachesNode a := by
  obtain ⟨b, block, hb, hblock, hin⟩ := h
  obtain ⟨b', block', hb', hblock', hin'⟩ := hn
  obtain rfl := hg.place_unique (mem_nodesIn.2 ⟨_, hblock, hin⟩) (mem_nodesIn.2 ⟨_, hblock', hin'⟩)
  exact hg.reachesNode_of_encloses hb hb'

end Consistent

/-- Exposure in terms of the graph: nothing that is skipped is around the node. -/
theorem Unfolds.mem_exposed_iff {t : BlockTree} (h : g.Unfolds t) (hg : g.Consistent)
    (skip : NodeId → Prop) [DecidablePred skip] {n : NodeId} :
    n ∈ t.toArms.exposed skip ↔ g.ReachesNode n ∧ ∀ a, skip a → ¬g.Around a n := by
  have hnodup : ∀ p ∈ t.toArms.subtrees, p.2.ids.Nodup := fun p hp => by
    have hperm := Arms.ids_perm h.nodup_ids hp
    exact (List.nodup_cons.1 (List.nodup_append.1 (hperm.nodup_iff.1 h.nodup_ids)).1).2
  rw [Arms.mem_exposed skip h.nodup_ids, ← h.reachesNode_iff]
  refine and_congr_right fun hn => ⟨fun hout a ha haround => ?_, fun hout p hp hskip hin => ?_⟩
  · obtain ⟨p, hp, rfl⟩ := Arms.mem_ids.1 (h.reachesNode_iff.1 (hg.reachesNode_of_around haround hn))
    exact hout p hp ha ((h.standsInside_iff (hnodup p hp) hp).2 haround)
  · exact hout p.1.id hskip ((h.standsInside_iff (hnodup p hp) hp).1 hin)

/-- **Walks from the top end and visit the right nodes.**  In a graph made by edits a walk from the top
block ends for every visitor, whatever it remembers, and the bound on its depth makes no difference.
With a visitor that passes by the blocks of the nodes of `skip` and ends the walk at `stop`, `order` are
the nodes that are reached and have no node of `skip` around them, each of them once and in pre-order,
and those up to `stop` are visited.  Pre-order is well-defined, since addresses are unique. -/
theorem walk_ofEdits (edits : List Edit) (g : Graph) (h : ofEdits edits = .ok g) :
    (∀ {σ : Type} (visit : Visitor σ) (memory : σ), ∃ walk memory',
      g.walkWith visit memory = .ok (walk, memory') ∧
      ∀ depth, g.blocks.size ≤ depth → g.walkTo visit depth memory top = .ok (walk, memory')) ∧
    (∀ n p q, g.At n p → g.At n q → p = q) ∧
    ∀ (skip : NodeId → Prop) [DecidablePred skip] (stop : NodeId), ∃ order : List NodeId,
      (∀ n, n ∈ order ↔ g.ReachesNode n ∧ ∀ a, skip a → ¬g.Around a n) ∧
      order.Nodup ∧ order.Pairwise g.Precedes ∧
      g.walk (passing skip stop) =
        .ok (if stop ∈ order then ⟨order.takeWhile (· ≠ stop) ++ [stop], some stop⟩
          else ⟨order, none⟩) := by
  have hg := consistent_ofEdits h
  obtain ⟨t, ht⟩ := hg.exists_unfolds
  refine ⟨fun visit memory => ?_, fun n p q => At.unique hg, fun skip _ stop =>
    ⟨t.toArms.exposed skip, fun n => ht.mem_exposed_iff hg skip, ?_, ?_, ?_⟩⟩
  · -- What can be reached unfolds to a tree, and its height bounds the depth of a walk.
    obtain ⟨⟨walk, memory'⟩, hwalk⟩ := ht.exists_walk visit memory
    exact ⟨walk, memory', hwalk _ (Nat.le_refl _), hwalk⟩
  · exact ht.nodup_ids.sublist (t.toArms.exposed_sublist skip)
  · obtain ⟨⟨block, hblock, -, hnodes⟩, hbody, -⟩ := ht.shown
    have hheads : g.nodesIn top = [] ++ t.body.headIds := by
      rw [← ht.top, Consistent.nodesIn_eq hblock, hnodes]
      rfl
    have hat : ∀ i n, (g.nodesIn top)[i]? = some n → g.At n ([] ++ [i]) := fun i n hn => .top hn
    refine (pairwise_precedes_body hbody hheads hat).1.sublist ?_
    have hsub := t.toArms.exposed_sublist skip
    rwa [BlockTree.toArms, Arms.ids_arm, Arms.ids_done, List.append_nil] at hsub
  · -- The walk through the tables is a walk through the tree that they unfold to.
    rw [ht.shown.walk_eq ht.top ht.nodup_blockIds, Body.walk_passing]
    refine congrArg Except.ok ?_
    rw [BlockTree.toArms, Arms.exposed, Arms.exposed, List.append_nil]
    rfl

/-- Edits that make two conditionals and a node at the top, and a third conditional that is not placed
anywhere but inside itself. -/
def selfNestingEdits : List Edit :=
  [.newBlock, .newBlock, .newBlock,
    .newNode ⟨.conditional, [], [], .empty, [⟨1⟩]⟩, .append top ⟨0⟩,
    .newNode ⟨.raise, [], [], .empty, []⟩, .append ⟨1⟩ ⟨1⟩,
    .newNode ⟨.conditional, [], [], .empty, [⟨2⟩]⟩, .append top ⟨2⟩,
    .newNode ⟨.raise, [], [], .empty, []⟩, .append ⟨2⟩ ⟨3⟩,
    .newNode ⟨.raise, [], [], .empty, []⟩, .append top ⟨4⟩,
    .newNode ⟨.conditional, [], [], .empty, [⟨3⟩]⟩, .append ⟨3⟩ ⟨5⟩]

theorem walk_ofEdits_selfNesting : ∃ g, ofEdits selfNestingEdits = .ok g ∧
    g.nodesIn ⟨3⟩ = [⟨5⟩] ∧ g.blocksOf ⟨5⟩ = [⟨3⟩] ∧ ¬g.ReachesNode ⟨5⟩ ∧
    g.Around ⟨0⟩ ⟨1⟩ ∧ g.Precedes ⟨2⟩ ⟨3⟩ ∧
    g.walk (passing (· = ⟨0⟩) ⟨3⟩) = .ok ⟨[⟨0⟩, ⟨2⟩, ⟨3⟩], some ⟨3⟩⟩ ∧
    ∃ walk seen, g.walkWith (fun seen n => (if seen < 2 then .descend else .stop, seen + n.index)) 0 =
      .ok (walk, seen) := by
  have hmade : (ofEdits selfNestingEdits).toOption.map (fun g =>
      ((g.nodesIn ⟨3⟩, g.blocksOf ⟨5⟩), (g.walk (passing (fun _ => False) ⟨9⟩)).toOption,
        (g.walk (passing (· = ⟨0⟩) ⟨9⟩)).toOption, (g.walk (passing (· = ⟨0⟩) ⟨3⟩)).toOption)) =
      some (([⟨5⟩], [⟨3⟩]), some ⟨[⟨0⟩, ⟨1⟩, ⟨2⟩, ⟨3⟩, ⟨4⟩], none⟩,
        some ⟨[⟨0⟩, ⟨2⟩, ⟨3⟩, ⟨4⟩], none⟩, some ⟨[⟨0⟩, ⟨2⟩, ⟨3⟩], some ⟨3⟩⟩) := by decide +kernel
  simp only [Option.map_eq_some_iff, toOption_eq_some_iff, Prod.mk.injEq] at hmade
  obtain ⟨g, hg, ⟨hnodes, hblocks⟩, hall, hpassed, hended⟩ := hmade
  obtain ⟨hends, -, hwalk⟩ := walk_ofEdits selfNestingEdits g hg
  -- these two walks are not ended, so they show all of their order
  obtain ⟨order, hmem, -, hpair, heq⟩ := hwalk (fun _ => False) ⟨9⟩
  obtain ⟨order', hmem', -, -, heq'⟩ := hwalk (· = ⟨0⟩) ⟨9⟩
  have horder : ∀ {stop : NodeId} {order all : List NodeId},
      (if stop ∈ order then (⟨order.takeWhile (· ≠ stop) ++ [stop], some stop⟩ : Walk)
        else ⟨order, none⟩) = ⟨all, none⟩ → order = all := by
    intro stop order all hsame
    split at hsame
    · cases (Walk.mk.inj hsame).2
    · exact (Walk.mk.inj hsame).1
  obtain rfl := horder (Except.ok.inj (heq.symm.trans hall))
  obtain rfl := horder (Except.ok.inj (heq'.symm.trans hpassed))
  obtain ⟨walk, seen, hremembering, -⟩ :=
    hends (fun (seen : Nat) n => (if seen < 2 then .descend else .stop, seen + n.index)) 0
  refine ⟨g, hg, hnodes, hblocks, fun hreached => ?_, ?_, ?_, hended, walk, seen, hremembering⟩
  · exact absurd ((hmem ⟨5⟩).2 ⟨hreached, fun _ h => h.elim⟩) (by decide)
  · by_contra hout
    refine absurd ((hmem' ⟨1⟩).2 ⟨((hmem ⟨1⟩).1 (by decide)).1, ?_⟩) (by decide)
    rintro a rfl
    exact hout
  · exact (List.pairwise_cons.1 hpair.of_cons.of_cons).1 _ (by decide)

end Graph

end Unguard
