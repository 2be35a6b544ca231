import Unguard.Proofs.Conditionals

/-!
# Rounds of a reduction

What a run of rounds keeps follows from what one reduction keeps.  `Reduction.Sound` lists what has to
be shown of a reduction: where its sites are is read off the tree, and reducing a site does not fault,
keeps a property of graph and tree, makes for fewer conditionals, and leaves the other sites where they
are.  Then the sites of a round can all be reduced (`Reduction.Sound.applyAll_ok`), and a run never
faults, keeps the property, and leaves no site if it is settled (`Reduction.Sound.rounds_ok`).
-/

namespace Unguard

variable {α : Type}

/-! ### The sites of a tree -/

/-- A site of a reduction, with the nodes inside it. -/
structure Site (α : Type) where
  node : NodeId
  arg : α
  inside : List NodeId

mutual

/-- The sites that are not inside another one, in order. -/
def Body.sites (site : NodeView → BlockTrees → Option α) : NodeTrees → List (Site α)
  | .done => []
  | .node head arms rest =>
    (match site head arms with
      | some a => [⟨head.id, a, arms.ids⟩]
      | none => arms.sites site) ++ rest.sites site

@[inherit_doc Body.sites]
def Arms.sites (site : NodeView → BlockTrees → Option α) : BlockTrees → List (Site α)
  | .done => []
  | .arm _ body rest => body.sites site ++ rest.sites site

end

/-- The numbers of a site's nodes. -/
def Site.ids (s : Site α) : List NodeId :=
  s.node :: s.inside

section Sites

variable {site : NodeView → BlockTrees → Option α}

mutual

/-- Sites have no nodes in common. -/
theorem Body.ids_sites_sublist : ∀ body : NodeTrees,
    ((body.sites site).flatMap Site.ids).Sublist body.ids
  | .done => List.Sublist.refl _
  | .node head arms rest => by
    rw [Body.sites, List.flatMap_append, Body.ids_node, ← List.cons_append]
    refine List.Sublist.append ?_ (Body.ids_sites_sublist rest)
    split
    · exact (List.append_nil (head.id :: arms.ids)).symm ▸ List.Sublist.refl _
    · exact (Arms.ids_sites_sublist arms).cons _

theorem Arms.ids_sites_sublist : ∀ arms : BlockTrees,
    ((arms.sites site).flatMap Site.ids).Sublist arms.ids
  | .done => List.Sublist.refl _
  | .arm head body rest => by
    rw [Arms.sites, List.flatMap_append, Arms.ids_arm]
    exact (Body.ids_sites_sublist body).append (Arms.ids_sites_sublist rest)

end

/-- A site is a node of the tree. -/
def Site.In (site : NodeView → BlockTrees → Option α) (arms : BlockTrees) (s : Site α) : Prop :=
  ∃ p ∈ arms.subtrees, p.1.id = s.node ∧ p.2.ids = s.inside ∧ site p.1 p.2 = some s.arg

mutual

/-- A site of the walk is a node of the tree. -/
theorem Body.mem_sites {s : Site α} : ∀ {body : NodeTrees}, s ∈ body.sites site →
    ∃ p ∈ body.subtrees, p.1.id = s.node ∧ p.2.ids = s.inside ∧ site p.1 p.2 = some s.arg
  | .node head arms rest, h => by
    rw [Body.sites, List.mem_append] at h
    rw [Body.subtrees]
    rcases h with h | h
    · split at h
      · rename_i a ha
        obtain rfl := List.mem_singleton.1 h
        exact ⟨_, List.mem_cons_self, rfl, rfl, ha⟩
      · obtain ⟨p, hp, hs⟩ := Arms.mem_sites h
        exact ⟨p, List.mem_cons_of_mem _ (List.mem_append_left _ hp), hs⟩
    · obtain ⟨p, hp, hs⟩ := Body.mem_sites h
      exact ⟨p, List.mem_cons_of_mem _ (List.mem_append_right _ hp), hs⟩

theorem Arms.mem_sites {s : Site α} : ∀ {arms : BlockTrees}, s ∈ arms.sites site → s.In site arms
  | .arm head body rest, h => by
    rw [Arms.sites, List.mem_append] at h
    rcases h with h | h
    · obtain ⟨p, hp, hs⟩ := Body.mem_sites h
      exact ⟨p, List.mem_append_left _ hp, hs⟩
    · obtain ⟨p, hp, hs⟩ := Arms.mem_sites h
      exact ⟨p, List.mem_append_right _ hp, hs⟩

end

mutual

/-- If the walk finds no site there is none, even though it skips what is inside sites. -/
theorem Body.site_eq_none : ∀ {body : NodeTrees}, body.sites site = [] →
    ∀ p ∈ body.subtrees, site p.1 p.2 = none
  | .done, _, _, hp => nomatch hp
  | .node head arms rest, h, p, hp => by
    rw [Body.sites, List.append_eq_nil_iff] at h
    obtain ⟨hfirst, hrest⟩ := h
    split at hfirst
    · exact nomatch hfirst
    · rename_i hnone
      rw [Body.subtrees, List.mem_cons, List.mem_append] at hp
      rcases hp with rfl | hp | hp
      · exact hnone
      · exact Arms.site_eq_none hfirst p hp
      · exact Body.site_eq_none hrest p hp

theorem Arms.site_eq_none : ∀ {arms : BlockTrees}, arms.sites site = [] →
    ∀ p ∈ arms.subtrees, site p.1 p.2 = none
  | .done, _, _, hp => nomatch hp
  | .arm head body rest, h, p, hp => by
    rw [Arms.sites, List.append_eq_nil_iff] at h
    rw [Arms.subtrees, List.mem_append] at hp
    rcases hp with hp | hp
    · exact Body.site_eq_none h.1 p hp
    · exact Arms.site_eq_none h.2 p hp

end

/-! ### The walk for sites -/

/-- How a walk for sites goes on from a node. -/
def stepPast (look : NodeId → Option α) (n : NodeId) : Step :=
  if (look n).isSome then .skip else .descend

/-- What is found among the nodes of a walk. -/
def found (look : NodeId → Option α) (ns : List NodeId) : List (NodeId × α) :=
  ns.filterMap fun n => (look n).map fun a => (n, a)

variable {look : NodeId → Option α}

theorem found_append (ns ms : List NodeId) : found look (ns ++ ms) = found look ns ++ found look ms :=
  List.filterMap_append

theorem found_singleton (n : NodeId) :
    found look [n] = ((look n).map fun a => (n, a)).toList := by
  rw [found]
  cases hn : look n <;> simp [hn]

mutual

/-- A walk that passes sites by finds those that are not inside another one. -/
theorem Body.walk_sites : ∀ {body : NodeTrees},
    (∀ p ∈ body.subtrees, look p.1.id = site p.1 p.2) →
    (body.walk (stepPast look)).stopped = none ∧
      found look (body.walk (stepPast look)).visited =
        (body.sites site).map fun s => (s.node, s.arg)
  | .done, _ => ⟨rfl, rfl⟩
  | .node head arms rest, h => by
    rw [Body.subtrees, List.forall_mem_cons, List.forall_mem_append] at h
    obtain ⟨hhead, harms, hrest⟩ := h
    obtain ⟨hstop, hfound⟩ := Body.walk_sites hrest
    obtain ⟨hstop', hfound'⟩ := Arms.walk_sites harms
    have hone : found look [head.id] = _ := found_singleton head.id
    rw [Body.walk, Body.sites, stepPast]
    rw [hhead] at hone ⊢
    cases ha : site head arms with
    | some a =>
      -- A site is not entered: the walk goes on after it.
      rw [ha] at hone
      refine ⟨hstop, ?_⟩
      change found look ([head.id] ++ _) = _
      rw [found_append, hfound, hone]
      rfl
    | none =>
      -- Elsewhere the walk enters the arms, where it never stops either.
      rw [ha] at hone
      simp only [Option.isSome_none, Bool.false_eq_true, if_false]
      have hinside : ((⟨[head.id], none⟩ : Walk) ++ arms.walk (stepPast look)).stopped = none := hstop'
      rw [hinside]
      refine ⟨hstop, ?_⟩
      change found look (([head.id] ++ _) ++ _) = _
      rw [found_append, found_append, hfound, hfound', hone, List.map_append]
      rfl

theorem Arms.walk_sites : ∀ {arms : BlockTrees},
    (∀ p ∈ arms.subtrees, look p.1.id = site p.1 p.2) →
    (arms.walk (stepPast look)).stopped = none ∧
      found look (arms.walk (stepPast look)).visited =
        (arms.sites site).map fun s => (s.node, s.arg)
  | .done, _ => ⟨rfl, rfl⟩
  | .arm head body rest, h => by
    rw [Arms.subtrees, List.forall_mem_append] at h
    obtain ⟨hstop, hfound⟩ := Body.walk_sites h.1
    obtain ⟨hstop', hfound'⟩ := Arms.walk_sites h.2
    rw [Arms.walk, Arms.sites, hstop]
    refine ⟨hstop', ?_⟩
    change found look (_ ++ _) = _
    rw [found_append, hfound, hfound', List.map_append]

end

end Sites

/-! ### Runs -/

namespace Reduction

/-- The sites of a graph are those of its tree. -/
theorem sites_of_represents {r : Reduction α} {site : NodeView → BlockTrees → Option α} {g : Graph}
    {t : BlockTree} (hg : g.Represents t)
    (hsite : ∀ p ∈ t.toArms.subtrees, r.site? g p.1.id = site p.1 p.2) :
    r.sites g = .ok ((t.toArms.sites site).map fun s => (s.node, s.arg)) := by
  have hbody : t.toArms.subtrees = t.body.subtrees := by simp [BlockTree.toArms, Arms.subtrees]
  have hsites : t.toArms.sites site = t.body.sites site := by simp [BlockTree.toArms, Arms.sites]
  rw [sites, hg.walk_eq, ok_bind, hsites]
  exact congrArg Except.ok (Body.walk_sites (hbody ▸ hsite)).2

/-- A run goes through only if arms return what they should. -/
theorem firstMismatch_of_run {r : Reduction α} {limit : Nat} {g : Graph} {run : RoundsRun}
    (h : r.run limit g = .ok run) : g.firstMismatch = .ok none := by
  rw [Reduction.run] at h
  split at h
  · cases h
  · cases h
  · assumption

/-- What has to be shown of a reduction whose sites are those of `site` in the tree, in order that
runs of it keep `P`. -/
structure Sound (r : Reduction α) (site : NodeView → BlockTrees → Option α)
    (P : Graph → BlockTree → Prop) : Prop where
  represents : ∀ {g t}, P g t → g.Represents t
  site?_eq : ∀ {g t}, P g t → ∀ p ∈ t.toArms.subtrees, r.site? g p.1.id = site p.1 p.2
  apply_ok : ∀ {g t}, P g t → ∀ p ∈ t.toArms.subtrees, ∀ a, site p.1 p.2 = some a →
    ∃ g' t', r.apply g p.1.id a = .ok g' ∧ P g' t' ∧ t'.toArms.conditionals < t.toArms.conditionals ∧
      ∀ s : Site α, s.In site t.toArms → ((p.1.id :: p.2.ids) ++ s.ids).Nodup → s.In site t'.toArms

namespace Sound

variable {r : Reduction α} {site : NodeView → BlockTrees → Option α} {P : Graph → BlockTree → Prop}

theorem sites_eq (h : r.Sound site P) {g : Graph} {t : BlockTree} (hP : P g t) :
    r.sites g = .ok ((t.toArms.sites site).map fun s => (s.node, s.arg)) :=
  sites_of_represents (h.represents hP) (h.site?_eq hP)

theorem nodup_sites (h : r.Sound site P) {g : Graph} {t : BlockTree} (hP : P g t) :
    ((t.toArms.sites site).flatMap Site.ids).Nodup :=
  (Arms.ids_sites_sublist t.toArms).nodup (h.represents hP).nodup_ids

/-- Sites without nodes in common can be reduced one after the other.  Each makes for one conditional
less, and a site that has no node in common with them is left where it is. -/
theorem applyAll_ok (h : r.Sound site P) : ∀ {sites : List (Site α)} {g : Graph} {t : BlockTree},
    P g t → (∀ s ∈ sites, s.In site t.toArms) → (sites.flatMap Site.ids).Nodup →
    ∃ g' reduced t', r.applyAll g (sites.map fun s => (s.node, s.arg)) = .ok (g', reduced) ∧ P g' t' ∧
      t'.toArms.conditionals + sites.length ≤ t.toArms.conditionals ∧
      ∀ s : Site α, s.In site t.toArms → (sites.flatMap Site.ids ++ s.ids).Nodup → s.In site t'.toArms
  | [], g, t, hP, _, _ => ⟨g, [], t, rfl, hP, Nat.le_refl _, fun _ hs _ => hs⟩
  | s :: sites, g, t, hP, hin, hnodup => by
    rw [List.forall_mem_cons] at hin
    rw [List.flatMap_cons] at hnodup
    obtain ⟨p, hp, hid, hids, hsite⟩ := hin.1
    obtain ⟨g₁, t₁, happly, hP₁, hfewer, hkept⟩ := h.apply_ok hP p hp s.arg hsite
    rw [hid, hids] at hkept
    -- The other sites are apart from the first, so reducing it leaves them sites.
    have hin₁ : ∀ s' ∈ sites, s'.In site t₁.toArms := by
      intro s' hs'
      exact hkept s' (hin.2 s' hs') (hnodup.sublist ((List.sublist_flatten_of_mem
        (List.mem_map_of_mem hs')).append_left _))
    obtain ⟨g', reduced, t', hall, hP', hfewer', hkept'⟩ :=
      h.applyAll_ok hP₁ hin₁ (List.nodup_append.1 hnodup).2.1
    refine ⟨g', ⟨s.node, g⟩ :: reduced, t', ?_, hP', ?_, fun s' hs' hapart => ?_⟩
    · rw [List.map_cons, applyAll, ← hid, happly, ok_bind, hall]
      rfl
    · -- Every site takes a conditional with it.
      rw [List.length_cons]
      omega
    · -- Apart from all of them, so apart from the first and apart from the others.
      rw [List.flatMap_cons, List.append_assoc] at hapart
      refine hkept' s' (hkept s' hs' ?_) hapart.of_append_right
      exact hapart.sublist ((List.sublist_append_right _ _).append_left _)

/-- The sites of a round can be reduced. -/
theorem round_ok (h : r.Sound site P) {g : Graph} {t : BlockTree} (hP : P g t) :
    ∃ g' reduced t', r.applyAll g ((t.toArms.sites site).map fun s => (s.node, s.arg)) =
      .ok (g', reduced) ∧ P g' t' ∧
      t'.toArms.conditionals + (t.toArms.sites site).length ≤ t.toArms.conditionals := by
  obtain ⟨g', reduced, t', hall, hP', hfewer, -⟩ := h.applyAll_ok hP (fun s hs => Arms.mem_sites hs)
    (h.nodup_sites hP)
  exact ⟨g', reduced, t', hall, hP', hfewer⟩

/-- A run ends, keeps the property, and leaves no site if it is settled. -/
theorem rounds_ok (h : r.Sound site P) : ∀ (limit : Nat) {g : Graph} {t : BlockTree}, P g t →
    ∃ run t', r.rounds limit g = .ok run ∧ P run.graph t' ∧
      (run.settled = true → ∀ p ∈ t'.toArms.subtrees, site p.1 p.2 = none)
  | 0, g, t, hP => ⟨_, t, rfl, hP, nofun⟩
  | limit + 1, g, t, hP => by
    rw [rounds, h.sites_eq hP, ok_bind]
    by_cases hnil : t.toArms.sites site = []
    · rw [hnil]
      exact ⟨_, t, rfl, hP, fun _ => Arms.site_eq_none hnil⟩
    · have hne : ((t.toArms.sites site).map fun s => (s.node, s.arg)).isEmpty = false := by
        simpa using hnil
      obtain ⟨g₁, reduced, t₁, hall, hP₁, -⟩ := h.round_ok hP
      obtain ⟨run, t', hrun, hP', hsettled⟩ := h.rounds_ok limit hP₁
      rw [hne, if_neg Bool.false_ne_true, hall, ok_bind]
      simp only [hrun, ok_bind]
      exact ⟨_, t', rfl, hP', hsettled⟩

/-- A run of a sound reduction goes through, keeps what the reduction keeps and, if it settles, leaves no
sites. -/
theorem run_ok (h : r.Sound site P) (limit : Nat) {g : Graph} {t : BlockTree} (hP : P g t)
    (harity : g.firstMismatch = .ok none) :
    ∃ run t', r.run limit g = .ok run ∧ P run.graph t' ∧
      (run.settled = true → ∀ p ∈ t'.toArms.subtrees, site p.1 p.2 = none) := by
  obtain ⟨run, t', hrun, hrest⟩ := h.rounds_ok (effectiveLimit limit) hP
  refine ⟨run, t', ?_, hrest⟩
  simp only [Reduction.run, harity, hrun]

end Sound

end Reduction

end Unguard
