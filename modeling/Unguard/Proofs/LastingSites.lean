import Unguard.Proofs.Subtrees

/-!
# Sites last until they are reduced

The sites of a round are all looked up before the first of them is reduced, and reducing one inserts
nodes, erases nodes and redirects slots all over the graph.  None of it spoils another site.  No site is
inside another one, and when the turn of a site has come its node is still live and reached, still stands
where it stood, and is matched as it was when the sites were looked up (`Graph.sitesLast_of_runs`).

That the node is still a site with the same result is part of what makes a reduction sound
(`Reduction.Sound.applyAll_ok`).  For its place there is an invariant of its own, `Graph.Unmoved`: a node
that is placed is only ever detached, since the nodes that are put somewhere are new.
-/

namespace Unguard

/-! ### Nodes keep their places -/

namespace Graph

/-- The nodes of `g` stand in `h` where they stood in `g`, or nowhere. -/
structure Unmoved (g h : Graph) : Prop where
  size : g.nodes.size ≤ h.nodes.size
  place : ∀ n : NodeId, n.index < g.nodes.size →
    h.parentOf? n = g.parentOf? n ∨ h.parentOf? n = none

namespace Unmoved

variable {g h h' : Graph}

theorem refl (g : Graph) : Unmoved g g :=
  ⟨Nat.le_refl _, fun _ _ => Or.inl rfl⟩

/-- Only the nodes matter. -/
theorem congr (hu : Unmoved g h) (hnodes : h'.nodes = h.nodes) : Unmoved g h' := by
  refine ⟨hnodes ▸ hu.size, fun n hn => ?_⟩
  have hsame : h'.parentOf? n = h.parentOf? n := by rw [parentOf?, node?, hnodes, parentOf?, node?]
  rw [hsame]
  exact hu.place n hn

/-- A node may be changed, if it is new, or stands in the same place afterwards, or nowhere. -/
theorem modifyNode (hu : Unmoved g h) (n : NodeId) {f : Node → Node}
    (hf : g.nodes.size ≤ n.index ∨ ∀ node, (f node).parent = node.parent ∨ (f node).parent = none) :
    Unmoved g (h.modifyNode n f) := by
  refine ⟨by rw [size_nodes_modifyNode]; exact hu.size, fun m hm => ?_⟩
  have hold := hu.place m hm
  rw [parentOf?, node?_modifyNode]
  split
  · rename_i hnm
    subst hnm
    -- The node is an old one, so it is left in its place or taken out of it.
    have hf := hf.resolve_left (Nat.not_le.2 hm)
    rw [parentOf?] at hold
    cases hnode : h.node? n with
    | none => exact Or.inr rfl
    | some node =>
      rw [hnode] at hold
      show (f node).parent = _ ∨ (f node).parent = none
      rcases hf node with hsame | hnone
      · rw [hsame]
        exact hold
      · exact Or.inr hnone
  · exact hold

theorem allocNode (hu : Unmoved g h) (spec : NodeSpec) : Unmoved g (h.allocNode spec).2 := by
  have hsize := hu.size
  refine ⟨by rw [size_nodes_allocNode]; omega, fun m hm => ?_⟩
  have hne : m ≠ ⟨h.nodes.size⟩ := fun he => by
    subst he
    exact absurd hm (Nat.not_lt.2 hsize)
  rw [parentOf?, node?_allocNode, if_neg hne]
  exact hu.place m hm

/-- New nodes may be put anywhere, and others nowhere. -/
theorem put (hu : Unmoved g h) {n : NodeId} {p : Option BlockId}
    (hn : g.nodes.size ≤ n.index ∨ p = none) (b : BlockId) (f : List NodeId → List NodeId) :
    Unmoved g ((h.modifyNode n fun node => { node with parent := p }).modifyBlock b fun block =>
      { block with nodes := f block.nodes }) := by
  have hnode := hu.modifyNode n (f := fun node => { node with parent := p })
    (hn.imp_right fun hp _ => Or.inr hp)
  exact hnode.congr rfl

theorem hold (hu : Unmoved g h) (values : List ValueId) (holder : Holder) :
    Unmoved g (h.hold values holder) := by
  cases holder with
  | node n => exact hu.modifyNode n (Or.inr fun _ => Or.inl rfl)
  | block b => exact hu.congr rfl

theorem assignReturns (hu : Unmoved g h) (b : BlockId) (values : List ValueId) :
    Unmoved g (h.assignReturns b values) := by
  unfold Graph.assignReturns
  split <;> exact hu.congr rfl

/-- Erasing detaches nodes. -/
theorem keptByErasing (g : Graph) : KeptByErasing (Unmoved g) where
  detach hu hok := by
    obtain ⟨node, -, hok⟩ := bind_eq_ok_iff.1 hok
    split at hok
    · exact Except.ok.inj hok ▸ hu
    · exact Except.ok.inj hok ▸ hu.put (Or.inr rfl) _ (List.filter (· ≠ _))
  clearReturns hu hok := by
    obtain ⟨block, -, hok⟩ := bind_eq_ok_iff.1 hok
    exact Except.ok.inj hok ▸ hu.assignReturns _ _
  release hu hok := by
    obtain rfl := release_eq_ok hok
    exact hu.congr rfl
  remove {h h' n} hu hok := by
    obtain ⟨node, -, hok⟩ := bind_eq_ok_iff.1 hok
    split at hok
    · cases hok
    obtain rfl := Except.ok.inj hok
    have huses : Unmoved g { h with uses := h.uses.leave (Holder.slots (.node n) node.inputs) } :=
      hu.congr rfl
    exact huses.modifyNode n (f := fun node => { node with released := true })
      (Or.inr fun _ => Or.inl rfl)

/-- Hoisting puts the nodes that it makes somewhere, and no others. -/
theorem keptByHoisting (g : Graph) : KeptByHoisting fun _ h => Unmoved g h where
  perm _ hu := hu
  newBlock hu := hu.congr rfl
  allocParam _ _ hu := hu.congr rfl
  assignReturns values _ hu := hu.assignReturns _ values
  allocNode spec hu := hu.allocNode spec
  attachNew spec _ hu := (hu.allocNode spec).put (Or.inl hu.size) _ (· ++ [_])
  insertNew {_ _ _ anchor} spec hu hok := by
    obtain ⟨node, b, block, -, -, -, -, rfl⟩ := insertBefore_eq_ok hok
    exact (hu.allocNode spec).put (Or.inl hu.size) b (NodeId.insertBefore _ anchor)
  withUses _ hu := hu.congr rfl
  hold values holder hu := hu.hold values holder
  erasing _ := keptByErasing g

end Unmoved

end Graph

/-! ### The sites of a round -/

namespace Reduction

variable {α : Type}

/-- What was a site in `g` is the same site in `h` and can be reduced there. -/
structure Lasts (r : Reduction α) (g h : Graph) (n : NodeId) (a : α) : Prop where
  live : n.index < h.nodes.size ∧ h.isLive n = true
  reached : h.ReachesNode n
  place : ∃ b, g.parentOf? n = some b ∧ h.parentOf? n = some b
  before : r.site? g n = some a
  after : r.site? h n = some a
  reduces : ∃ next, r.apply h n a = .ok next

/-- No site is inside another one, and every site lasts until those before it are reduced. -/
def SitesLast (r : Reduction α) (g : Graph) : Prop :=
  ∃ sites, r.sites g = .ok sites ∧
    sites.Pairwise (fun s s' => ¬ g.EnclosesNode s.1 s'.1 ∧ ¬ g.EnclosesNode s'.1 s.1) ∧
    ∀ before n a after, sites = before ++ (n, a) :: after →
      ∃ h reduced, r.applyAll g before = .ok (h, reduced) ∧ r.Lasts g h n a

namespace Sound

variable {r : Reduction α} {site : NodeView → BlockTrees → Option α} {P : Graph → BlockTree → Prop}
  {g h : Graph} {t t' : BlockTree}

/-- A site encloses its own nodes. -/
theorem enclosesNode_iff (hr : r.Sound site P) (hP : P g t) {s : Site α} (hs : s.In site t.toArms)
    {m : NodeId} : g.EnclosesNode s.node m ↔ m ∈ s.ids := by
  obtain ⟨p, hp, hid, hids, -⟩ := hs
  have hg := hr.represents hP
  rw [Site.ids, ← hid, ← hids, hg.enclosesNode_iff (List.nodup_cons.1 (hg.nodup_subtree hp)).2 hp]

/-- The sites of a round are apart from each other. -/
theorem pairwise_sites (hr : r.Sound site P) (hP : P g t) :
    ((t.toArms.sites site).map fun s => (s.node, s.arg)).Pairwise fun s s' =>
      ¬ g.EnclosesNode s.1 s'.1 ∧ ¬ g.EnclosesNode s'.1 s.1 := by
  rw [List.pairwise_map]
  refine (List.nodup_flatMap.1 (hr.nodup_sites hP)).2.imp_of_mem fun {s s'} hs hs' hapart => ?_
  have hself : ∀ s : Site α, s.node ∈ s.ids := fun s => List.mem_cons_self
  rw [hr.enclosesNode_iff hP (Arms.mem_sites hs), hr.enclosesNode_iff hP (Arms.mem_sites hs')]
  exact ⟨fun hin => hapart hin (hself s'), fun hin => hapart (hself s) hin⟩

/-- A site of one graph that is a site of another lasts, if nodes keep their places. -/
theorem lasts (hr : r.Sound site P) (hP : P g t) (hP' : P h t') (hu : g.Unmoved h) {s : Site α}
    (hs : s.In site t.toArms) (hs' : s.In site t'.toArms) : r.Lasts g h s.node s.arg := by
  obtain ⟨p, hp, hid, -, hsite⟩ := hs
  obtain ⟨p', hp', hid', -, hsite'⟩ := hs'
  have hg := hr.represents hP
  have hh := hr.represents hP'
  have hn : s.node ∈ t'.toArms.ids := hid' ▸ Arms.mem_ids.2 ⟨p', hp', rfl⟩
  obtain ⟨next, -, hnext, -⟩ := hr.apply_ok hP' p' hp' s.arg hsite'
  refine ⟨hh.live_iff_mem_ids.2 hn, hh.reachesNode_iff.2 hn, ?_, ?_, ?_, next, hid' ▸ hnext⟩
  · obtain ⟨b, -, hnode, -⟩ := hg.parent hp
    obtain ⟨c, -, hnode', -⟩ := hh.parent hp'
    rw [hid] at hnode
    rw [hid'] at hnode'
    have hb : g.parentOf? s.node = some b := by
      rw [Graph.parentOf?, hnode]
      rfl
    have hc : h.parentOf? s.node = some c := by
      rw [Graph.parentOf?, hnode']
      rfl
    refine ⟨b, hb, ?_⟩
    -- it stands somewhere, so it was not detached
    rcases hu.place s.node (g.index_lt_of_node? hnode) with hsame | hnone
    · exact hsame.trans hb
    · cases hc.symm.trans hnone
  · rw [← hid, hr.site?_eq hP p hp, hsite]
  · rw [← hid', hr.site?_eq hP' p' hp', hsite']

theorem sitesLast (hr : r.Sound site P)
    (hkept : ∀ {g h n a h'}, Graph.Unmoved g h → r.apply h n a = .ok h' → Graph.Unmoved g h')
    (hP : P g t) : r.SitesLast g := by
  refine ⟨_, hr.sites_eq hP, hr.pairwise_sites hP, fun before n a after hsplit => ?_⟩
  obtain ⟨first, others, hsites, rfl, hothers⟩ := List.map_eq_append_iff.1 hsplit
  obtain ⟨s, later, rfl, hs, -⟩ := List.map_eq_cons_iff.1 hothers
  obtain ⟨rfl, rfl⟩ := Prod.mk.inj hs
  have hin : ∀ s' ∈ first ++ s :: later, s'.In site t.toArms := fun s' hs' =>
    Arms.mem_sites (hsites ▸ hs')
  have hnodup : (first.flatMap Site.ids ++ s.ids).Nodup := by
    have hall := hr.nodup_sites hP
    rw [hsites, List.flatMap_append, List.flatMap_cons] at hall
    exact hall.sublist ((List.sublist_append_left _ _).append_left _)
  -- The sites before this one are reduced, and it is apart from them.
  obtain ⟨h, reduced, t', hall, hP', -, hkeeps⟩ := hr.applyAll_ok hP
    (fun s' hs' => hin s' (List.mem_append_left _ hs')) hnodup.of_append_left
  have hs : s.In site t.toArms := hin s (List.mem_append_right _ List.mem_cons_self)
  have hu := keeps_applyAll (P := g.Unmoved) hkept (.refl g) hall
  exact ⟨h, reduced, hall, hr.lasts hP hP' hu hs (hkeeps s hs hnodup)⟩

end Sound

end Reduction

namespace Graph

/-- In every round of guard removal and of hoisting sites last until they are reduced, if the graph was
left by passes of one that was read and in which arms return what they should. -/
theorem sitesLast_of_runs (source : String) (g₀ : Graph) (hread : Graph.ofText source = .ok g₀)
    (harity : g₀.firstMismatch = .ok none) (runs : List PassRun) : ∃ g, g₀.applyRuns runs = .ok g ∧
    (∀ j, ∃ run, guardRemoval.rounds j g = .ok run ∧ guardRemoval.SitesLast run.graph) ∧
    ∀ (ops : OpSet) (j : Nat), ∃ run, (hoisting ops).rounds j g = .ok run ∧
      (hoisting ops).SitesLast run.graph := by
  obtain ⟨g, t, hruns, hholds⟩ := balanced_of_runs hread harity runs
  refine ⟨g, hruns, fun j => ?_, fun ops j => ?_⟩
  · have hsound := KeptByPasses.guardRemoval_sound_balanced
    obtain ⟨run, t', hrun, hholds', -⟩ := hsound.rounds_ok j hholds
    exact ⟨run, hrun, hsound.sitesLast (fun hu hok => (Unmoved.keptByErasing _).erase hu hok) hholds'⟩
  · have hsound := KeptByPasses.hoisting_sound_balanced ops
    obtain ⟨run, t', hrun, hholds', -⟩ := hsound.rounds_ok j hholds
    exact ⟨run, hrun, hsound.sitesLast (fun hu hok => (Unmoved.keptByHoisting _).hoist [] hu hok) hholds'⟩

/-- Two conditionals to hoist in one round, of which the second takes the output of the first. -/
def chainedComputations : String :=
  "graph(%c: core.bool, %x: core.t) \x7b %y = if(%c) : core.t \x7b %z = aten.f(%x) : core.t " ++
    "return %z \x7d else \x7b raise() return %x \x7d if(%c) \x7b aten.f(%y) \x7d else \x7b raise() \x7d " ++
    "return %x \x7d"

/-- Hoisting the first redirects a slot inside the second, which is the same site all the same. -/
theorem sitesLast_of_runs_chainedComputations : ∃ g₀ g h reduced,
    Graph.ofText chainedComputations = .ok g₀ ∧ g₀.firstMismatch = .ok none ∧
    g₀.applyRuns [.guardRemoval 1] = .ok g ∧
    (hoisting (.ofList [⟨"aten", "f"⟩])).sites g = .ok [(⟨2⟩, ⟨1⟩), (⟨5⟩, ⟨3⟩)] ∧
    (hoisting (.ofList [⟨"aten", "f"⟩])).applyAll g [(⟨2⟩, ⟨1⟩)] = .ok (h, reduced) ∧
    (hoisting (.ofList [⟨"aten", "f"⟩])).Lasts g h ⟨5⟩ ⟨3⟩ := by
  have hsites : (Graph.ofText chainedComputations).toOption.bind (fun g₀ =>
      (g₀.applyRuns [.guardRemoval 1]).toOption.bind fun g =>
        ((hoisting (.ofList [⟨"aten", "f"⟩])).sites g).toOption.map fun sites =>
          (g₀.firstMismatch.toOption, sites)) = some (some none, [(⟨2⟩, ⟨1⟩), (⟨5⟩, ⟨3⟩)]) := by
    decide +kernel
  simp only [Option.bind_eq_some_iff, Option.map_eq_some_iff, toOption_eq_some_iff,
    Prod.mk.injEq] at hsites
  obtain ⟨g₀, hread, g, hruns, sites, hsites, harity, rfl⟩ := hsites
  obtain ⟨g', hruns', -, hlast⟩ := sitesLast_of_runs chainedComputations g₀ hread harity
    [.guardRemoval 1]
  obtain rfl := Except.ok.inj (hruns'.symm.trans hruns)
  -- no round has taken place yet
  obtain ⟨run, hrun, sites, hfound, -, hlast⟩ := hlast (.ofList [⟨"aten", "f"⟩]) 0
  obtain rfl := Except.ok.inj hrun
  obtain rfl := Except.ok.inj (hfound.symm.trans hsites)
  obtain ⟨h, reduced, hall, hlasts⟩ := hlast [(⟨2⟩, ⟨1⟩)] ⟨5⟩ ⟨3⟩ [] rfl
  exact ⟨g₀, g', h, reduced, hread, harity, hruns', hsites, hall, hlasts⟩

end Graph

end Unguard
