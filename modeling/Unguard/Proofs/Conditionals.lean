import Unguard.Lower.Guard
import Unguard.Lower.Hoist
import Unguard.Proofs.Represents
import Unguard.Proofs.Relabeling

/-!
# Conditionals in trees

Whether a conditional is a guard or a guarded computation is read off its subtree: its kind, its two
arms, their parameters and how they end.  In a graph that represents a tree the two readings agree
(`Represents.isGuard_eq`, `Represents.computingArm?_eq`).  No reading looks at the numbers of nodes,
blocks or values, so all of them stay the same when these are changed (`NodeView.computingArm?_map`).

`Arms.Shaped` says that conditionals own two blocks and other nodes none, `Arms.Balanced` that blocks
return as many values as their node has outputs.  `Arms.conditionals` counts the conditionals; putting
what an arm holds in the place of a conditional leaves fewer (`Arms.conditionals_replace_lt`).
-/

namespace Unguard

/-! ### Blocks with what they hold -/

/-- The blocks of the sequence itself, each with what it holds. -/
def Arms.members : BlockTrees → List BlockTree
  | .done => []
  | .arm head body rest => ⟨head, body⟩ :: rest.members

theorem Arms.map_head_members (arms : BlockTrees) : arms.members.map BlockTree.head = arms.heads := by
  cases arms with
  | done => rfl
  | arm head _ rest => exact congrArg (head :: ·) rest.map_head_members

theorem Arms.map_id_members (arms : BlockTrees) :
    arms.members.map (fun m => m.head.id) = arms.headIds := by
  rw [Arms.headIds, ← arms.map_head_members, List.map_map]
  rfl

/-- A block with other data everywhere. -/
def BlockTree.map (f : NodeView → NodeView) (k : BlockView → BlockView) (t : BlockTree) : BlockTree :=
  ⟨k t.head, t.body.map f k⟩

theorem Arms.members_map (f : NodeView → NodeView) (k : BlockView → BlockView) (arms : BlockTrees) :
    (arms.map f k).members = arms.members.map (BlockTree.map f k) := by
  cases arms with
  | done => rfl
  | arm _ _ rest => exact congrArg (List.cons _) (rest.members_map f k)

/-- What a block gives is part of what its sequence gives. -/
theorem Arms.collect_sublist {γ : Type} (f : NodeView → List γ) (k : BlockView → List γ)
    {m : BlockTree} : ∀ {arms : BlockTrees}, m ∈ arms.members →
    (k m.head ++ m.body.collect f k).Sublist (arms.collect f k)
  | .arm head body rest, h => by
    rw [Arms.collect, ← List.append_assoc]
    rcases List.mem_cons.1 h with rfl | h
    · exact List.sublist_append_left _ _
    · exact (Arms.collect_sublist f k h).trans (List.sublist_append_right _ _)

theorem Arms.definitions_subset {m : BlockTree} {arms : BlockTrees} (h : m ∈ arms.members) :
    NodeTrees.definitions m.body ⊆ BlockTrees.definitions arms := by
  rw [NodeTrees.definitions_eq_collect, BlockTrees.definitions_eq_collect]
  exact ((List.sublist_append_right _ _).trans (Arms.collect_sublist _ _ h)).subset

theorem Arms.subtrees_subset {m : BlockTree} : ∀ {arms : BlockTrees}, m ∈ arms.members →
    m.body.subtrees ⊆ arms.subtrees
  | .arm head body rest, h => by
    rw [Arms.subtrees]
    rcases List.mem_cons.1 h with rfl | h
    · exact List.subset_append_left _ _
    · exact List.Subset.trans (Arms.subtrees_subset h) (List.subset_append_right _ _)

/-- What is visible in a member is what is visible outside, and its parameters. -/
theorem Arms.Scoped.member {m : BlockTree} {visible : List ValueId} : ∀ {arms : BlockTrees},
    arms.Scoped visible → m ∈ arms.members → m.body.Scoped (m.head.params ++ visible) ∧
      m.head.returns ⊆ m.body.outputs ++ (m.head.params ++ visible)
  | .arm head body rest, ⟨hbody, hreturns, hrest⟩, h => by
    rcases List.mem_cons.1 h with rfl | h
    · exact ⟨hbody, hreturns⟩
    · exact hrest.member h

theorem Arms.Stand.member {g : Graph} {m : BlockTree} : ∀ {arms : BlockTrees}
    {owner : Option NodeId}, arms.Stand g owner → m ∈ arms.members →
    g.block? m.head.id = some (m.head.entry m.body.headIds owner) ∧
      m.body.Stand g (some m.head.id)
  | .arm head body rest, owner, ⟨hhead, hbody, hrest⟩, h => by
    rcases List.mem_cons.1 h with rfl | h
    · exact ⟨hhead, hbody⟩
    · exact hrest.member h

theorem Body.Stand.exists_entry {g : Graph} {x : NodeView} : ∀ {body : NodeTrees}
    {parent : Option BlockId}, body.Stand g parent → x ∈ body.heads →
    ∃ blocks, g.node? x.id = some (x.entry blocks parent)
  | .node head arms rest, parent, ⟨hhead, _, hrest⟩, hx => by
    rcases List.mem_cons.1 hx with rfl | hx
    · exact ⟨_, hhead⟩
    · exact hrest.exists_entry hx

/-! ### How blocks end -/

/-- How nodes end. -/
def Body.ending (body : NodeTrees) : ArmEnding :=
  match body.heads.getLast? with
  | none => .empty
  | some head => if head.kind = .raise then .inRaise else .inOther head.kind

/-- New data that keep kinds and the numbers of outputs, parameters and returned values. -/
structure Faithful (f : NodeView → NodeView) (k : BlockView → BlockView) : Prop where
  kind : ∀ x, (f x).kind = x.kind
  outputs : ∀ x, (f x).outputs.length = x.outputs.length
  params : ∀ b, (k b).params.length = b.params.length
  returns : ∀ b, (k b).returns.length = b.returns.length

theorem faithful_subst (σ : ValueId → ValueId) :
    Faithful (NodeView.subst σ) (BlockView.subst σ) where
  kind _ := rfl
  outputs _ := rfl
  params _ := rfl
  returns _ := List.length_map ..

theorem faithful_rename (nodes : NodeId → NodeId) (blocks : BlockId → BlockId)
    (values : ValueId → ValueId) :
    Faithful (NodeView.rename nodes values) (BlockView.rename blocks values) where
  kind _ := rfl
  outputs _ := List.length_map ..
  params _ := List.length_map ..
  returns _ := List.length_map ..

section Map

variable {f : NodeView → NodeView} {k : BlockView → BlockView}

/-- How a block ends depends on kinds alone. -/
theorem Body.ending_map (h : Faithful f k) (body : NodeTrees) :
    (body.map f k).ending = body.ending := by
  rw [Body.ending, Body.ending, Body.heads_map, List.getLast?_map]
  cases body.heads.getLast? with
  | none => rfl
  | some head => simp only [Option.map_some, h.kind]

end Map

namespace NodeView

/-- The arms of a conditional that has two, neither with parameters. -/
def bareArms? (head : NodeView) (arms : BlockTrees) : Option (BlockTree × BlockTree) :=
  match head.kind, arms.members with
  | .conditional, [first, second] =>
    if first.head.params = [] ∧ second.head.params = [] then some (first, second) else none
  | _, _ => none

/-- The computing arm of a guarded computation that ends in an operator of the set. -/
def computingArm? (ops : OpSet) (head : NodeView) (arms : BlockTrees) : Option BlockTree :=
  match head.bareArms? arms with
  | none => none
  | some (first, second) =>
    match first.body.ending, second.body.ending with
    | .inOther kind, .inRaise => if ops.containsKind kind then some first else none
    | .inRaise, .inOther kind => if ops.containsKind kind then some second else none
    | _, _ => none

/-- Whether a node is a guard. -/
def isGuard (head : NodeView) (arms : BlockTrees) : Bool :=
  match head.bareArms? arms with
  | none => false
  | some (first, second) =>
    head.outputs.isEmpty &&
      match first.body.ending, second.body.ending with
      | .inRaise, .empty | .empty, .inRaise => true
      | _, _ => false

/-- Bare arms are the two arms of a conditional, and neither has parameters. -/
theorem members_of_bareArms? {head : NodeView} {arms : BlockTrees} {first second : BlockTree}
    (h : head.bareArms? arms = some (first, second)) :
    head.kind = .conditional ∧ arms.members = [first, second] ∧ first.head.params = [] ∧
      second.head.params = [] := by
  rw [bareArms?] at h
  split at h
  · rename_i a b hkind hmembers
    split at h
    · rename_i hparams
      cases h
      exact ⟨hkind, hmembers, hparams⟩
    · exact nomatch h
  · exact nomatch h

/-- A computing arm ends in an operator of the set, and the other arm in a raise. -/
theorem computingArm?_eq_some_iff {ops : OpSet} {head : NodeView} {arms : BlockTrees}
    {m : BlockTree} : head.computingArm? ops arms = some m ↔
      ∃ first second kind, head.bareArms? arms = some (first, second) ∧
        ops.containsKind kind = true ∧
          (first.body.ending = .inOther kind ∧ second.body.ending = .inRaise ∧ m = first ∨
            first.body.ending = .inRaise ∧ second.body.ending = .inOther kind ∧ m = second) := by
  rw [computingArm?]
  cases head.bareArms? arms with
  | none => simp
  | some p =>
    obtain ⟨first, second⟩ := p
    simp only [Option.some.injEq, Prod.mk.injEq]
    constructor
    · -- One arm has to end in an operator and the other in a raise, either way round.
      intro h
      split at h
      · rename_i kind h₁ h₂
        split at h
        · exact ⟨first, second, kind, ⟨rfl, rfl⟩, ‹_›, Or.inl ⟨h₁, h₂, (Option.some.inj h).symm⟩⟩
        · exact nomatch h
      · rename_i kind h₁ h₂
        split at h
        · exact ⟨first, second, kind, ⟨rfl, rfl⟩, ‹_›, Or.inr ⟨h₁, h₂, (Option.some.inj h).symm⟩⟩
        · exact nomatch h
      · exact nomatch h
    · rintro ⟨_, _, kind, ⟨rfl, rfl⟩, hkind, ⟨h₁, h₂, rfl⟩ | ⟨h₁, h₂, rfl⟩⟩ <;>
        simp only [h₁, h₂, hkind, if_true]

/-- The arm that computes is one of the two, and has no parameters. -/
theorem mem_of_computingArm? {ops : OpSet} {head : NodeView} {arms : BlockTrees} {m : BlockTree}
    (h : head.computingArm? ops arms = some m) : m ∈ arms.members ∧ m.head.params = [] := by
  obtain ⟨first, second, kind, hbare, -, hm⟩ := computingArm?_eq_some_iff.1 h
  obtain ⟨-, hmembers, hfirst, hsecond⟩ := members_of_bareArms? hbare
  rcases hm with ⟨-, -, rfl⟩ | ⟨-, -, rfl⟩
  · exact ⟨by simp [hmembers], hfirst⟩
  · exact ⟨by simp [hmembers], hsecond⟩

theorem kind_of_computingArm? {ops : OpSet} {head : NodeView} {arms : BlockTrees} {m : BlockTree}
    (h : head.computingArm? ops arms = some m) : head.kind = .conditional := by
  obtain ⟨first, second, kind, hbare, -⟩ := computingArm?_eq_some_iff.1 h
  exact (members_of_bareArms? hbare).1

variable {f : NodeView → NodeView} {k : BlockView → BlockView}

/-- The reading of arms that were changed one by one. -/
theorem bareArms?_of_members {φ : BlockTree → BlockTree} {head head' : NodeView}
    {arms arms' : BlockTrees} (hkind : head'.kind = head.kind)
    (hmembers : arms'.members = arms.members.map φ)
    (hparams : ∀ m, (φ m).head.params = [] ↔ m.head.params = []) :
    head'.bareArms? arms' = (head.bareArms? arms).map (Prod.map φ φ) := by
  rw [bareArms?, bareArms?, hkind, hmembers]
  split
  · rename_i first second hkind hmembers
    obtain ⟨a, as, has, rfl, hmap⟩ := List.map_eq_cons_iff.1 hmembers
    obtain ⟨b, bs, rfl, rfl, hnil⟩ := List.map_eq_cons_iff.1 hmap
    obtain rfl := List.map_eq_nil_iff.1 hnil
    rw [hkind, has]
    simp only [hparams]
    split <;> rfl
  · rename_i hne
    split
    · rename_i first second hkind hmembers
      exact absurd (congrArg (List.map φ) hmembers) (hne _ _ hkind)
    · rfl

/-- Whether arms are bare is not changed by a change of names. -/
theorem bareArms?_map (h : Faithful f k) (head : NodeView) (arms : BlockTrees) :
    (f head).bareArms? (arms.map f k) =
      (head.bareArms? arms).map (Prod.map (BlockTree.map f k) (BlockTree.map f k)) := by
  refine bareArms?_of_members (h.kind head) (Arms.members_map f k arms) fun m => ?_
  rw [← List.length_eq_zero_iff, ← List.length_eq_zero_iff]
  exact (h.params m.head).symm ▸ Iff.rfl

/-- The arm that computes is found again after a change of names. -/
theorem computingArm?_map (h : Faithful f k) (ops : OpSet) (head : NodeView) (arms : BlockTrees) :
    (f head).computingArm? ops (arms.map f k) =
      (head.computingArm? ops arms).map (BlockTree.map f k) := by
  rw [computingArm?, computingArm?, bareArms?_map h]
  cases head.bareArms? arms with
  | none => rfl
  | some p =>
    have hending : ∀ t : BlockTree, (t.map f k).body.ending = t.body.ending := fun t =>
      Body.ending_map h t.body
    simp only [Option.map_some, Prod.map_apply', hending]
    split <;> simp only [apply_ite (Option.map (BlockTree.map f k)), Option.map_some, Option.map_none]

/-- A guard is a guard under other names as well. -/
theorem isGuard_map (h : Faithful f k) (head : NodeView) (arms : BlockTrees) :
    (f head).isGuard (arms.map f k) = head.isGuard arms := by
  rw [isGuard, isGuard, bareArms?_map h]
  cases head.bareArms? arms with
  | none => rfl
  | some p =>
    have hending : ∀ t : BlockTree, (t.map f k).body.ending = t.body.ending := fun t =>
      Body.ending_map h t.body
    have hempty : (f head).outputs.isEmpty = head.outputs.isEmpty := by
      rw [Bool.eq_iff_iff, List.isEmpty_iff_length_eq_zero, List.isEmpty_iff_length_eq_zero,
        h.outputs]
    simp only [Option.map_some, Prod.map_apply', hending, hempty]

end NodeView

/-! ### Reading a graph -/

namespace Graph.Represents

variable {g : Graph} {t : BlockTree} {head : NodeView} {arms : BlockTrees}

theorem outputsOf_eq (h : g.Represents t) (hmem : (head, arms) ∈ t.toArms.subtrees) :
    g.outputsOf head.id = head.outputs := by
  obtain ⟨b, block, hnode, -⟩ := h.parent hmem
  rw [outputsOf, hnode]
  rfl

/-- The tables show the same two arms as the tree. -/
theorem arms?_eq (h : g.Represents t) (hmem : (head, arms) ∈ t.toArms.subtrees) :
    g.arms? head.id = match head.kind, arms.members with
      | .conditional, [first, second] => some (first.head.id, second.head.id)
      | _, _ => none := by
  obtain ⟨b, block, hnode, -⟩ := h.parent hmem
  rw [arms?, hnode]
  simp only [bind, Option.bind, NodeView.entry]
  rw [← arms.map_id_members]
  cases head.kind with
  | conditional =>
    rcases arms.members with _ | ⟨first, _ | ⟨second, _ | ⟨third, rest⟩⟩⟩ <;> rfl
  | op name => rfl
  | raise => rfl

theorem paramCount_eq (h : g.Represents t) (hmem : (head, arms) ∈ t.toArms.subtrees)
    {m : BlockTree} (hm : m ∈ arms.members) : g.paramCount m.head.id = m.head.params.length := by
  rw [paramCount, ((h.stand_inside hmem).member hm).1]
  rfl

theorem returnCount_eq (h : g.Represents t) (hmem : (head, arms) ∈ t.toArms.subtrees)
    {m : BlockTree} (hm : m ∈ arms.members) : g.returnCount m.head.id = m.head.returns.length := by
  rw [returnCount, ((h.stand_inside hmem).member hm).1]
  rfl

/-- The last node of an arm in the tables is the last node of the arm in the tree. -/
theorem armEnding_eq (h : g.Represents t) (hmem : (head, arms) ∈ t.toArms.subtrees)
    {m : BlockTree} (hm : m ∈ arms.members) : g.armEnding m.head.id = m.body.ending := by
  obtain ⟨hblock, hbody⟩ := (h.stand_inside hmem).member hm
  have hlast : g.lastNode? m.head.id = m.body.heads.getLast?.map NodeView.id := by
    rw [lastNode?, hblock, ← List.getLast?_map]
    rfl
  rw [armEnding, hlast, Body.ending]
  cases hx : m.body.heads.getLast? with
  | none => rfl
  | some x =>
    obtain ⟨blocks, hentry⟩ := hbody.exists_entry (List.mem_of_getLast? hx)
    rw [Option.map_some, Option.bind_some, hentry]
    rfl

theorem bareArms?_eq (h : g.Represents t) (hmem : (head, arms) ∈ t.toArms.subtrees) :
    g.bareArms? head.id = (head.bareArms? arms).map fun p => (p.1.head.id, p.2.head.id) := by
  rw [bareArms?, h.arms?_eq hmem, NodeView.bareArms?]
  split
  · rename_i first second hkind hmembers
    have hfirst := h.paramCount_eq hmem (m := first) (by simp [hmembers])
    have hsecond := h.paramCount_eq hmem (m := second) (by simp [hmembers])
    simp only [Option.bind_eq_bind, Option.bind_some, hfirst, hsecond, List.length_eq_zero_iff]
    split <;> rfl
  · rfl

/-- The tables and the tree agree on which arm computes. -/
theorem computingArm?_eq (h : g.Represents t) (hmem : (head, arms) ∈ t.toArms.subtrees)
    (ops : OpSet) :
    g.computingArm? ops head.id = (head.computingArm? ops arms).map fun m => m.head.id := by
  rw [computingArm?, NodeView.computingArm?, h.bareArms?_eq hmem]
  cases hbare : head.bareArms? arms with
  | none => rfl
  | some p =>
    obtain ⟨first, second⟩ := p
    obtain ⟨-, hmembers, -⟩ := NodeView.members_of_bareArms? hbare
    have hfirst := h.armEnding_eq hmem (m := first) (by simp [hmembers])
    have hsecond := h.armEnding_eq hmem (m := second) (by simp [hmembers])
    simp only [Option.map_some, hfirst, hsecond]
    cases first.body.ending <;> cases second.body.ending <;>
      simp only [apply_ite (Option.map fun m : BlockTree => m.head.id), Option.map_some,
        Option.map_none]

/-- The tables and the tree agree on what a guard is. -/
theorem isGuard_eq (h : g.Represents t) (hmem : (head, arms) ∈ t.toArms.subtrees) :
    g.isGuard head.id = head.isGuard arms := by
  rw [isGuard, NodeView.isGuard, h.bareArms?_eq hmem, h.outputsOf_eq hmem]
  cases hbare : head.bareArms? arms with
  | none => rfl
  | some p =>
    obtain ⟨first, second⟩ := p
    obtain ⟨-, hmembers, -⟩ := NodeView.members_of_bareArms? hbare
    have hfirst := h.armEnding_eq hmem (m := first) (by simp [hmembers])
    have hsecond := h.armEnding_eq hmem (m := second) (by simp [hmembers])
    simp only [Option.map_some]
    exact hfirst ▸ hsecond ▸ rfl

end Graph.Represents

/-! ### The shape of trees -/

/-- Every node and the blocks it owns are related by `Q`. -/
def Arms.AllNodes (Q : NodeView → List BlockView → Prop) (arms : BlockTrees) : Prop :=
  ∀ p ∈ arms.subtrees, Q p.1 p.2.heads

@[inherit_doc Arms.AllNodes]
def Body.AllNodes (Q : NodeView → List BlockView → Prop) (body : NodeTrees) : Prop :=
  ∀ p ∈ body.subtrees, Q p.1 p.2.heads

/-- Conditionals own two blocks, other nodes none. -/
def Arms.Shaped (arms : BlockTrees) : Prop :=
  arms.AllNodes fun head blocks =>
    if head.kind = .conditional then blocks.length = 2 else blocks = []

/-- Blocks return as many values as their node has outputs. -/
def Arms.Balanced (arms : BlockTrees) : Prop :=
  arms.AllNodes fun head blocks => ∀ b ∈ blocks, b.returns.length = head.outputs.length

namespace Arms

variable {Q : NodeView → List BlockView → Prop} {arms : BlockTrees}

/-- A property of all nodes is kept if what takes the place of a node has it. -/
theorem AllNodes.replace (h : arms.AllNodes Q) {new : NodeTrees} (hnew : new.AllNodes Q)
    (n : NodeId) : (arms.replace n new).AllNodes Q := by
  intro p hp
  obtain hp | ⟨inside, hinside, heq⟩ := Arms.mem_subtrees_replace hp
  · exact hnew p hp
  · rw [heq, Arms.heads_replace]
    exact h _ hinside

theorem AllNodes.replace_done (h : arms.AllNodes Q) (n : NodeId) :
    (arms.replace n .done).AllNodes Q :=
  h.replace (fun _ hp => absurd hp List.not_mem_nil) n

theorem AllNodes.map {f : NodeView → NodeView} {k : BlockView → BlockView} (h : arms.AllNodes Q)
    (hQ : ∀ x bs, Q x bs → Q (f x) (bs.map k)) : (arms.map f k).AllNodes Q := by
  intro p hp
  rw [Arms.subtrees_map] at hp
  obtain ⟨q, hq, rfl⟩ := List.mem_map.1 hp
  rw [Arms.heads_map]
  exact hQ _ _ (h q hq)

variable {f : NodeView → NodeView} {k : BlockView → BlockView}

/-- A change of names keeps conditionals with two arms and other nodes without any. -/
theorem Shaped.map (h : arms.Shaped) (hf : Faithful f k) : (arms.map f k).Shaped := by
  refine AllNodes.map h fun x bs hx => ?_
  rw [hf.kind]
  split at hx
  · rename_i hkind
    rw [if_pos hkind, List.length_map]
    exact hx
  · rename_i hkind
    rw [if_neg hkind, hx]
    rfl

theorem Balanced.map (h : arms.Balanced) (hf : Faithful f k) : (arms.map f k).Balanced := by
  refine AllNodes.map h fun x bs hx b hb => ?_
  obtain ⟨c, hc, rfl⟩ := List.mem_map.1 hb
  rw [hf.returns, hf.outputs]
  exact hx c hc

end Arms

/-! ### Counting conditionals -/

/-- The number of conditionals at every depth. -/
def Body.conditionals (body : NodeTrees) : Nat :=
  body.nodes.countP fun x => x.kind = .conditional

@[inherit_doc Body.conditionals]
def Arms.conditionals (arms : BlockTrees) : Nat :=
  arms.nodes.countP fun x => x.kind = .conditional

namespace Arms

/-- A change of names does not change the number of conditionals. -/
theorem conditionals_map {f : NodeView → NodeView} {k : BlockView → BlockView} (h : Faithful f k)
    (arms : BlockTrees) : (arms.map f k).conditionals = arms.conditionals := by
  rw [conditionals, Arms.nodes_map, List.countP_map]
  refine List.countP_congr fun x _ => ?_
  show decide ((f x).kind = .conditional) = true ↔ _
  rw [h.kind]

/-- An arm has no more conditionals than all arms together. -/
theorem conditionals_member {m : BlockTree} {arms : BlockTrees} (h : m ∈ arms.members) :
    m.body.conditionals ≤ arms.conditionals := by
  rw [Body.conditionals, conditionals, Body.nodes_eq_collect, Arms.nodes_eq_collect]
  exact (Arms.collect_sublist (fun v => [v]) (fun _ => []) h).countP_le

/-- A conditional makes room for as many conditionals as it holds. -/
theorem conditionals_replace_lt {head : NodeView} {arms more : BlockTrees} {new : NodeTrees}
    (hids : more.ids.Nodup) (hmem : (head, arms) ∈ more.subtrees) (hkind : head.kind = .conditional)
    (hnew : new.conditionals ≤ arms.conditionals) :
    (more.replace head.id new).conditionals < more.conditionals := by
  have hid : head.id ∈ more.ids := Arms.mem_ids.2 ⟨_, hmem, rfl⟩
  have hbefore := (Arms.nodes_perm hids hmem).countP_eq fun x => x.kind = .conditional
  have hafter := (Arms.collect_replace (fun v => [v]) (fun _ => []) new hids hid).countP_eq
    fun x => x.kind = .conditional
  rw [← Arms.nodes_eq_collect, ← Arms.nodes_eq_collect, ← Body.nodes_eq_collect,
    List.countP_append] at hafter
  rw [List.countP_append, List.countP_cons_of_pos (by simp [hkind])] at hbefore
  unfold Body.conditionals conditionals at *
  omega

end Arms

/-! ### Looking for mismatches -/

mutual

theorem Body.walk_descend : ∀ body : NodeTrees, body.walk (fun _ => .descend) = ⟨body.ids, none⟩
  | .done => rfl
  | .node head arms rest => by
    rw [Body.walk, Arms.walk_descend arms, Body.walk_descend rest]
    rfl

/-- A walk that never stops goes through all nodes, in the order of the text. -/
theorem Arms.walk_descend : ∀ arms : BlockTrees, arms.walk (fun _ => .descend) = ⟨arms.ids, none⟩
  | .done => rfl
  | .arm head body rest => by
    rw [Arms.walk, Body.walk_descend body, Arms.walk_descend rest]
    rfl

end

/-- The first of two arms that returns another number of values than the node has outputs. -/
def NodeView.mismatch? (head : NodeView) : List BlockView → Option ArmMismatch
  | [first, second] =>
    if first.returns.length ≠ head.outputs.length then
      some ⟨head.id, 0, head.outputs.length, first.returns.length⟩
    else if second.returns.length ≠ head.outputs.length then
      some ⟨head.id, 1, head.outputs.length, second.returns.length⟩
    else none
  | _ => none

/-- Nothing is reported of a conditional exactly if both arms return as many values as it defines. -/
theorem NodeView.mismatch?_eq_none_iff {head : NodeView} {first second : BlockView} :
    head.mismatch? [first, second] = none ↔
      first.returns.length = head.outputs.length ∧ second.returns.length = head.outputs.length := by
  rw [mismatch?]
  split
  · simp_all
  · split <;> simp_all

namespace Graph.Represents

variable {g : Graph} {t : BlockTree} {head : NodeView} {arms : BlockTrees}

/-- The tables and the tree agree on the mismatch of a conditional. -/
theorem armMismatch?_eq (h : g.Represents t) (hshape : t.toArms.Shaped)
    (hmem : (head, arms) ∈ t.toArms.subtrees) :
    g.armMismatch? head.id = head.mismatch? arms.heads := by
  have hown := hshape _ hmem
  rw [armMismatch?, h.arms?_eq hmem, ← arms.map_head_members]
  rw [← arms.map_head_members, List.length_map, List.map_eq_nil_iff] at hown
  by_cases hkind : head.kind = .conditional
  · -- A conditional has two arms, and the tables give the same counts as the tree.
    rw [if_pos hkind, List.length_eq_two] at hown
    obtain ⟨first, second, hmembers⟩ := hown
    have hfirst := h.returnCount_eq hmem (m := first) (by simp [hmembers])
    have hsecond := h.returnCount_eq hmem (m := second) (by simp [hmembers])
    rw [hkind, hmembers]
    simp only [Option.bind_eq_bind, Option.bind_some, h.outputsOf_eq hmem, hfirst, hsecond,
      List.map_cons, List.map_nil]
    rfl
  · rw [if_neg hkind] at hown
    rw [hown]
    cases hk : head.kind <;> simp_all [NodeView.mismatch?]

/-- Of nodes without arms nothing is reported. -/
theorem armMismatch?_eq_none_iff (h : g.Represents t) (hshape : t.toArms.Shaped)
    (hmem : (head, arms) ∈ t.toArms.subtrees) : g.armMismatch? head.id = none ↔
      ∀ b ∈ arms.heads, b.returns.length = head.outputs.length := by
  have hown := hshape _ hmem
  rw [h.armMismatch?_eq hshape hmem]
  dsimp only at hown
  split at hown
  · obtain ⟨first, second, hheads⟩ := List.length_eq_two.1 hown
    rw [hheads, NodeView.mismatch?_eq_none_iff]
    simp
  · rw [hown]
    simp [NodeView.mismatch?]

/-- A graph has no mismatch exactly if its tree is balanced. -/
theorem firstMismatch_eq_ok_none_iff (h : g.Represents t) (hshape : t.toArms.Shaped) :
    g.firstMismatch = .ok none ↔ t.toArms.Balanced := by
  have hids : t.body.ids = t.toArms.ids := by simp [BlockTree.toArms]
  rw [firstMismatch, h.walk_eq, Body.walk_descend, ok_bind]
  change Except.ok (List.findSome? _ t.body.ids) = _ ↔ _
  rw [Except.ok.injEq, List.findSome?_eq_none_iff, hids]
  constructor
  · intro hall p hp
    exact (h.armMismatch?_eq_none_iff hshape hp).1 (hall _ (Arms.mem_ids.2 ⟨p, hp, rfl⟩))
  · intro hbal n hn
    obtain ⟨p, hp, rfl⟩ := Arms.mem_ids.1 hn
    exact (h.armMismatch?_eq_none_iff hshape hp).2 (hbal p hp)

end Graph.Represents

end Unguard
