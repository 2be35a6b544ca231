import Unguard.Graph.Erase
import Unguard.Proofs.Tables

/-!
# Slot chains mirror the slots

A graph says twice which slots hold a value: the holders list their values, and the chain of the value
lists its slots.  `Graph.Mirrored` says that the two agree: the chain of a value lists, each once, the
slots that hold it.  Here it is shown of every effect an edit can have; `Proofs.Edits` puts the edits
together.

The slots of a released node hold nothing any more, although the node's entry still lists its inputs.
-/

namespace Unguard

/-! ### Entering and leaving chains -/

/-- Those of the slots that are listed for `v`. -/
def slotsFor (v : ValueId) (slots : List (ValueId × Slot)) : List Slot :=
  (slots.filter fun p => p.1 = v).map Prod.snd

theorem mem_slotsFor {v : ValueId} {s : Slot} {slots : List (ValueId × Slot)} :
    s ∈ slotsFor v slots ↔ (v, s) ∈ slots := by
  simp only [slotsFor, List.mem_map, List.mem_filter, decide_eq_true_eq]
  constructor
  · rintro ⟨⟨w, s'⟩, ⟨hmem, rfl⟩, rfl⟩
    exact hmem
  · intro h
    exact ⟨(v, s), ⟨h, rfl⟩, rfl⟩

theorem slotsFor_cons (v w : ValueId) (s : Slot) (slots : List (ValueId × Slot)) :
    slotsFor v ((w, s) :: slots) = if w = v then s :: slotsFor v slots else slotsFor v slots := by
  by_cases h : w = v <;> simp [slotsFor, h]

namespace UseTable

/-- New slots are put at the end of the chain of their value. -/
theorem get_enter (v : ValueId) : ∀ (slots : List (ValueId × Slot)) (t : UseTable),
    (t.enter slots).get v = t.get v ++ slotsFor v slots
  | [], t => by simp [enter, slotsFor]
  | (w, s) :: slots, t => by
    rw [enter, get_enter v slots, get_modify, slotsFor_cons]
    by_cases h : w = v <;> simp [h]

/-- Slots that leave are taken out wherever they are in the chain. -/
theorem get_leave (v : ValueId) : ∀ (slots : List (ValueId × Slot)) (t : UseTable),
    (t.leave slots).get v = (t.get v).filter (· ∉ slotsFor v slots)
  | [], t => by simp [leave, slotsFor]
  | (w, s) :: slots, t => by
    rw [leave, get_leave v slots, get_modify, slotsFor_cons]
    by_cases h : w = v
    · simp only [h, if_true, List.filter_filter]
      congr 1
      funext x
      simp [Bool.and_comm]
    · simp [h]

end UseTable

/-! ### The slots of a holder -/

namespace Holder

/-- A slot is found by its holder and its position. -/
theorem mem_slotsFrom {h : Holder} {v : ValueId} {s : Slot} :
    ∀ {values : List ValueId} {k : Nat}, (v, s) ∈ h.slotsFrom k values ↔
      s.holder = h ∧ k ≤ s.position ∧ values[s.position - k]? = some v
  | [], k => by simp [slotsFrom]
  | w :: values, k => by
    rw [slotsFrom, List.mem_cons, mem_slotsFrom, Prod.mk.injEq]
    constructor
    · -- The first slot has position `k`, and the others are counted from the next one on.
      rintro (⟨rfl, rfl⟩ | ⟨hs, hk, hv⟩)
      · simp
      · refine ⟨hs, by omega, ?_⟩
        rw [show s.position - k = s.position - (k + 1) + 1 by omega]
        simpa using hv
    · rintro ⟨hs, hk, hv⟩
      by_cases hk' : s.position = k
      · refine Or.inl ⟨?_, ?_⟩
        · rw [hk', Nat.sub_self] at hv
          simpa using hv.symm
        · cases s
          simp_all
      · refine Or.inr ⟨hs, by omega, ?_⟩
        rw [show s.position - k = s.position - (k + 1) + 1 by omega] at hv
        simpa using hv

theorem mem_slots {h : Holder} {v : ValueId} {s : Slot} {values : List ValueId} :
    (v, s) ∈ h.slots values ↔ s.holder = h ∧ values[s.position]? = some v := by
  simp [slots, mem_slotsFrom]

/-- No slot is entered twice for one value, even if a holder has the value in several positions. -/
theorem nodup_slotsFor_slotsFrom (h : Holder) (v : ValueId) : ∀ (values : List ValueId) (k : Nat),
    (slotsFor v (h.slotsFrom k values)).Nodup
  | [], k => by simp [slotsFrom, slotsFor]
  | w :: values, k => by
    have ih := nodup_slotsFor_slotsFrom h v values (k + 1)
    rw [slotsFrom, slotsFor_cons]
    split
    · refine List.nodup_cons.2 ⟨fun hmem => ?_, ih⟩
      have hk := (mem_slotsFrom.1 (mem_slotsFor.1 hmem)).2.1
      simp only at hk
      omega
    · exact ih

end Holder

namespace Graph

/-! ### Agreement of slots and chains -/

/-- The value that a slot holds.  The slots of released nodes hold none. -/
def heldIn? (g : Graph) (s : Slot) : Option ValueId :=
  match s.holder with
  | .node n => (g.node? n).bind fun node => if node.released then none else node.inputs[s.position]?
  | .block b => (g.block? b).bind fun block => block.returns[s.position]?

theorem heldIn?_node (g : Graph) (n : NodeId) (i : Nat) : g.heldIn? ⟨.node n, i⟩ =
    (g.node? n).bind fun node => if node.released then none else node.inputs[i]? := rfl

theorem heldIn?_block (g : Graph) (b : BlockId) (i : Nat) : g.heldIn? ⟨.block b, i⟩ =
    (g.block? b).bind fun block => block.returns[i]? := rfl

/-- The chain of every value lists, each once, the slots that hold it. -/
structure Mirrored (g : Graph) : Prop where
  nodup : ∀ v, (g.usesOf v).Nodup
  mem_iff : ∀ v s, s ∈ g.usesOf v ↔ g.heldIn? s = some v

variable {g g' : Graph}

/-- A block that returns other values leaves some chains and enters others at the end. -/
theorem usesOf_assignReturns {b : BlockId} {block : Block} (hb : g.block? b = some block)
    (values : List ValueId) (v : ValueId) : (g.assignReturns b values).usesOf v =
      (g.usesOf v).filter (· ∉ slotsFor v (Holder.slots (.block b) block.returns)) ++
        slotsFor v (Holder.slots (.block b) values) := by
  have huses : (g.assignReturns b values).usesOf v = ((g.uses.leave
      (Holder.slots (.block b) block.returns)).enter (Holder.slots (.block b) values)).get v := by
    simp [assignReturns, hb, usesOf, modifyBlock]
  rw [huses, UseTable.get_enter, UseTable.get_leave]
  rfl

/-- Nothing is held, and all chains are empty. -/
theorem mirrored_empty : empty.Mirrored where
  nodup v := by simp [empty, usesOf]
  mem_iff v s := by
    have h : empty.heldIn? s = none := by
      unfold heldIn?
      split
      · simp [empty, node?]
      · rename_i b _
        unfold block? empty
        rcases Nat.eq_zero_or_pos b.index with hb | hb
        · simp [hb, Block.empty]
        · rw [Array.getElem?_eq_none hb]
          rfl
    rw [h]
    simp [empty, usesOf]

namespace Mirrored

/-- The invariant is about chains and held values only. -/
theorem congr (h : g.Mirrored) (huses : ∀ v, g'.usesOf v = g.usesOf v)
    (hheld : ∀ s, g'.heldIn? s = g.heldIn? s) : g'.Mirrored where
  nodup v := huses v ▸ h.nodup v
  mem_iff v s := by rw [huses, hheld, h.mem_iff]

/-- A holder that held nothing begins to hold `values`. -/
theorem enter (h : g.Mirrored) (holder : Holder) (values : List ValueId)
    (huses : ∀ v, g'.usesOf v = (g.uses.enter (holder.slots values)).get v)
    (hnone : ∀ s, s.holder = holder → g.heldIn? s = none)
    (hheld : ∀ s, g'.heldIn? s =
      if s.holder = holder then values[s.position]? else g.heldIn? s) : g'.Mirrored where
  nodup v := by
    rw [huses, UseTable.get_enter, List.nodup_append]
    refine ⟨h.nodup v, holder.nodup_slotsFor_slotsFrom v values 0, ?_⟩
    -- A slot of the holder was not in any chain before.
    rintro s hs s' hs' rfl
    have hv := (h.mem_iff v s).1 hs
    rw [hnone s (Holder.mem_slots.1 (mem_slotsFor.1 hs')).1] at hv
    exact nomatch hv
  mem_iff v s := by
    rw [huses, UseTable.get_enter, List.mem_append, mem_slotsFor, Holder.mem_slots, hheld]
    change s ∈ g.usesOf v ∨ _ ↔ _
    rw [h.mem_iff]
    split
    · rename_i hs
      simp [hnone s hs, hs]
    · rename_i hs
      simp [hs]

/-- A holder stops to hold what it held, which was at most `values`. -/
theorem leave (h : g.Mirrored) (holder : Holder) (values : List ValueId)
    (huses : ∀ v, g'.usesOf v = (g.uses.leave (holder.slots values)).get v)
    (hsome : ∀ s v, s.holder = holder → g.heldIn? s = some v → values[s.position]? = some v)
    (hheld : ∀ s, g'.heldIn? s = if s.holder = holder then none else g.heldIn? s) :
    g'.Mirrored where
  nodup v := by
    rw [huses, UseTable.get_leave]
    exact (h.nodup v).filter _
  mem_iff v s := by
    rw [huses, UseTable.get_leave, List.mem_filter, decide_eq_true_eq, mem_slotsFor,
      Holder.mem_slots, hheld]
    change s ∈ g.usesOf v ∧ _ ↔ _
    rw [h.mem_iff]
    split
    · rename_i hs
      constructor
      · -- What the holder held is among the slots that leave.
        rintro ⟨hv, hnot⟩
        exact absurd ⟨hs, hsome s v hs hv⟩ hnot
      · intro hv
        exact nomatch hv
    · rename_i hs
      simp [hs]

end Mirrored

/-! ### Edits that leave the slots alone -/

/-- What is held is seen from inputs, returns and the mark of release. -/
theorem heldIn?_eq {s : Slot}
    (hnode : ∀ n, (g'.node? n).map (fun x => (x.released, x.inputs)) =
      (g.node? n).map fun x => (x.released, x.inputs))
    (hblock : ∀ b, (g'.block? b).map Block.returns = (g.block? b).map Block.returns) :
    g'.heldIn? s = g.heldIn? s := by
  unfold heldIn?
  split
  · rename_i n _
    have h := hnode n
    cases hn : g.node? n <;> cases hn' : g'.node? n <;> simp_all
  · rename_i b _
    have h := hblock b
    cases hb : g.block? b <;> cases hb' : g'.block? b <;> simp_all

namespace Mirrored

theorem withTypes (h : g.Mirrored) (types : TypeTable) : { g with types }.Mirrored :=
  h.congr (fun _ => rfl) fun _ => rfl

/-- A new block returns nothing. -/
theorem newBlock (h : g.Mirrored) : g.newBlock.2.Mirrored := by
  refine h.congr (g.usesOf_newBlock ·) fun s => ?_
  unfold heldIn?
  split
  · rfl
  · rename_i b _
    rw [block?_newBlock]
    split
    · rename_i hb
      rw [hb, (g.block?_eq_none_iff (b := ⟨g.blocks.size⟩)).2 (Nat.le_refl _)]
      rfl
    · rfl

theorem allocParam (h : g.Mirrored) (b : BlockId) (label : Label) :
    (g.allocParam b label).2.Mirrored := by
  refine h.congr (g.usesOf_allocParam b label ·) fun s => heldIn?_eq (fun n => rfl) fun c => ?_
  rw [block?_allocParam]
  exact map_ite_map fun _ => rfl

theorem modifyNode (h : g.Mirrored) (n : NodeId) (f : Node → Node)
    (hf : ∀ node, (f node).released = node.released ∧ (f node).inputs = node.inputs) :
    (g.modifyNode n f).Mirrored := by
  refine h.congr (fun _ => rfl) fun s => heldIn?_eq (fun m => ?_) fun b => rfl
  rw [node?_modifyNode]
  exact map_ite_map fun node => by rw [(hf node).1, (hf node).2]

theorem modifyBlock (h : g.Mirrored) (b : BlockId) (f : Block → Block)
    (hf : ∀ block, (f block).returns = block.returns) : (g.modifyBlock b f).Mirrored := by
  refine h.congr (fun _ => rfl) fun s => heldIn?_eq (fun n => rfl) fun c => ?_
  rw [block?_modifyBlock]
  exact map_ite_map hf

/-- Where a node stands does not matter to the chains. -/
theorem place (h : g.Mirrored) (n : NodeId) (parent : Option BlockId) (b : BlockId)
    (f : List NodeId → List NodeId) :
    ((g.modifyNode n fun node => { node with parent }).modifyBlock b fun block =>
      { block with nodes := f block.nodes }).Mirrored :=
  (h.modifyNode n (fun node => { node with parent }) fun _ => ⟨rfl, rfl⟩).modifyBlock b
    (fun block => { block with nodes := f block.nodes }) fun _ => rfl

theorem attachLast (h : g.Mirrored) (b : BlockId) (n : NodeId) : (g.attachLast b n).Mirrored :=
  h.place n (some b) b (· ++ [n])

/-! ### Edits that make slots -/

/-- The inputs of the new node enter the chains, and no slot of its was there before. -/
theorem allocNode (h : g.Mirrored) (spec : NodeSpec) : (g.allocNode spec).2.Mirrored := by
  refine h.enter (.node ⟨g.nodes.size⟩) spec.inputs (g.usesOf_allocNode spec) ?_ ?_
  · intro s hs
    simp [heldIn?, hs, (g.node?_eq_none_iff (n := ⟨g.nodes.size⟩)).2 (Nat.le_refl _)]
  · intro s
    unfold heldIn?
    split
    · rename_i n hn
      rw [node?_allocNode, hn]
      by_cases hnew : n = ⟨g.nodes.size⟩
      · simp [hnew, newEntry]
      · simp [hnew]
    · rename_i b hb
      rw [block?_allocNode, hb]
      cases g.block? b with
      | none => simp
      | some block =>
        simp only [Option.map_some, Option.bind_some, reduceCtorEq, if_false]
        split <;> rfl

/-- The same graph with nothing returned from `b`. -/
theorem clearReturns (h : g.Mirrored) (b : BlockId) {block : Block} (hb : g.block? b = some block) :
    ({ g with uses := g.uses.leave (Holder.slots (.block b) block.returns) }.modifyBlock b
      fun block => { block with returns := [] }).Mirrored := by
  refine h.leave (.block b) block.returns (fun _ => rfl) ?_ ?_
  · intro s v hs hv
    simpa [heldIn?, hs, hb] using hv
  · intro s
    unfold heldIn?
    split
    · rename_i n hn
      simp [hn, node?, Graph.modifyBlock]
    · rename_i c hc
      rw [block?_modifyBlock, hc]
      by_cases hbc : b = c
      · subst hbc
        cases hb' : block? _ b <;> simp
      · simp [hbc, Ne.symm hbc, block?]

/-- Old returns leave the chains before new ones enter them. -/
theorem assignReturns (h : g.Mirrored) (b : BlockId) (values : List ValueId) :
    (g.assignReturns b values).Mirrored := by
  cases hb : g.block? b with
  | none =>
    have : g.assignReturns b values = g := by simp [Graph.assignReturns, hb]
    rwa [this]
  | some block =>
    refine (h.clearReturns b hb).enter (.block b) values (fun v => ?_) ?_ ?_
    · simp [Graph.assignReturns, hb, usesOf, Graph.modifyBlock]
    · intro s hs
      simp [heldIn?, hs, block?_modifyBlock]
    · intro s
      unfold heldIn?
      split
      · rename_i n hn
        rw [node?_assignReturns, hn, if_neg (by simp)]
        rfl
      · rename_i c hc
        rw [block?_assignReturns, block?_modifyBlock, hc]
        by_cases hbc : b = c
        · subst hbc
          simp [hb]
        · simp [hbc, Ne.symm hbc, block?]

/-- All slots of the node leave the chains, and a released node holds nothing. -/
theorem remove (h : g.Mirrored) {n : NodeId} (hok : g.remove n = .ok g') : g'.Mirrored := by
  unfold Graph.remove at hok
  cases hn : g.node? n with
  | none => simp [Graph.node, hn, bind, Except.bind] at hok
  | some node =>
    simp only [Graph.node, hn, bind, Except.bind] at hok
    split at hok
    · exact nomatch hok
    · obtain rfl := Except.ok.inj hok
      -- Leaving asks for two things: the node holds its inputs only, and nothing but its slots changes.
      refine h.leave (.node n) node.inputs (fun _ => rfl) ?_ ?_
      · intro s v hs hv
        simp only [heldIn?, hs, hn, Option.bind_some] at hv
        split at hv
        · exact nomatch hv
        · exact hv
      · intro s
        unfold heldIn?
        split
        · rename_i m hm
          rw [node?_modifyNode, hm]
          by_cases hnm : n = m
          · subst hnm
            cases hn' : node? _ n <;> simp
          · simp [hnm, Ne.symm hnm, node?]
        · rename_i b hb
          simp [hb, block?, Graph.modifyNode]

end Mirrored

/-! ### Putting one value in the place of another -/

/-- The values of a holder with `new` in the places that `ss` lists for it. -/
def overwrite (new : ValueId) (ss : List Slot) (h : Holder) (values : List ValueId) :
    List ValueId :=
  values.mapIdx fun i v => if ⟨h, i⟩ ∈ ss then new else v

theorem overwrite_of_not_mem (new : ValueId) {ss : List Slot} {h : Holder}
    (hss : ∀ i, ⟨h, i⟩ ∉ ss) (values : List ValueId) : overwrite new ss h values = values := by
  refine List.ext_getElem? fun i => ?_
  simp [overwrite, hss]

/-- Slots can be overwritten in two goes. -/
theorem overwrite_overwrite (new : ValueId) (ss ss' : List Slot) (h : Holder)
    (values : List ValueId) :
    overwrite new ss' h (overwrite new ss h values) = overwrite new (ss ++ ss') h values := by
  unfold overwrite
  rw [List.mapIdx_mapIdx]
  congr 1
  funext i v
  by_cases h₁ : (⟨h, i⟩ : Slot) ∈ ss <;> by_cases h₂ : (⟨h, i⟩ : Slot) ∈ ss' <;> simp [h₁, h₂]

theorem overwrite_singleton_self (new : ValueId) (h : Holder) (i : Nat) (values : List ValueId) :
    overwrite new [⟨h, i⟩] h values = values.set i new := by
  refine List.ext_getElem? fun j => ?_
  rw [overwrite, List.getElem?_mapIdx, List.getElem?_set]
  by_cases hij : i = j
  · subst hij
    by_cases hi : i < values.length
    · simp [hi]
    · simp [hi]
  · simp [hij, Ne.symm hij]

theorem overwrite_singleton_of_ne (new : ValueId) {s : Slot} {h : Holder} (hs : s.holder ≠ h)
    (values : List ValueId) : overwrite new [s] h values = values := by
  refine overwrite_of_not_mem new (fun i hi => hs ?_) values
  rw [← List.mem_singleton.1 hi]

/-- `g'` is `g` with `new` in the slots `ss`, which are entered at the end of the chain of `new`. -/
structure Redirected (new : ValueId) (ss : List Slot) (g g' : Graph) : Prop where
  node? : ∀ n, g'.node? n = (g.node? n).map fun node =>
    { node with inputs := overwrite new ss (.node n) node.inputs }
  block? : ∀ b, g'.block? b = (g.block? b).map fun block =>
    { block with returns := overwrite new ss (.block b) block.returns }
  usesOf : ∀ v, g'.usesOf v = if v = new then g.usesOf v ++ ss else g.usesOf v
  values : g'.values = g.values
  types : g'.types = g.types

namespace Redirected

variable {new old : ValueId} {g₁ g₂ g₃ : Graph}

theorem refl (new : ValueId) (g : Graph) : Redirected new [] g g where
  node? n := by simp [overwrite_of_not_mem]
  block? b := by simp [overwrite_of_not_mem]
  usesOf v := by simp
  values := rfl
  types := rfl

/-- Redirecting slots in two goes redirects all of them. -/
theorem trans {ss ss' : List Slot} (h : Redirected new ss g₁ g₂) (h' : Redirected new ss' g₂ g₃) :
    Redirected new (ss ++ ss') g₁ g₃ where
  node? n := by
    rw [h'.node?, h.node?, Option.map_map]
    congr 1
    funext node
    simp [overwrite_overwrite]
  block? b := by
    rw [h'.block?, h.block?, Option.map_map]
    congr 1
    funext block
    simp [overwrite_overwrite]
  usesOf v := by
    rw [h'.usesOf, h.usesOf]
    split <;> simp
  values := h'.values.trans h.values
  types := h'.types.trans h.types

/-- A slot that holds `old` can be redirected. -/
theorem of_redirect (new : ValueId) {s : Slot} {values : List ValueId}
    (hheld : g.held s.holder = .ok values) (hold : values[s.position]? = some old) :
    ∃ g', redirect old new g s = .ok g' ∧ Redirected new [s] g g' := by
  refine ⟨_, by simp only [redirect, hheld, bind, Except.bind, hold, if_true]; rfl, ?_⟩
  obtain ⟨holder, i⟩ := s
  -- The holder is a node or a block, and the other entries stay.
  refine ⟨fun n => ?_, fun b => ?_, fun v => ?_, values_hold _ _ _, types_hold _ _ _⟩
  · rw [node?_hold]
    split
    · rename_i hn
      simp only at hn
      subst hn
      obtain ⟨node, hnode, rfl⟩ := Option.map_eq_some_iff.1 (g.held_node_eq_ok_iff.1 hheld)
      change (g.node? n).map _ = _
      rw [hnode, Option.map_some, Option.map_some, overwrite_singleton_self]
    · rename_i hn
      change g.node? n = _
      simp [overwrite_singleton_of_ne new (s := ⟨holder, i⟩) hn]
  · rw [block?_hold]
    split
    · rename_i hb
      simp only at hb
      subst hb
      obtain ⟨block, hblock, rfl⟩ := Option.map_eq_some_iff.1 (g.held_block_eq_ok_iff.1 hheld)
      change (g.block? b).map _ = _
      rw [hblock, Option.map_some, Option.map_some, overwrite_singleton_self]
    · rename_i hb
      change g.block? b = _
      simp [overwrite_singleton_of_ne new (s := ⟨holder, i⟩) hb]
  · rw [usesOf_hold]
    change (g.uses.modify new _).get v = _
    rw [UseTable.get_modify]
    by_cases hv : new = v
    · rw [if_pos hv, if_pos hv.symm]
      rfl
    · rw [if_neg hv, if_neg (Ne.symm hv)]
      rfl

/-- What a holder holds after some of its slots were redirected. -/
theorem held {ss : List Slot} (h : Redirected new ss g₁ g₂) {holder : Holder}
    {values : List ValueId} (hheld : g₁.held holder = .ok values) :
    g₂.held holder = .ok (overwrite new ss holder values) := by
  cases holder with
  | node n =>
    rw [held_node_eq_ok_iff] at hheld ⊢
    obtain ⟨node, hnode, rfl⟩ := Option.map_eq_some_iff.1 hheld
    simp [h.node?, hnode]
  | block b =>
    rw [held_block_eq_ok_iff] at hheld ⊢
    obtain ⟨block, hblock, rfl⟩ := Option.map_eq_some_iff.1 hheld
    simp [h.block?, hblock]

/-- Distinct slots that all hold `old` can be redirected one after the other. -/
theorem of_foldlM (old new : ValueId) : ∀ {ss : List Slot} {g : Graph}, ss.Nodup →
    (∀ s ∈ ss, ∃ values, g.held s.holder = .ok values ∧ values[s.position]? = some old) →
    ∃ g', ss.foldlM (redirect old new) g = .ok g' ∧ Redirected new ss g g'
  | [], g, _, _ => ⟨g, rfl, refl new g⟩
  | s :: ss, g, hnodup, hheld => by
    obtain ⟨hs, hnodup⟩ := List.nodup_cons.1 hnodup
    obtain ⟨values, hvalues, hold⟩ := hheld s List.mem_cons_self
    obtain ⟨g₁, hg₁, hred⟩ := of_redirect new hvalues hold
    -- the later slots differ from `s`, so they still hold `old`
    obtain ⟨g₂, hg₂, hred'⟩ := of_foldlM old new (g := g₁) hnodup fun s' hs' => by
      obtain ⟨values', hvalues', hold'⟩ := hheld s' (List.mem_cons_of_mem _ hs')
      refine ⟨_, hred.held hvalues', ?_⟩
      have hne : s' ≠ s := fun h => hs (h ▸ hs')
      simp [overwrite, hold', hne]
    exact ⟨g₂, by rw [List.foldlM_cons, hg₁]; exact hg₂, hred.trans hred'⟩

end Redirected

/-- `g'` is `g` with `new` in every slot that held `old`. -/
structure Substituted (old new : ValueId) (g g' : Graph) : Prop where
  node? : ∀ n, g'.node? n = (g.node? n).map fun node =>
    if node.released then node
    else { node with inputs := node.inputs.map (Function.update id old new) }
  block? : ∀ b, g'.block? b = (g.block? b).map fun block =>
    { block with returns := block.returns.map (Function.update id old new) }
  values : g'.values = g.values
  types : g'.types = g.types

/-- If the slots are all that hold a value, overwriting them replaces the value everywhere. -/
theorem overwrite_eq_map {old new : ValueId} {ss : List Slot} {h : Holder} {values : List ValueId}
    (hss : ∀ i, ⟨h, i⟩ ∈ ss ↔ values[i]? = some old) :
    overwrite new ss h values = values.map (Function.update id old new) := by
  refine List.ext_getElem? fun i => ?_
  rw [overwrite, List.getElem?_mapIdx, List.getElem?_map]
  have hi := hss i
  cases hv : values[i]? with
  | none => rfl
  | some v =>
    rw [hv, Option.some.injEq] at hi
    by_cases hvo : v = old
    · simp [hi.2 hvo, hvo]
    · simp [mt hi.1 hvo, hvo]

namespace Mirrored

theorem mem_usesOf_node (h : g.Mirrored) {v : ValueId} {n : NodeId} {i : Nat} {node : Node}
    (hn : g.node? n = some node) :
    ⟨.node n, i⟩ ∈ g.usesOf v ↔ node.released = false ∧ node.inputs[i]? = some v := by
  rw [h.mem_iff]
  cases hr : node.released <;> simp [heldIn?, hn, hr]

theorem mem_usesOf_block (h : g.Mirrored) {v : ValueId} {b : BlockId} {i : Nat} {block : Block}
    (hb : g.block? b = some block) :
    ⟨.block b, i⟩ ∈ g.usesOf v ↔ block.returns[i]? = some v := by
  rw [h.mem_iff]
  simp [heldIn?, hb]

/-- Every slot in a chain can be read, whether its holder is released or not. -/
theorem held_of_mem (h : g.Mirrored) {v : ValueId} {s : Slot} (hs : s ∈ g.usesOf v) :
    ∃ values, g.held s.holder = .ok values ∧ values[s.position]? = some v := by
  have hv := (h.mem_iff v s).1 hs
  obtain ⟨holder, i⟩ := s
  cases holder with
  | node n =>
    obtain ⟨node, hn, hv⟩ := Option.bind_eq_some_iff.1 hv
    split at hv
    · exact nomatch hv
    · exact ⟨node.inputs, g.held_node_eq_ok_iff.2 (by rw [hn]; rfl), hv⟩
  | block b =>
    obtain ⟨block, hb, hv⟩ := Option.bind_eq_some_iff.1 hv
    exact ⟨block.returns, g.held_block_eq_ok_iff.2 (by rw [hb]; rfl), hv⟩

/-- Uses of a value can always be replaced: every slot of its chain holds it. -/
theorem replaceUses_redirected (h : g.Mirrored) {old new : ValueId} (hne : old ≠ new) :
    ∃ g', g.replaceUses old new = .ok g' ∧
      Redirected new (g.usesOf old) { g with uses := g.uses.modify old fun _ => [] } g' := by
  obtain ⟨g', hg', hred⟩ := Redirected.of_foldlM old new
    (g := { g with uses := g.uses.modify old fun _ => [] }) (h.nodup old)
    fun s hs => h.held_of_mem hs
  exact ⟨g', by rw [replaceUses, if_neg hne]; exact hg', hred⟩

/-- The chain of a value has all slots that hold it, so redirecting the chain replaces the value
everywhere. -/
theorem substituted_of_redirected (h : g.Mirrored) {old new : ValueId}
    (hred : Redirected new (g.usesOf old) { g with uses := g.uses.modify old fun _ => [] } g') :
    Substituted old new g g' where
  node? n := by
    rw [hred.node?]
    change (g.node? n).map _ = _
    cases hn : g.node? n with
    | none => rfl
    | some node =>
      simp only [Option.map_some, Option.some.injEq]
      -- A removed node holds no slot of the chain; any other holds those that read `old`.
      by_cases hr : node.released = true
      · rw [if_pos hr, overwrite_of_not_mem new fun i hi => by simp [h.mem_usesOf_node hn, hr] at hi]
      · have hr' : node.released = false := by simpa using hr
        rw [if_neg hr, overwrite_eq_map fun i => (h.mem_usesOf_node hn).trans (and_iff_right hr')]
  block? b := by
    rw [hred.block?]
    change (g.block? b).map _ = _
    cases hb : g.block? b with
    | none => rfl
    | some block =>
      simp only [Option.map_some, Option.some.injEq]
      rw [overwrite_eq_map fun i => h.mem_usesOf_block hb]
  values := hred.values
  types := hred.types

end Mirrored

/-- What a slot holds afterwards is what it held, with the one value for the other. -/
theorem Substituted.heldIn? {old new : ValueId} (h : Substituted old new g g') (s : Slot) :
    g'.heldIn? s = (g.heldIn? s).map (Function.update id old new) := by
  unfold Graph.heldIn?
  split
  · rename_i n _
    rw [h.node?]
    cases g.node? n with
    | none => rfl
    | some node => cases hr : node.released <;> simp [hr]
  · rename_i b _
    rw [h.block?]
    cases g.block? b <;> simp

namespace Mirrored

/-- Uses of a value can always be replaced, and slots and chains agree afterwards. -/
theorem replaceUses_ok (h : g.Mirrored) (old new : ValueId) :
    ∃ g', g.replaceUses old new = .ok g' ∧ Substituted old new g g' ∧ g'.Mirrored := by
  by_cases hne : old = new
  · subst hne
    have hid : Function.update id old old = id := Function.update_eq_self old id
    exact ⟨g, by simp [replaceUses], ⟨by simp [hid], by simp [hid], rfl, rfl⟩, h⟩
  obtain ⟨g', hg', hred⟩ := h.replaceUses_redirected hne
  have hsub := h.substituted_of_redirected hred
  -- The chain of the old value is appended to that of the new one.
  have huses : ∀ v, g'.usesOf v =
      if v = new then g.usesOf new ++ g.usesOf old else if v = old then [] else g.usesOf v := by
    intro v
    rw [hred.usesOf]
    change (if v = new then (g.uses.modify old _).get v ++ _ else (g.uses.modify old _).get v) = _
    rw [UseTable.get_modify]
    by_cases hv : v = new
    · subst hv
      simp [hne]
      rfl
    · by_cases hv' : v = old
      · simp [hv', hne]
      · simp [hv, hv', Ne.symm hv']
        rfl
  refine ⟨g', hg', hsub, fun v => ?_, fun v s => ?_⟩
  · rw [huses]
    split
    · refine List.nodup_append.2 ⟨h.nodup new, h.nodup old, ?_⟩
      rintro s hs s' hs' rfl
      have hs := (h.mem_iff _ _).1 hs
      have hs' := (h.mem_iff _ _).1 hs'
      exact hne (Option.some.inj (hs'.symm.trans hs))
    · split
      · exact List.nodup_nil
      · exact h.nodup v
  · rw [huses, hsub.heldIn?]
    cases hv : g.heldIn? s with
    | none =>
      have hs : ∀ w, s ∉ g.usesOf w := fun w hw => by simp [h.mem_iff, hv] at hw
      split <;> [simp [hs]; split <;> simp [hs]]
    | some w =>
      have hs : ∀ u, s ∈ g.usesOf u ↔ w = u := fun u => by rw [h.mem_iff, hv, Option.some.injEq]
      rw [Option.map_some, Option.some.injEq, Function.update_apply]
      split_ifs <;> simp only [List.mem_append, hs, List.not_mem_nil, id] <;> grind

end Mirrored

end Graph

end Unguard
