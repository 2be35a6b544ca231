import Unguard.Graph.Copy
import Mathlib.Data.List.Basic

/-!
# What an edit leaves in the tables

One look-up lemma for each table and each effect of an edit (`allocNode`, `attachLast`, …): what
`node?`, `block?` and `value?` answer afterwards.  An edit that does not touch a table leaves it
unchanged by definition, and `simp` knows so.  Everything said later about edits goes through these
lemmas, so no later proof opens an edit.
-/

namespace Unguard

/-! ### Steps that may fail -/

section

variable {ε α β : Type}

@[simp] theorem pure_eq_ok (a : α) : (pure a : Except ε α) = .ok a := rfl

@[simp] theorem ok_bind (a : α) (f : α → Except ε β) : (Except.ok a >>= f) = f a := rfl

theorem bind_eq_ok_iff {x : Except ε α} {f : α → Except ε β} {b : β} :
    (x >>= f) = .ok b ↔ ∃ a, x = .ok a ∧ f a = .ok b := by
  cases x with
  | error e =>
    constructor
    · intro h
      exact nomatch h
    · rintro ⟨a, h, -⟩
      exact nomatch h
  | ok a => simp

/-- What one step keeps is kept by a sequence of steps. -/
theorem foldlM_keeps {P : β → Prop} {f : β → α → Except ε β}
    (h : ∀ {x : β} {a : α} {y : β}, P x → f x a = .ok y → P y) : ∀ {l : List α} {x y : β}, P x →
    l.foldlM f x = .ok y → P y
  | [], x, y, hx, hok => Except.ok.inj hok ▸ hx
  | a :: l, x, y, hx, hok => by
    rw [List.foldlM_cons, bind_eq_ok_iff] at hok
    obtain ⟨next, hnext, hok⟩ := hok
    exact foldlM_keeps h (h hx hnext) hok

theorem toOption_eq_some_iff {x : Except ε α} {a : α} : x.toOption = some a ↔ x = .ok a := by
  cases x <;> simp [Except.toOption]

/-- A change to an entry that `x` does not see, whether it is made or not. -/
theorem map_ite_map {p : Prop} [Decidable p] {entry : Option α} {f : α → α} {x : α → β}
    (h : ∀ a, x (f a) = x a) : (if p then entry.map f else entry).map x = entry.map x := by
  split
  · rw [Option.map_map]
    exact congrArg (Option.map · entry) (funext h)
  · rfl

end

/-! ### Identifiers -/

theorem NodeId.index_ne {n m : NodeId} (h : n ≠ m) : n.index ≠ m.index :=
  fun hi => h (by cases n; cases m; simp_all)

theorem BlockId.index_ne {a b : BlockId} (h : a ≠ b) : a.index ≠ b.index :=
  fun hi => h (by cases a; cases b; simp_all)

theorem ValueId.index_ne {v w : ValueId} (h : v ≠ w) : v.index ≠ w.index :=
  fun hi => h (by cases v; cases w; simp_all)

namespace Graph

variable (g : Graph)

/-! ### Bounds -/

theorem node?_eq_none_iff {n : NodeId} : g.node? n = none ↔ g.nodes.size ≤ n.index :=
  Array.getElem?_eq_none_iff

theorem block?_eq_none_iff {b : BlockId} : g.block? b = none ↔ g.blocks.size ≤ b.index :=
  Array.getElem?_eq_none_iff

theorem value?_eq_none_iff {v : ValueId} : g.value? v = none ↔ g.values.size ≤ v.index :=
  Array.getElem?_eq_none_iff

theorem index_lt_of_node? {n : NodeId} {node : Node} (h : g.node? n = some node) :
    n.index < g.nodes.size :=
  (Array.getElem?_eq_some_iff.1 h).1

theorem index_lt_of_block? {b : BlockId} {block : Block} (h : g.block? b = some block) :
    b.index < g.blocks.size :=
  (Array.getElem?_eq_some_iff.1 h).1

theorem index_lt_of_value? {v : ValueId} {value : Value} (h : g.value? v = some value) :
    v.index < g.values.size :=
  (Array.getElem?_eq_some_iff.1 h).1

theorem exists_node? {n : NodeId} (h : n.index < g.nodes.size) : ∃ node, g.node? n = some node :=
  ⟨_, Array.getElem?_eq_getElem h⟩

theorem exists_block? {b : BlockId} (h : b.index < g.blocks.size) :
    ∃ block, g.block? b = some block :=
  ⟨_, Array.getElem?_eq_getElem h⟩

theorem exists_value? {v : ValueId} (h : v.index < g.values.size) :
    ∃ value, g.value? v = some value :=
  ⟨_, Array.getElem?_eq_getElem h⟩

/-! ### Look-ups that fault -/

theorem node_eq_ok_iff {n : NodeId} {node : Node} : g.node n = .ok node ↔ g.node? n = some node := by
  unfold Graph.node
  split <;> simp_all

theorem block_eq_ok_iff {b : BlockId} {block : Block} :
    g.block b = .ok block ↔ g.block? b = some block := by
  unfold Graph.block
  split <;> simp_all

theorem value_eq_ok_iff {v : ValueId} {value : Value} :
    g.value v = .ok value ↔ g.value? v = some value := by
  unfold Graph.value
  split <;> simp_all

/-! ### One entry changed -/

theorem node?_modifyNode (n m : NodeId) (f : Node → Node) :
    (g.modifyNode n f).node? m = if n = m then (g.node? m).map f else g.node? m := by
  unfold node? modifyNode
  rw [Array.getElem?_modify]
  by_cases h : n = m
  · rw [if_pos h, if_pos (congrArg _ h)]
  · rw [if_neg h, if_neg (NodeId.index_ne h)]

theorem block?_modifyBlock (b c : BlockId) (f : Block → Block) :
    (g.modifyBlock b f).block? c = if b = c then (g.block? c).map f else g.block? c := by
  unfold block? modifyBlock
  rw [Array.getElem?_modify]
  by_cases h : b = c
  · rw [if_pos h, if_pos (congrArg _ h)]
  · rw [if_neg h, if_neg (BlockId.index_ne h)]

theorem value?_modifyValue (v w : ValueId) (f : Value → Value) :
    (g.modifyValue v f).value? w = if v = w then (g.value? w).map f else g.value? w := by
  unfold value? modifyValue
  rw [Array.getElem?_modify]
  by_cases h : v = w
  · rw [if_pos h, if_pos (congrArg _ h)]
  · rw [if_neg h, if_neg (ValueId.index_ne h)]

@[simp] theorem node?_modifyBlock (b : BlockId) (f : Block → Block) (n : NodeId) :
    (g.modifyBlock b f).node? n = g.node? n := rfl

@[simp] theorem node?_modifyValue (v : ValueId) (f : Value → Value) (n : NodeId) :
    (g.modifyValue v f).node? n = g.node? n := rfl

@[simp] theorem block?_modifyNode (n : NodeId) (f : Node → Node) (b : BlockId) :
    (g.modifyNode n f).block? b = g.block? b := rfl

@[simp] theorem block?_modifyValue (v : ValueId) (f : Value → Value) (b : BlockId) :
    (g.modifyValue v f).block? b = g.block? b := rfl

@[simp] theorem value?_modifyNode (n : NodeId) (f : Node → Node) (v : ValueId) :
    (g.modifyNode n f).value? v = g.value? v := rfl

@[simp] theorem value?_modifyBlock (b : BlockId) (f : Block → Block) (v : ValueId) :
    (g.modifyBlock b f).value? v = g.value? v := rfl

@[simp] theorem usesOf_modifyNode (n : NodeId) (f : Node → Node) (v : ValueId) :
    (g.modifyNode n f).usesOf v = g.usesOf v := rfl

@[simp] theorem usesOf_modifyBlock (b : BlockId) (f : Block → Block) (v : ValueId) :
    (g.modifyBlock b f).usesOf v = g.usesOf v := rfl

@[simp] theorem usesOf_modifyValue (w : ValueId) (f : Value → Value) (v : ValueId) :
    (g.modifyValue w f).usesOf v = g.usesOf v := rfl

@[simp] theorem size_nodes_modifyNode (n : NodeId) (f : Node → Node) :
    (g.modifyNode n f).nodes.size = g.nodes.size :=
  Array.size_modify

@[simp] theorem size_blocks_modifyBlock (b : BlockId) (f : Block → Block) :
    (g.modifyBlock b f).blocks.size = g.blocks.size :=
  Array.size_modify

/-! ### New blocks and parameters -/

theorem usesOf_newBlock (v : ValueId) : g.newBlock.2.usesOf v = g.usesOf v := rfl

theorem block?_newBlock (b : BlockId) :
    g.newBlock.2.block? b = if b = ⟨g.blocks.size⟩ then some .empty else g.block? b := by
  change (g.blocks.push _)[b.index]? = _
  rw [Array.getElem?_push]
  by_cases h : b = ⟨g.blocks.size⟩
  · rw [if_pos (congrArg BlockId.index h), if_pos h]
  · rw [if_neg (BlockId.index_ne h), if_neg h]
    rfl

theorem usesOf_allocParam (b : BlockId) (label : Label) (v : ValueId) :
    (g.allocParam b label).2.usesOf v = g.usesOf v := rfl

theorem block?_allocParam (b c : BlockId) (label : Label) :
    (g.allocParam b label).2.block? c =
      if b = c then (g.block? c).map fun block =>
        { block with params := block.params ++ [⟨g.values.size⟩] }
      else g.block? c :=
  block?_modifyBlock _ b c _

theorem value?_allocParam (b : BlockId) (label : Label) (v : ValueId) :
    (g.allocParam b label).2.value? v =
      if v = ⟨g.values.size⟩ then some ⟨.param b (g.paramCount b), label⟩ else g.value? v := by
  change (g.values.push _)[v.index]? = _
  rw [Array.getElem?_push]
  by_cases h : v = ⟨g.values.size⟩
  · rw [if_pos (congrArg ValueId.index h), if_pos h]
  · rw [if_neg (ValueId.index_ne h), if_neg h]
    rfl

/-! ### New nodes -/

/-- The outputs of the next node that is made from `spec`. -/
def newOutputs (spec : NodeSpec) : List ValueId :=
  (List.range' g.values.size spec.outputs.length).map ValueId.mk

/-- The entry of the next node that is made from `spec`. -/
def newEntry (spec : NodeSpec) : Node :=
  { kind := spec.kind, inputs := spec.inputs, outputs := g.newOutputs spec,
    attributes := spec.attributes, blocks := spec.blocks, parent := none, released := false }

theorem node?_allocNode (spec : NodeSpec) (n : NodeId) :
    (g.allocNode spec).2.node? n =
      if n = ⟨g.nodes.size⟩ then some (g.newEntry spec) else g.node? n := by
  change (g.nodes.push (g.newEntry spec))[n.index]? = _
  rw [Array.getElem?_push]
  by_cases h : n = ⟨g.nodes.size⟩
  · rw [if_pos (congrArg NodeId.index h), if_pos h]
  · rw [if_neg (NodeId.index_ne h), if_neg h]
    rfl

theorem getElem?_foldl_modify (n : NodeId) (i : Nat) : ∀ (bs : List BlockId) (blocks : Array Block),
    (bs.foldl (fun blocks b => blocks.modify b.index fun block =>
        { block with owner := some n }) blocks)[i]? =
      blocks[i]?.map fun block => if ⟨i⟩ ∈ bs then { block with owner := some n } else block
  | [], blocks => by simp
  | b :: bs, blocks => by
    rw [List.foldl_cons, getElem?_foldl_modify n i bs, Array.getElem?_modify]
    by_cases hi : b.index = i
    · have hb : (⟨i⟩ : BlockId) = b := by cases b; simp_all
      rw [if_pos hi, Option.map_map, hb]
      congr 1
      funext block
      by_cases hbs : b ∈ bs <;> simp [hbs]
    · have hb : (⟨i⟩ : BlockId) ≠ b := fun h => hi (h ▸ rfl)
      simp [hi, hb]

theorem block?_allocNode (spec : NodeSpec) (b : BlockId) :
    (g.allocNode spec).2.block? b = (g.block? b).map fun block =>
      if b ∈ spec.blocks then { block with owner := some ⟨g.nodes.size⟩ } else block :=
  getElem?_foldl_modify _ _ _ _

@[simp] theorem size_nodes_allocNode (spec : NodeSpec) :
    (g.allocNode spec).2.nodes.size = g.nodes.size + 1 :=
  Array.size_push ..

@[simp] theorem size_values_allocNode (spec : NodeSpec) :
    (g.allocNode spec).2.values.size = g.values.size + spec.outputs.length := by
  simp [allocNode]

@[simp] theorem size_blocks_allocNode (spec : NodeSpec) :
    (g.allocNode spec).2.blocks.size = g.blocks.size := by
  change (spec.blocks.foldl _ g.blocks).size = _
  generalize g.blocks = blocks
  induction spec.blocks generalizing blocks with
  | nil => rfl
  | cons b bs ih => rw [List.foldl_cons, ih, Array.size_modify]

theorem usesOf_allocNode (spec : NodeSpec) (v : ValueId) :
    (g.allocNode spec).2.usesOf v =
      (g.uses.enter (Holder.slots (.node ⟨g.nodes.size⟩) spec.inputs)).get v := rfl

/-- Values that are there keep their entries; those of the new node follow them. -/
theorem value?_allocNode_of_lt (spec : NodeSpec) {v : ValueId} (h : v.index < g.values.size) :
    (g.allocNode spec).2.value? v = g.value? v :=
  Array.getElem?_append_left h

theorem value?_allocNode_output (spec : NodeSpec) {i : Nat} (h : i < spec.outputs.length) :
    (g.allocNode spec).2.value? ⟨g.values.size + i⟩ =
      some ⟨.output ⟨g.nodes.size⟩ i, spec.outputs[i]⟩ := by
  change (g.values ++ (spec.outputs.mapIdx _).toArray)[g.values.size + i]? = _
  rw [Array.getElem?_append_right (Nat.le_add_right _ _), Nat.add_sub_cancel_left]
  simp [h]

/-! ### Nodes placed and values returned -/

theorem node?_attachLast (b : BlockId) (n m : NodeId) :
    (g.attachLast b n).node? m =
      if n = m then (g.node? m).map fun node => { node with parent := some b } else g.node? m :=
  node?_modifyNode _ _ _ _

theorem block?_attachLast (b c : BlockId) (n : NodeId) :
    (g.attachLast b n).block? c =
      if b = c then (g.block? c).map fun block => { block with nodes := block.nodes ++ [n] }
      else g.block? c :=
  block?_modifyBlock _ _ _ _

theorem usesOf_attachLast (b : BlockId) (n : NodeId) (v : ValueId) :
    (g.attachLast b n).usesOf v = g.usesOf v := rfl

theorem node?_assignReturns (b : BlockId) (values : List ValueId) (n : NodeId) :
    (g.assignReturns b values).node? n = g.node? n := by
  unfold assignReturns
  split <;> rfl

theorem value?_assignReturns (b : BlockId) (values : List ValueId) (v : ValueId) :
    (g.assignReturns b values).value? v = g.value? v := by
  unfold assignReturns
  split <;> rfl

theorem block?_assignReturns (b c : BlockId) (values : List ValueId) :
    (g.assignReturns b values).block? c =
      if b = c then (g.block? c).map fun block => { block with returns := values }
      else g.block? c := by
  unfold assignReturns
  split
  · rename_i hb
    by_cases h : b = c
    · rw [if_pos h, ← h, hb]
      rfl
    · rw [if_neg h]
  · exact block?_modifyBlock _ _ _ _

/-! ### What holders hold -/

theorem nodes_assignReturns (b : BlockId) (values : List ValueId) :
    (g.assignReturns b values).nodes = g.nodes := by
  unfold assignReturns
  split <;> rfl

theorem values_assignReturns (b : BlockId) (values : List ValueId) :
    (g.assignReturns b values).values = g.values := by
  unfold assignReturns
  split <;> rfl

theorem types_assignReturns (b : BlockId) (values : List ValueId) :
    (g.assignReturns b values).types = g.types := by
  unfold assignReturns
  split <;> rfl

@[simp] theorem size_blocks_assignReturns (b : BlockId) (values : List ValueId) :
    (g.assignReturns b values).blocks.size = g.blocks.size := by
  unfold assignReturns
  split
  · rfl
  · exact Array.size_modify

theorem held_node_eq_ok_iff {n : NodeId} {values : List ValueId} :
    g.held (.node n) = .ok values ↔ (g.node? n).map Node.inputs = some values := by
  unfold held
  simp only [bind_eq_ok_iff, node_eq_ok_iff, pure_eq_ok, Except.ok.injEq, Option.map_eq_some_iff]

theorem held_block_eq_ok_iff {b : BlockId} {values : List ValueId} :
    g.held (.block b) = .ok values ↔ (g.block? b).map Block.returns = some values := by
  unfold held
  simp only [bind_eq_ok_iff, block_eq_ok_iff, pure_eq_ok, Except.ok.injEq, Option.map_eq_some_iff]

theorem node?_hold (values : List ValueId) (h : Holder) (n : NodeId) :
    (g.hold values h).node? n =
      if h = .node n then (g.node? n).map fun node => { node with inputs := values }
      else g.node? n := by
  cases h with
  | node m => simp [hold, node?_modifyNode]
  | block b => simp [hold]

theorem block?_hold (values : List ValueId) (h : Holder) (b : BlockId) :
    (g.hold values h).block? b =
      if h = .block b then (g.block? b).map fun block => { block with returns := values }
      else g.block? b := by
  cases h with
  | node n => simp [hold]
  | block c => simp [hold, block?_modifyBlock]

theorem usesOf_hold (values : List ValueId) (h : Holder) (v : ValueId) :
    (g.hold values h).usesOf v = g.usesOf v := by
  cases h <;> rfl

theorem values_hold (values : List ValueId) (h : Holder) :
    (g.hold values h).values = g.values := by
  cases h <;> rfl

theorem types_hold (values : List ValueId) (h : Holder) :
    (g.hold values h).types = g.types := by
  cases h <;> rfl

/-- The graph without even a top block. -/
def void : Graph :=
  { empty with blocks := #[] }

end Graph

end Unguard
