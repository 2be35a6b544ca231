import Unguard.Operator

/-!
# Sets of operator names

A set of operators is kept as its members in ascending order, so two sets with the same members are
the same set.  Such sets say which operators may be hoisted and which have effects.
-/

namespace Unguard

/-- A finite set of operator names. -/
structure OpSet where
  /-- The members in ascending order. -/
  toList : List Operator
  ascending : toList.Pairwise (· < ·)
deriving DecidableEq

namespace OpSet

/-! ### Insertion into an ascending list -/

/-- Puts `op` in its place, unless it is there already. -/
def insertInto (op : Operator) : List Operator → List Operator
  | [] => [op]
  | o :: os => if op < o then op :: o :: os else if o < op then o :: insertInto op os else o :: os

theorem mem_insertInto {op x : Operator} {ops : List Operator} :
    x ∈ insertInto op ops ↔ x = op ∨ x ∈ ops := by
  induction ops with
  | nil => simp [insertInto]
  | cons o os ih =>
    simp only [insertInto]
    split
    · simp
    · split
      · rw [List.mem_cons, ih, List.mem_cons]
        exact or_left_comm
      · rename_i h h'
        simp [Operator.eq_of_not_lt h h']

theorem pairwise_insertInto {op : Operator} {ops : List Operator} (h : ops.Pairwise (· < ·)) :
    (insertInto op ops).Pairwise (· < ·) := by
  induction ops with
  | nil => simp [insertInto]
  | cons o os ih =>
    rw [List.pairwise_cons] at h
    simp only [insertInto]
    split
    · rename_i hop
      refine List.pairwise_cons.2 ⟨fun x hx => ?_, List.pairwise_cons.2 h⟩
      rcases List.mem_cons.1 hx with rfl | hx
      · exact hop
      · exact Operator.lt_trans hop (h.1 x hx)
    · split
      · rename_i ho
        refine List.pairwise_cons.2 ⟨fun x hx => ?_, ih h.2⟩
        rcases mem_insertInto.1 hx with rfl | hx
        · exact ho
        · exact h.1 x hx
      · exact List.pairwise_cons.2 h

/-! ### The set operations -/

def empty : OpSet :=
  ⟨[], List.Pairwise.nil⟩

def contains (s : OpSet) (op : Operator) : Bool :=
  decide (op ∈ s.toList)

def insert (s : OpSet) (op : Operator) : OpSet :=
  ⟨insertInto op s.toList, pairwise_insertInto s.ascending⟩

def insertMany (s : OpSet) (ops : List Operator) : OpSet :=
  ops.foldl insert s

def ofList (ops : List Operator) : OpSet :=
  empty.insertMany ops

def size (s : OpSet) : Nat :=
  s.toList.length

def isEmpty (s : OpSet) : Bool :=
  s.toList.isEmpty

theorem contains_insert (s : OpSet) (op x : Operator) :
    (s.insert op).contains x = (decide (x = op) || s.contains x) := by
  simp [contains, insert, mem_insertInto]

end OpSet

end Unguard
