import Unguard.Id

/-!
# Slot chains

For every value the chain of slots that consume it, in the order in which they began to.  A value has
a chain, at first empty, even before it exists.  Everything is said through `UseTable.get`: each
operation has one lemma about the chains it leaves.
-/

namespace Unguard

/-- The use chains of all values.  Values past the end of the table have empty chains. -/
structure UseTable where
  chains : Array (List Slot)
deriving DecidableEq, Repr, Inhabited

namespace UseTable

def empty : UseTable :=
  ⟨#[]⟩

/-- The chain of a value. -/
def get (t : UseTable) (v : ValueId) : List Slot :=
  t.chains[v.index]?.getD []

/-- Applies `f` to the chain of `v`. -/
def modify (t : UseTable) (v : ValueId) (f : List Slot → List Slot) : UseTable :=
  ⟨(t.chains ++ Array.replicate (v.index + 1 - t.chains.size) []).modify v.index f⟩

/-- Enters slots at the ends of the chains of the values they hold. -/
def enter (t : UseTable) : List (ValueId × Slot) → UseTable
  | [] => t
  | (v, slot) :: slots => (t.modify v (· ++ [slot])).enter slots

/-- Takes slots out of the chains of the values they hold. -/
def leave (t : UseTable) : List (ValueId × Slot) → UseTable
  | [] => t
  | (v, slot) :: slots => (t.modify v (·.filter (· ≠ slot))).leave slots

@[simp] theorem get_empty (v : ValueId) : empty.get v = [] := by
  simp [get, empty]

theorem get_modify (t : UseTable) (v w : ValueId) (f : List Slot → List Slot) :
    (t.modify v f).get w = if v = w then f (t.get w) else t.get w := by
  have hpad : (t.chains ++ Array.replicate (v.index + 1 - t.chains.size) [])[w.index]?.getD [] =
      t.get w := by
    rw [get, Array.getElem?_append]
    split
    · rfl
    · rename_i hw
      rw [Array.getElem?_eq_none (Nat.le_of_not_lt hw), Array.getElem?_replicate]
      split <;> rfl
  by_cases h : v = w
  · subst h
    have hlt : v.index < (t.chains ++ Array.replicate (v.index + 1 - t.chains.size) []).size := by
      simp only [Array.size_append, Array.size_replicate]
      omega
    rw [if_pos rfl, ← hpad, get, modify, Array.getElem?_modify, if_pos rfl,
      Array.getElem?_eq_getElem hlt]
    rfl
  · have hne : v.index ≠ w.index := fun hi => h (by cases v; cases w; simp_all)
    rw [if_neg h, ← hpad, get, modify]
    simp [Array.getElem?_modify, hne]

@[simp] theorem get_modify_self (t : UseTable) (v : ValueId) (f : List Slot → List Slot) :
    (t.modify v f).get v = f (t.get v) := by
  rw [get_modify, if_pos rfl]

theorem get_modify_of_ne (t : UseTable) {v w : ValueId} (h : v ≠ w) (f : List Slot → List Slot) :
    (t.modify v f).get w = t.get w := by
  rw [get_modify, if_neg h]

end UseTable

end Unguard
