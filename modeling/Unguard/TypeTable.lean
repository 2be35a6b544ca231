import Unguard.Id
import Unguard.Fault
import Unguard.Traverse

/-!
# Types and their table

A type has a dialect, a name and type parameters.  Inside a graph a type is an identifier into a
table, which keeps two things: the entries by their identifiers, and the identifiers by their entries.
`TypeTable.intern` looks an entry up in the second and adds it to both if it is new, and
`TypeTable.expand` writes an identifier out as a whole tree.
-/

namespace Unguard

/-- A type written out in full. -/
inductive TypeTree
  | mk (dialect name : String) (params : List TypeTree)
deriving Repr, Inhabited

/-- One entry of the table: the parameters are entries themselves. -/
structure TypeEntry where
  dialect : String
  name : String
  params : List TypeId
deriving DecidableEq, Repr, Inhabited

/-- The types of a graph. -/
structure TypeTable where
  /-- The entries in the order they were first met. -/
  entries : Array TypeEntry
  /-- The identifier that was given to each entry. -/
  known : List (TypeEntry × TypeId)
deriving DecidableEq, Repr, Inhabited

namespace TypeTable

def empty : TypeTable :=
  ⟨#[], []⟩

/-- The entry of an identifier. -/
def get? (t : TypeTable) (ty : TypeId) : Option TypeEntry :=
  t.entries[ty.index]?

/-- The identifier of an entry. -/
def find? (t : TypeTable) (entry : TypeEntry) : Option TypeId :=
  t.known.lookup entry

def size (t : TypeTable) : Nat :=
  t.entries.size

/-- The identifiers in use. -/
def ids (t : TypeTable) : List TypeId :=
  (List.range t.size).map TypeId.mk

/-- The table with one more entry, under the next identifier. -/
def push (t : TypeTable) (entry : TypeEntry) : TypeTable :=
  ⟨t.entries.push entry, (entry, ⟨t.size⟩) :: t.known⟩

/-- The identifier of `entry`, which is added if it is not known. -/
def intern (t : TypeTable) (entry : TypeEntry) : TypeId × TypeTable :=
  match t.find? entry with
  | some ty => (ty, t)
  | none => (⟨t.size⟩, t.push entry)

mutual

/-- Interns a whole type, parameters first. -/
def internTree (t : TypeTable) : TypeTree → TypeId × TypeTable
  | .mk dialect name params =>
    let (ids, t) := internTrees t params
    t.intern ⟨dialect, name, ids⟩

/-- Interns several types from left to right. -/
def internTrees (t : TypeTable) : List TypeTree → List TypeId × TypeTable
  | [] => ([], t)
  | ty :: tys =>
    let (id, t) := internTree t ty
    let (ids, t) := internTrees t tys
    (id :: ids, t)

end

/-- Writes a type out to at most `depth` levels. -/
def expandTo (t : TypeTable) : Nat → TypeId → Except Fault TypeTree
  | 0, _ => .error .endless
  | depth + 1, ty =>
    match t.get? ty with
    | none => .error .outOfRange
    | some entry => do
      let params ← traverse (expandTo t depth) entry.params
      return .mk entry.dialect entry.name params

/-- Writes a type out in full.  A type that does not contain itself is no deeper than the table is
long, so the bound is met only by types without a finite form. -/
def expand (t : TypeTable) (ty : TypeId) : Except Fault TypeTree :=
  t.expandTo (t.size + 1) ty

/-! ### One more entry -/

@[simp] theorem size_push (t : TypeTable) (entry : TypeEntry) : (t.push entry).size = t.size + 1 :=
  Array.size_push ..

theorem get?_push (t : TypeTable) (entry : TypeEntry) (ty : TypeId) :
    (t.push entry).get? ty = if ty.index = t.size then some entry else t.get? ty :=
  Array.getElem?_push

theorem find?_push (t : TypeTable) (entry key : TypeEntry) :
    (t.push entry).find? key = if key = entry then some ⟨t.size⟩ else t.find? key := by
  rw [find?, push, List.lookup_cons]
  by_cases h : key = entry
  · rw [if_pos h, beq_iff_eq.2 h]
  · rw [if_neg h, beq_false_of_ne h]
    rfl

theorem index_lt_of_get? {t : TypeTable} {ty : TypeId} {entry : TypeEntry}
    (h : t.get? ty = some entry) : ty.index < t.size :=
  (Array.getElem?_eq_some_iff.1 h).1

end TypeTable

end Unguard
