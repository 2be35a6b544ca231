import Unguard.Id

/-!
# Attributes

A node carries attributes: constants under keys.  Integers and floats are kept as their 64 bits, so a
value goes through the graph unchanged whatever it stands for.  An attribute map lists its entries in
ascending order of the keys; a key given again replaces what was there.
-/

namespace Unguard

/-- A constant attached to a node. -/
inductive Attribute
  | unit
  | bool (value : Bool)
  /-- An integer as its two's complement bits. -/
  | int (bits : UInt64)
  /-- A double-precision float as its bits. -/
  | float (bits : UInt64)
  | string (text : String)
  | type (ty : TypeId)
  | list (items : List Attribute)
deriving Repr, Inhabited

/-- A map from keys to attributes. -/
structure Attributes where
  /-- The entries in ascending order of their keys. -/
  toList : List (String × Attribute)
  ascending : toList.Pairwise fun a b => a.1 < b.1

namespace Attributes

/-! ### Insertion into an ascending list -/

/-- Puts the entry in its place and replaces an entry with the same key. -/
def insertInto (key : String) (value : Attribute) :
    List (String × Attribute) → List (String × Attribute)
  | [] => [(key, value)]
  | e :: es =>
    if key < e.1 then (key, value) :: e :: es
    else if e.1 < key then e :: insertInto key value es
    else (key, value) :: es

theorem fst_of_mem_insertInto {key : String} {value : Attribute} {x : String × Attribute}
    {es : List (String × Attribute)} (h : x ∈ insertInto key value es) : x.1 = key ∨ x ∈ es := by
  induction es with
  | nil =>
    simp only [insertInto, List.mem_singleton] at h
    exact Or.inl (h ▸ rfl)
  | cons e es ih =>
    simp only [insertInto] at h
    split at h
    · rcases List.mem_cons.1 h with rfl | h
      · exact Or.inl rfl
      · exact Or.inr h
    · split at h
      · rcases List.mem_cons.1 h with rfl | h
        · exact Or.inr (List.mem_cons_self ..)
        · exact (ih h).imp_right (List.mem_cons_of_mem _)
      · rcases List.mem_cons.1 h with rfl | h
        · exact Or.inl rfl
        · exact Or.inr (List.mem_cons_of_mem _ h)

theorem pairwise_insertInto {key : String} {value : Attribute} {es : List (String × Attribute)}
    (h : es.Pairwise fun a b => a.1 < b.1) :
    (insertInto key value es).Pairwise fun a b => a.1 < b.1 := by
  induction es with
  | nil => simp [insertInto]
  | cons e es ih =>
    rw [List.pairwise_cons] at h
    simp only [insertInto]
    split
    · rename_i hkey
      refine List.pairwise_cons.2 ⟨fun x hx => ?_, List.pairwise_cons.2 h⟩
      rcases List.mem_cons.1 hx with rfl | hx
      · exact hkey
      · exact String.lt_trans hkey (h.1 x hx)
    · split
      · rename_i hkey
        refine List.pairwise_cons.2 ⟨fun x hx => ?_, ih h.2⟩
        rcases fst_of_mem_insertInto hx with hx | hx
        · exact hx ▸ hkey
        · exact h.1 x hx
      · rename_i h₁ h₂
        have hkey : key = e.1 := String.le_antisymm (String.not_lt.1 h₂) (String.not_lt.1 h₁)
        exact List.pairwise_cons.2 ⟨fun x hx => hkey ▸ h.1 x hx, h.2⟩

/-! ### The map operations -/

def empty : Attributes :=
  ⟨[], List.Pairwise.nil⟩

instance : Inhabited Attributes :=
  ⟨empty⟩

def insert (a : Attributes) (key : String) (value : Attribute) : Attributes :=
  ⟨insertInto key value a.toList, pairwise_insertInto a.ascending⟩

/-- The map of the given entries; of two entries with the same key the later one counts. -/
def ofList (entries : List (String × Attribute)) : Attributes :=
  entries.foldl (fun a e => a.insert e.1 e.2) empty

end Attributes

end Unguard
