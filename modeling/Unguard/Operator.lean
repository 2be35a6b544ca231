import Unguard.Name

/-!
# Operator names

An operator belongs to a dialect and is written `dialect.name`.  `Operator.parse?` reads that form and
`Operator.text` writes it.  Operator names are ordered by dialect, then by name.
-/

namespace Unguard

/-- A dialect-qualified operator name. -/
structure Operator where
  dialect : String
  name : String
deriving DecidableEq, Repr, Inhabited

namespace Operator

/-- The written form `dialect.name`. -/
def text (op : Operator) : String :=
  op.dialect ++ "." ++ op.name

/-- Reads `dialect.name`, split at the first point.  Both halves have to be non-empty; the second one
may hold further points. -/
def parse? (text : String) : Option Operator :=
  match text.toList.span (· != '.') with
  | (d :: dialect, _ :: n :: name) => some ⟨String.ofList (d :: dialect), String.ofList (n :: name)⟩
  | _ => none

/-! ### Order -/

/-- By dialect first, then by name. -/
instance : LT Operator :=
  ⟨fun a b => a.dialect < b.dialect ∨ a.dialect = b.dialect ∧ a.name < b.name⟩

theorem lt_def {a b : Operator} :
    a < b ↔ a.dialect < b.dialect ∨ a.dialect = b.dialect ∧ a.name < b.name :=
  Iff.rfl

instance (a b : Operator) : Decidable (a < b) :=
  decidable_of_iff _ lt_def.symm

theorem lt_trans {a b c : Operator} (hab : a < b) (hbc : b < c) : a < c := by
  rw [lt_def] at *
  rcases hab with hd | ⟨hd, hn⟩ <;> rcases hbc with hd' | ⟨hd', hn'⟩
  · exact Or.inl (String.lt_trans hd hd')
  · exact Or.inl (hd' ▸ hd)
  · exact Or.inl (hd ▸ hd')
  · exact Or.inr ⟨hd.trans hd', String.lt_trans hn hn'⟩

/-- Two names of which neither is smaller are the same name. -/
theorem eq_of_not_lt {a b : Operator} (hab : ¬a < b) (hba : ¬b < a) : a = b := by
  rw [lt_def, not_or] at hab hba
  have hd : a.dialect = b.dialect :=
    String.le_antisymm (String.not_lt.1 hba.1) (String.not_lt.1 hab.1)
  have hn : a.name = b.name :=
    String.le_antisymm (String.not_lt.1 fun h => hba.2 ⟨hd.symm, h⟩)
      (String.not_lt.1 fun h => hab.2 ⟨hd, h⟩)
  cases a; cases b; simp_all

end Operator

end Unguard
