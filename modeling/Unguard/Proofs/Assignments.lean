import Unguard.Id
import Mathlib.Logic.Equiv.Basic

/-!
# Assignments

An assignment gives every value something: a value that takes its place, or what it stands for in a
run.  `assign ρ vs xs` is the assignment `ρ` but with `xs` for `vs`, one by one.
-/

namespace Unguard

universe u v

variable {V : Type u} {W : Type v}

/-- The assignment `ρ` with the members of `xs` for those of `vs`. -/
def assign (ρ : ValueId → V) : List ValueId → List V → ValueId → V
  | v :: vs, x :: xs, w => if w = v then x else assign ρ vs xs w
  | _, _, w => ρ w

/-- Puts the values of `new` in the place of those of `old`, one by one. -/
def substitution (old new : List ValueId) : ValueId → ValueId :=
  assign id old new

theorem assign_of_not_mem {ρ : ValueId → V} {w : ValueId} : ∀ {vs : List ValueId} {xs : List V},
    w ∉ vs → assign ρ vs xs w = ρ w
  | [], _, _ => by simp [assign]
  | _ :: _, [], _ => by simp [assign]
  | v :: vs, x :: xs, h => by
    rw [List.mem_cons, not_or] at h
    rw [assign, if_neg h.1, assign_of_not_mem h.2]

theorem assign_nil (ρ : ValueId → V) (xs : List V) : assign ρ [] xs = ρ :=
  funext fun _ => assign_of_not_mem List.not_mem_nil

/-- Assignments that agree still agree when both are changed in the same way. -/
theorem assign_congr {ρ ρ' : ValueId → V} {w : ValueId} : ∀ {vs : List ValueId} {xs : List V},
    ρ w = ρ' w → assign ρ vs xs w = assign ρ' vs xs w
  | [], _, h => by simpa [assign] using h
  | _ :: _, [], h => by simpa [assign] using h
  | v :: vs, x :: xs, h => by rw [assign, assign, assign_congr h]

/-- What a changed value had before does not matter. -/
theorem assign_of_mem (ρ ρ' : ValueId → V) {w : ValueId} : ∀ {vs : List ValueId} {xs : List V},
    vs.length = xs.length → w ∈ vs → assign ρ vs xs w = assign ρ' vs xs w
  | v :: vs, x :: xs, hlen, h => by
    rw [assign, assign]
    split
    · rfl
    · rename_i hne
      exact assign_of_mem ρ ρ' (Nat.succ.inj hlen) ((List.mem_cons.1 h).resolve_left hne)

theorem assign_mem {ρ : ValueId → V} {w : ValueId} : ∀ {vs : List ValueId} {xs : List V},
    vs.length = xs.length → w ∈ vs → assign ρ vs xs w ∈ xs
  | v :: vs, x :: xs, hlen, h => by
    rw [assign]
    split
    · exact List.mem_cons_self
    · rename_i hne
      exact List.mem_cons_of_mem _ (assign_mem (Nat.succ.inj hlen)
        ((List.mem_cons.1 h).resolve_left hne))

/-- A function can be applied to values before or after they are assigned. -/
theorem comp_assign (f : V → W) (ρ : ValueId → V) {w : ValueId} : ∀ {vs : List ValueId} {xs : List V},
    f (assign ρ vs xs w) = assign (f ∘ ρ) vs (xs.map f) w
  | [], _ => by simp [assign]
  | _ :: _, [] => by simp [assign]
  | v :: vs, x :: xs => by
    rw [List.map_cons, assign, assign, apply_ite f, comp_assign f ρ]

/-- Renaming before a change, where the renaming leaves the changed values alone. -/
theorem assign_comp {ρ : ValueId → V} {θ : ValueId → ValueId} {vs : List ValueId}
    (hθ : ∀ v, v ∈ vs ∨ θ v ∈ vs → θ v = v) (xs : List V) :
    assign ρ vs xs ∘ θ = assign (ρ ∘ θ) vs xs := by
  funext v
  rw [Function.comp]
  by_cases hv : v ∈ vs ∨ θ v ∈ vs
  · rw [hθ v hv]
    exact assign_congr (congrArg ρ (hθ v hv).symm)
  · rw [not_or] at hv
    rw [assign_of_not_mem hv.1, assign_of_not_mem hv.2, Function.comp]

/-- The values under other numbers. -/
theorem assign_equiv (e : ValueId ≃ ValueId) (f : V → W) (ρ : ValueId → V) (w : ValueId) :
    ∀ (vs : List ValueId) (xs : List V),
    assign (f ∘ ρ ∘ e.symm) (vs.map e) (xs.map f) w = f (assign ρ vs xs (e.symm w))
  | [], _ => by simp [assign]
  | _ :: _, [] => by simp [assign]
  | v :: vs, x :: xs => by
    rw [List.map_cons, List.map_cons, assign, assign, assign_equiv e f ρ w vs xs, apply_ite f]
    simp only [Equiv.symm_apply_eq]

/-! ### Values in the place of others -/

theorem substitution_of_not_mem {v : ValueId} {old new : List ValueId} (h : v ∉ old) :
    substitution old new v = v :=
  assign_of_not_mem h

/-- A value that is substituted becomes one of the new ones. -/
theorem substitution_mem {v : ValueId} {old new : List ValueId} (hlen : old.length = new.length)
    (h : v ∈ old) : substitution old new v ∈ new :=
  assign_mem hlen h

theorem substitution_map {v : ValueId} (f : ValueId → ValueId) {old new : List ValueId}
    (hlen : old.length = new.length) (h : v ∈ old) :
    substitution old (new.map f) v = f (substitution old new v) := by
  rw [substitution, substitution, comp_assign f id]
  exact assign_of_mem _ _ (by rw [hlen, List.length_map]) h

/-- One value after the other. -/
theorem substitution_comp_update {o r : ValueId} {old new : List ValueId} (hr : r ∉ old) :
    substitution old new ∘ Function.update id o r = substitution (o :: old) (r :: new) := by
  funext v
  rw [Function.comp, substitution, substitution, assign]
  split
  · rename_i h
    rw [h, Function.update_self, assign_of_not_mem hr]
    rfl
  · rename_i h
    rw [Function.update_of_ne h]
    rfl

end Unguard
