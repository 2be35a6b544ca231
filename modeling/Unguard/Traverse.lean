/-!
# Lists of steps that may fail

`traverse f` applies `f` to the items of a list from left to right and stops at the first failure.
-/

namespace Unguard

variable {ε α β : Type}

/-- The results of `f` on all items, or its first error. -/
def traverse (f : α → Except ε β) : List α → Except ε (List β)
  | [] => .ok []
  | a :: as => do
    let b ← f a
    let bs ← traverse f as
    return b :: bs

@[simp] theorem traverse_nil (f : α → Except ε β) : traverse f [] = .ok [] := rfl

end Unguard
