/-!
# Names as texts

Operator names, attribute keys and debug names are plain texts.  They are ordered by their code
points, which for well-formed text is the order of their UTF-8 bytes, so anything keyed by names
comes out the same in every run.
-/

namespace Unguard.Name

/-- Compares two names by code points. -/
def order (a b : String) : Ordering :=
  compare a b

/-- Sorts names in ascending order and keeps repeated ones. -/
def sort (names : List String) : List String :=
  names.mergeSort fun a b => decide (a ≤ b)

end Unguard.Name
