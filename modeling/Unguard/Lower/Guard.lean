import Unguard.Graph.Erase
import Unguard.Lower.Rounds

/-!
# Deleting guards

A guard is a conditional that has no outputs, one arm that ends in a raise, and one arm without nodes.
It is erased.  What computed its condition stays, to be swept up as dead code.
-/

namespace Unguard

namespace Graph

/-- Whether a node is a guard. -/
def isGuard (g : Graph) (n : NodeId) : Bool :=
  match g.bareArms? n with
  | none => false
  | some (first, second) =>
    (g.outputsOf n).isEmpty &&
      match g.armEnding first, g.armEnding second with
      | .inRaise, .empty | .empty, .inRaise => true
      | _, _ => false

end Graph

/-- Erases guards. -/
def guardRemoval : Reduction Unit where
  site? g n := if g.isGuard n then some () else none
  apply g n _ := g.erase n

end Unguard
