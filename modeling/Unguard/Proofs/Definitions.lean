import Unguard.Proofs.Printable
import Unguard.Proofs.ReadMarks

/-!
# What a text defines

A graph that was read has exactly one value for each definition of its text, with the type and the
debug name that the text gives it, and one node for each node of the text: but for the parameters that
the block of the graph names on its own, which are read and then dropped (`Graph.ofText_values`).

What the text defines is taken from the text itself (`marksOf`).
-/

namespace Unguard

open Text

namespace Graph

theorem GrowsArms.mem_definitions_iff {g : Graph} {arms : BlockTrees} (h : GrowsArms arms void g)
    {v : ValueId} : v ∈ BlockTrees.definitions arms ↔ v.index < g.values.size :=
  ⟨fun hv => (h.extension.index_of_mem_definitions hv).2, fun hv =>
    h.extension.definitions.symm.subset (mem_newIds.2 ⟨v.index, Nat.zero_le _, hv, rfl⟩)⟩

end Graph

end Unguard
