import Unguard.Proofs.Tables
import Unguard.Text.Resolve

/-!
# Steps of building

Building a draft goes through its nodes and blocks in the order of the text.  A node is made once its
blocks have been built, and a block is opened before its nodes and returns values after them.  What it
takes to build a node or a block is said here once (`buildNodes_node_iff`, `buildArms_arm_iff`), and
whatever else is shown of a graph that was built is shown along these steps.  The top block is built
like any other (`GraphDraft.build_eq_ok_iff`).
-/

namespace Unguard

namespace Text

open Unguard.Graph

/-- The node that a draft asks for, where `t` are the types there are. -/
def NodeDraft.spec (d : NodeDraft) (t : TypeTable) (inputs : List ValueId) (blocks : List BlockId) :
    NodeSpec where
  kind := d.kind
  inputs := inputs
  outputs := (internLabels (internAttributes t d.attributes).2 d.results d.types).1
  attributes := .ofList (internAttributes t d.attributes).1
  blocks := blocks

/-- The types there are with those that a draft names. -/
def NodeDraft.interned (d : NodeDraft) (t : TypeTable) : TypeTable :=
  (internLabels (internAttributes t d.attributes).2 d.results d.types).2

/-- The graph with one more node at the end of block `b`. -/
def withNode (g : Graph) (spec : NodeSpec) (b : BlockId) : Graph :=
  (g.allocNode spec).2.attachLast b ⟨g.nodes.size⟩

theorem outputsOf_withNode (g : Graph) (spec : NodeSpec) (b : BlockId) :
    (withNode g spec b).outputsOf ⟨g.nodes.size⟩ = g.newOutputs spec := by
  rw [withNode, outputsOf, node?_attachLast, if_pos rfl, node?_allocNode, if_pos rfl]
  rfl

theorem size_blocks_withNode (g : Graph) (spec : NodeSpec) (b : BlockId) :
    (withNode g spec b).blocks.size = g.blocks.size := by
  rw [withNode, attachLast, size_blocks_modifyBlock]
  exact size_blocks_allocNode g spec

/-- What it takes to build a node and the nodes after it. -/
theorem buildNodes_node_iff {g g' : Graph} {scope scope' : Scope} {b : BlockId} {head : NodeDraft}
    {arms : ArmsDraft} {rest : BodyDraft} :
    buildNodes g scope b (.node head arms rest) = .ok (g', scope') ↔
      head.check = .ok () ∧ ∃ inputs, traverse scope.resolve head.operands = .ok inputs ∧
      ∃ blocks g₁, buildArms { g with types := head.interned g.types } scope arms = .ok (blocks, g₁) ∧
      ∃ scope₁, scope.defineAll head.results (g₁.newOutputs (head.spec g.types inputs blocks)) =
          .ok scope₁ ∧
        buildNodes (withNode g₁ (head.spec g.types inputs blocks) b) scope₁ b rest =
          .ok (g', scope') := by
  rw [buildNodes]
  constructor
  · intro h
    -- The five steps of the definition in order: check, operands, blocks, results, rest.
    obtain ⟨_, hcheck, h⟩ := bind_eq_ok_iff.1 h
    obtain ⟨inputs, hinputs, h⟩ := bind_eq_ok_iff.1 h
    obtain ⟨⟨blocks, g₁⟩, harms, h⟩ := bind_eq_ok_iff.1 h
    obtain ⟨scope₁, hscope, h⟩ := bind_eq_ok_iff.1 h
    refine ⟨hcheck, inputs, hinputs, blocks, g₁, harms, scope₁, ?_, h⟩
    rw [← outputsOf_withNode g₁ (head.spec g.types inputs blocks) b]
    exact hscope
  · rintro ⟨hcheck, inputs, hinputs, blocks, g₁, harms, scope₁, hscope, h⟩
    rw [← outputsOf_withNode g₁ (head.spec g.types inputs blocks) b] at hscope
    rw [hcheck, ok_bind, hinputs, ok_bind]
    refine bind_eq_ok_iff.2 ⟨(blocks, g₁), harms, ?_⟩
    exact bind_eq_ok_iff.2 ⟨scope₁, hscope, h⟩

/-- What it takes to build a block and the blocks after it. -/
theorem buildArms_arm_iff {g g' : Graph} {scope : Scope} {head : BlockDraft} {body : BodyDraft}
    {rest : ArmsDraft} {blocks : List BlockId} :
    buildArms g scope (.arm head body rest) = .ok (blocks, g') ↔
      ∃ g₁ scope₁, buildParams g.newBlock.2 scope ⟨g.blocks.size⟩ head.params = .ok (g₁, scope₁) ∧
      ∃ g₂ scope₂, buildNodes g₁ scope₁ ⟨g.blocks.size⟩ body = .ok (g₂, scope₂) ∧
      ∃ returns, traverse scope₂.resolve head.returns = .ok returns ∧
      ∃ more, buildArms (g₂.assignReturns ⟨g.blocks.size⟩ returns) scope rest = .ok (more, g') ∧
        blocks = ⟨g.blocks.size⟩ :: more := by
  rw [buildArms]
  constructor
  · intro h
    obtain ⟨⟨g₁, scope₁⟩, hparams, h⟩ := bind_eq_ok_iff.1 h
    obtain ⟨⟨g₂, scope₂⟩, hbody, h⟩ := bind_eq_ok_iff.1 h
    obtain ⟨returns, hreturns, h⟩ := bind_eq_ok_iff.1 h
    obtain ⟨⟨more, g₃⟩, hrest, h⟩ := bind_eq_ok_iff.1 h
    cases h
    exact ⟨g₁, scope₁, hparams, g₂, scope₂, hbody, returns, hreturns, more, hrest, rfl⟩
  · rintro ⟨g₁, scope₁, hparams, g₂, scope₂, hbody, returns, hreturns, more, hrest, rfl⟩
    refine bind_eq_ok_iff.2 ⟨(g₁, scope₁), hparams, ?_⟩
    refine bind_eq_ok_iff.2 ⟨(g₂, scope₂), hbody, ?_⟩
    refine bind_eq_ok_iff.2 ⟨returns, hreturns, ?_⟩
    exact bind_eq_ok_iff.2 ⟨(more, g'), hrest, rfl⟩

/-- The draft as a block with what is in it.  The parameters of the graph are those of the block. -/
def GraphDraft.toArms (draft : GraphDraft) : ArmsDraft :=
  .arm ⟨draft.params, draft.block.returns⟩ draft.body .done

/-- The top block is built like any other. -/
theorem GraphDraft.build_eq_ok_iff {draft : GraphDraft} {g : Graph} : draft.build = .ok g ↔
    buildArms void .empty draft.toArms = .ok ([top], g) := by
  rw [GraphDraft.build, GraphDraft.toArms, buildArms_arm_iff]
  constructor
  · intro h
    obtain ⟨⟨g₁, scope₁⟩, hparams, h⟩ := bind_eq_ok_iff.1 h
    obtain ⟨⟨g₂, scope₂⟩, hbody, h⟩ := bind_eq_ok_iff.1 h
    obtain ⟨returns, hreturns, h⟩ := bind_eq_ok_iff.1 h
    cases h
    exact ⟨g₁, scope₁, hparams, g₂, scope₂, hbody, returns, hreturns, [], rfl, rfl⟩
  · rintro ⟨g₁, scope₁, hparams, g₂, scope₂, hbody, returns, hreturns, more, hrest, hblocks⟩
    refine bind_eq_ok_iff.2 ⟨(g₁, scope₁), hparams, ?_⟩
    refine bind_eq_ok_iff.2 ⟨(g₂, scope₂), hbody, ?_⟩
    refine bind_eq_ok_iff.2 ⟨returns, hreturns, ?_⟩
    cases hrest
    rfl

end Text

end Unguard
