import Unguard.Proofs.Numbering
import Unguard.Proofs.Reachability
import Unguard.Proofs.Repeating

/-!
# The lines of a node

The text of a node on its own is made of the lines that the node has in the text of the graph, without
their indentation, and the nodes of the top block make up the text but for its frame
(`Graph.nodeText_lines`).

Writing deeper puts the same spaces before every line (`bodyLines_add`), and a block that is entered is
written two spaces deeper than the block it is in (`Graph.WritesAt.inside`).
-/

namespace Unguard

open Text

namespace Text

/-! ### One node among others -/

/-- A node has the lines of its arms, where the first one begins with the node itself. -/
theorem bodyLines_singleton (indent : Nat) (x : NodeDraft) (arms : ArmsDraft) :
    bodyLines indent (.node x arms .done) =
      armsLines indent (indentation indent ++ x.text) " " arms := by
  rw [bodyLines, bodyLines, List.append_nil]

/-- After the lines of a node come those of the nodes after it. -/
theorem bodyLines_node (indent : Nat) (x : NodeDraft) (arms : ArmsDraft) (rest : BodyDraft) :
    bodyLines indent (.node x arms rest) =
      bodyLines indent (.node x arms .done) ++ bodyLines indent rest := by
  rw [bodyLines_singleton, bodyLines]

theorem armsLines_ne_nil (indent : Nat) (line lead : String) (arms : ArmsDraft) :
    armsLines indent line lead arms ≠ [] := by
  cases arms with
  | done => exact List.cons_ne_nil _ _
  | arm head body rest =>
    rw [armsLines]
    exact List.cons_ne_nil _ _

/-! ### Indentation -/

/-- The lines of a text with spaces before each. -/
def indentedLines (indent : Nat) (text : String) : List String :=
  (textLines text).map (indentation indent ++ ·)

/-- Indentations are put together from smaller ones. -/
theorem indentation_add (k indent : Nat) :
    indentation (k + indent) = indentation k ++ indentation indent := by
  apply String.toList_inj.1
  rw [String.toList_append, toList_indentation, toList_indentation, toList_indentation,
    List.replicate_add]

theorem returnLines_add (k indent : Nat) (returns : List Mention) :
    returnLines (k + indent) returns = (returnLines indent returns).map (indentation k ++ ·) := by
  rw [returnLines, returnLines]
  split
  · rfl
  · rw [List.map_singleton, indentation_add, String.append_assoc, String.append_assoc,
      String.append_assoc]

mutual

/-- Nodes that are written deeper have the same lines, with more spaces before each. -/
theorem bodyLines_add (k : Nat) : ∀ (indent : Nat) (body : BodyDraft),
    bodyLines (k + indent) body = (bodyLines indent body).map (indentation k ++ ·)
  | _, .done => rfl
  | indent, .node head arms rest => by
    rw [bodyLines, bodyLines, List.map_append, ← armsLines_add, bodyLines_add k indent rest,
      indentation_add, String.append_assoc]

/-- The line that the first arm goes on has the spaces already. -/
theorem armsLines_add (k : Nat) : ∀ (indent : Nat) (line lead : String) (arms : ArmsDraft),
    armsLines (k + indent) (indentation k ++ line) lead arms =
      (armsLines indent line lead arms).map (indentation k ++ ·)
  | _, _, _, .done => rfl
  | indent, line, lead, .arm head body rest => by
    rw [armsLines, armsLines, List.map_cons, List.map_append, List.map_append, ← armsLines_add,
      ← bodyLines_add, ← returnLines_add, indentation_add, String.append_assoc, String.append_assoc,
      Nat.add_assoc]

end

/-- Nodes that are written without breaks can be taken out and put back at their indentation. -/
theorem indentedLines_bodyLines {indent : Nat} {body : BodyDraft}
    (h : ∀ line ∈ bodyLines indent body, Unbroken line) :
    textLines (joinLines (bodyLines 0 body)) = bodyLines 0 body ∧
      indentedLines indent (joinLines (bodyLines 0 body)) = bodyLines indent body := by
  -- The lines without the spaces are ends of the lines with them, so they have no break, either.
  have hdeeper := bodyLines_add indent 0 body
  have hlines : textLines (joinLines (bodyLines 0 body)) = bodyLines 0 body := by
    refine textLines_joinLines fun line hline => ?_
    rw [Nat.add_zero] at hdeeper
    exact (unbroken_append.1 (h _ (hdeeper ▸ List.mem_map_of_mem hline))).2
  exact ⟨hlines, by rw [indentedLines, hlines]; exact hdeeper.symm⟩

end Text

/-! ### Nodes among lines -/

section Pairs

variable {R : NodeView → NodeDraft → Prop} {S : BlockView → BlockDraft → Prop}

/-- A node of a body is written with lines of its own. -/
theorem Body.Pairs.exists_node {n : NodeId} : ∀ {body : NodeTrees} {written : BodyDraft},
    body.Pairs R S written → n ∈ body.headIds → ∃ head arms x arms', NodeView.id head = n ∧
      (head, arms) ∈ body.subtrees ∧ R head x ∧ Arms.Pairs R S arms arms' ∧
      ∀ indent, bodyLines indent (.node x arms' .done) <:+: bodyLines indent written
  | .node head arms rest, .node x arms' rest', ⟨hhead, harms, hrest⟩, hn => by
    rw [Body.headIds_node, List.mem_cons] at hn
    rcases hn with rfl | hn
    · refine ⟨head, arms, x, arms', rfl, List.mem_cons_self, hhead, harms, fun indent => ?_⟩
      rw [bodyLines_node indent x arms' rest']
      exact (List.prefix_append _ _).isInfix
    · obtain ⟨head, inside, x, inside', hid, hmem, hx, hinside, hwithin⟩ := hrest.exists_node hn
      refine ⟨head, inside, x, inside', hid, ?_, hx, hinside, fun indent => ?_⟩
      · rw [Body.subtrees, List.mem_cons, List.mem_append]
        exact Or.inr (Or.inr hmem)
      · rw [bodyLines_node indent _ _ rest']
        exact (hwithin indent).trans (List.suffix_append _ _).isInfix

/-- An arm of a node is written two spaces deeper than the node. -/
theorem Arms.Pairs.exists_arm {g : Graph} {b : BlockId} : ∀ {arms : BlockTrees} {written : ArmsDraft},
    arms.Pairs R S written → arms.ShownBy g → b ∈ arms.headIds → ∃ block body body',
      g.block? b = some block ∧ block.nodes = Body.headIds body ∧ body.ShownBy g ∧
      body.subtrees ⊆ arms.subtrees ∧ Body.Pairs R S body body' ∧
      ∀ indent line lead, bodyLines (indent + 2) body' <:+: armsLines indent line lead written
  | .arm head body rest, .arm x body' rest', ⟨_, hbody, hrest⟩, ⟨⟨block, hblock, _, hnodes⟩, hshown,
      hshownRest⟩, hb => by
    rw [Arms.headIds_arm, List.mem_cons] at hb
    rcases hb with rfl | hb
    · refine ⟨block, body, body', hblock, hnodes, hshown, fun p hp => List.mem_append_left _ hp, hbody,
        fun indent line lead => ?_⟩
      rw [armsLines, List.append_assoc]
      exact (List.prefix_append _ _).isInfix.trans (List.suffix_cons _ _).isInfix
    · obtain ⟨block, inside, inside', hblock, hnodes, hshown, hsub, hinside, hwithin⟩ :=
        hrest.exists_arm hshownRest hb
      refine ⟨block, inside, inside', hblock, hnodes, hshown, fun p hp => List.mem_append_right _ (hsub hp),
        hinside, fun indent line lead => ?_⟩
      rw [armsLines]
      exact ((hwithin indent _ _).trans (List.suffix_append _ _).isInfix).trans
        (List.suffix_cons _ _).isInfix

end Pairs

namespace Graph

variable {g : Graph} {t : BlockTree}

/-! ### A node on its own -/

/-- A node of the tree is written out as it stands in the tree. -/
theorem Represents.unfoldNodes_subtree (h : g.Represents t) (hshape : t.toArms.Shaped)
    {head : NodeView} {arms : BlockTrees} (hmem : (head, arms) ∈ t.toArms.subtrees) :
    g.unfoldNodes writesBlocks g.writtenBlock [head.id] = .ok (.node head arms .done) := by
  -- The nodes that are not entered own no blocks, so nothing of the node is left out.
  obtain ⟨b, -, hnode, -⟩ := h.parent hmem
  have hinside := h.stand_inside hmem
  have hstand : Body.Stand g (some b) (.node head arms .done) := ⟨hnode, hinside, trivial⟩
  have hheight : max arms.height 0 ≤ g.blocks.size := by
    rw [Nat.max_zero]
    exact hinside.shownBy.height_le (h.nodup_blockIds_subtree hmem)
  refine unfoldNodes_of_stand g.blocks.size hstand hheight fun p hp => ?_
  rw [Body.subtrees, Body.subtrees, List.append_nil, List.mem_cons] at hp
  have hp : p ∈ t.toArms.subtrees := by
    rcases hp with rfl | hp
    · exact hmem
    · exact Arms.subtrees_trans hmem hp
  exact fun place => hshape.eq_done_of_writesBlocks hp

/-- A node on its own is written as the draft of the graph has it, only without indentation. -/
theorem Represents.nodeText_eq (h : g.Represents t) (hshape : t.toArms.Shaped)
    {head : NodeView} {arms : BlockTrees} (hmem : (head, arms) ∈ t.toArms.subtrees) {x : NodeDraft}
    {arms' : ArmsDraft} (hhead : outlineNode g t.definitions head = .ok x)
    (harms : arms.traverse (outlineNode g t.definitions) (outlineBlock g t.definitions) = .ok arms') :
    g.nodeText head.id = .ok (joinLines (bodyLines 0 (.node x arms' .done))) := by
  rw [nodeText, nodeLines, numbering, h.tree_eq, ok_bind, pure_eq_ok, ok_bind,
    h.unfoldNodes_subtree hshape hmem, ok_bind, outlineNodes, Body.traverse, hhead, ok_bind, harms]
  rfl

/-- The nodes of a body, each on its own, have the lines of the body. -/
theorem Represents.traverse_nodeText (h : g.Represents t) (hshape : t.toArms.Shaped) {indent : Nat} :
    ∀ {body : NodeTrees} {written : BodyDraft}, body.subtrees ⊆ t.toArms.subtrees →
      body.Pairs (fun x y => outlineNode g t.definitions x = .ok y)
        (fun b c => outlineBlock g t.definitions b = .ok c) written →
      (∀ line ∈ bodyLines indent written, Unbroken line) →
      ∃ texts, traverse g.nodeText body.headIds = .ok texts ∧
        texts.flatMap (indentedLines indent) = bodyLines indent written
  | .done, .done, _, _, _ => ⟨[], rfl, rfl⟩
  | .node head arms rest, .node x arms' rest', hsub, ⟨hhead, harms, hrest⟩, hlines => by
    have hsub := List.cons_subset.1 hsub
    have hnode := h.nodeText_eq hshape hsub.1 hhead (Arms.traverse_eq_ok_iff.2 harms)
    rw [bodyLines_node, List.forall_mem_append] at hlines
    obtain ⟨texts, htexts, hflat⟩ := h.traverse_nodeText hshape
      (fun p hp => hsub.2 (List.mem_append_right _ hp)) hrest hlines.2
    refine ⟨_, traverse_cons hnode htexts, ?_⟩
    rw [List.flatMap_cons, (indentedLines_bodyLines hlines.1).2, hflat, ← bodyLines_node]

/-! ### Nesting -/

/-- Blocks at a depth of nesting: the top block has depth one, and a block is one deeper than the block
that its node stands in. -/
inductive BlockAt (g : Graph) : Nat → BlockId → Prop
  | top : BlockAt g 1 Graph.top
  | inside {d : Nat} {b c : BlockId} {n : NodeId} {block : Block} {node : Node} : BlockAt g d b →
    g.block? b = some block → n ∈ block.nodes → g.node? n = some node → c ∈ node.blocks →
    BlockAt g (d + 1) c

/-- Nodes in a block at that depth. -/
def NodeAt (g : Graph) (d : Nat) (n : NodeId) : Prop :=
  g.StandsIn (g.BlockAt d) n

/-- A node that can be reached is at some depth. -/
theorem ReachesNode.exists_nodeAt {n : NodeId} (h : g.ReachesNode n) : ∃ d, g.NodeAt d n := by
  have hdepth : ∀ b, g.ReachesBlock b → ∃ d, g.BlockAt d b := by
    intro b hb
    induction hb with
    | top => exact ⟨1, .top⟩
    | inside _ hblock hn hnode hc ih =>
      obtain ⟨d, hd⟩ := ih
      exact ⟨d + 1, hd.inside hblock hn hnode hc⟩
  obtain ⟨b, block, hb, hblock, hn⟩ := h
  obtain ⟨d, hd⟩ := hdepth b hb
  exact ⟨d, b, block, hd, hblock, hn⟩

/-- The lines hold the nodes of the block, as the tree has them, after so many spaces. -/
def WritesAt (g : Graph) (t : BlockTree) (lines : List String) (indent : Nat) (b : BlockId) : Prop :=
  ∃ block body written, g.block? b = some block ∧ block.nodes = Body.headIds body ∧
    body.ShownBy g ∧ body.subtrees ⊆ t.toArms.subtrees ∧
    outlineNodes g t.definitions body = .ok written ∧ bodyLines indent written <:+: lines

section WritesAt

variable {lines : List String} {indent : Nat} {b : BlockId} {n : NodeId} {block : Block}

/-- A node of the block is written on its own as it is among the lines, but for the spaces. -/
theorem WritesAt.node (h : g.WritesAt t lines indent b) (hblock : g.block? b = some block)
    (hn : n ∈ block.nodes) : ∃ head arms x arms', NodeView.id head = n ∧
      (head, arms) ∈ t.toArms.subtrees ∧ outlineNode g t.definitions head = .ok x ∧
      arms.traverse (outlineNode g t.definitions) (outlineBlock g t.definitions) = .ok arms' ∧
      bodyLines indent (.node x arms' .done) <:+: lines := by
  obtain ⟨block', body, written, hblock', hnodes, hshown, hsub, hwritten, hwithin⟩ := h
  obtain rfl := Option.some.inj (hblock.symm.trans hblock')
  obtain ⟨head, arms, x, arms', hid, hmem, hhead, harms, hnode⟩ :=
    (Body.traverse_eq_ok_iff.1 hwritten).exists_node (hnodes ▸ hn)
  exact ⟨head, arms, x, arms', hid, hsub hmem, hhead, Arms.traverse_eq_ok_iff.2 harms,
    (hnode indent).trans hwithin⟩

/-- A block of a node that is written is written two spaces deeper. -/
theorem WritesAt.inside (hg : g.Represents t) (h : g.WritesAt t lines indent b)
    (hblock : g.block? b = some block) (hn : n ∈ block.nodes) {node : Node}
    (hnode : g.node? n = some node) {c : BlockId} (hc : c ∈ node.blocks) :
    g.WritesAt t lines (indent + 2) c := by
  obtain ⟨head, arms, x, arms', rfl, hmem, -, harms, hwithin⟩ := h.node hblock hn
  obtain ⟨node', hnode', -, hblocks⟩ := hg.stand.shownBy.subtree hmem
  obtain rfl := Option.some.inj (hnode.symm.trans hnode')
  obtain ⟨inner, body, body', hinner, hnodes, hshown, hsub, hbody, harm⟩ :=
    (Arms.traverse_eq_ok_iff.1 harms).exists_arm (hg.stand.shownBy.inside hmem) (hblocks ▸ hc)
  rw [bodyLines_singleton] at hwithin
  exact ⟨inner, body, body', hinner, hnodes, hshown, fun p hp => Arms.subtrees_trans hmem (hsub hp),
    Body.traverse_eq_ok_iff.2 hbody, (harm _ _ _).trans hwithin⟩

/-- By induction on the way from the top, every block is written with two blanks for each level. -/
theorem BlockAt.writesAt (hg : g.Represents t) (htop : g.WritesAt t lines 2 Graph.top) {d : Nat}
    (h : g.BlockAt d b) : g.WritesAt t lines (2 * d) b := by
  induction h with
  | top => exact htop
  | inside _ hblock hn hnode hc ih => exact ih.inside hg hblock hn hnode hc

end WritesAt

section Draft

variable {draft : GraphDraft}

/-- The top block is written with the first indentation. -/
theorem Represents.writesAt_top (h : g.Represents t)
    (hdraft : outlineGraph g t.definitions t = .ok draft) : g.WritesAt t draft.lines 2 Graph.top := by
  obtain ⟨params, -, hdraft⟩ := bind_eq_ok_iff.1 hdraft
  obtain ⟨body, hbody, hdraft⟩ := bind_eq_ok_iff.1 hdraft
  obtain rfl := Except.ok.inj hdraft
  obtain ⟨⟨block, hblock, -, hnodes⟩, hshown, -⟩ := h.stand.shownBy
  refine ⟨block, t.body, body, h.top ▸ hblock, hnodes, hshown,
    fun p hp => List.mem_append_left _ hp, hbody, ?_⟩
  rw [GraphDraft.lines, List.append_assoc]
  exact (List.prefix_append _ _).isInfix.trans (List.suffix_cons _ _).isInfix

/-- A node at a depth has a text, whose lines are among those of the graph. -/
theorem NodeAt.nodeText_within (hg : g.Represents t) (hshape : t.toArms.Shaped)
    (hdraft : outlineGraph g t.definitions t = .ok draft) (hnamed : draft.Named) {d : Nat} {n : NodeId}
    (h : g.NodeAt d n) : ∃ s, g.nodeText n = .ok s ∧ joinLines (textLines s) = s ∧ textLines s ≠ [] ∧
      indentedLines (2 * d) s <:+: draft.lines := by
  obtain ⟨b, block, hb, hblock, hn⟩ := h
  obtain ⟨head, arms, x, arms', rfl, hmem, hhead, harms, hwithin⟩ :=
    (hb.writesAt hg (hg.writesAt_top hdraft)).node hblock hn
  obtain ⟨hlines, hindented⟩ := indentedLines_bodyLines fun line hline =>
    draft.unbroken_lines hnamed line (hwithin.subset hline)
  refine ⟨_, hg.nodeText_eq hshape hmem hhead harms, by rw [hlines], ?_, hindented ▸ hwithin⟩
  rw [hlines, bodyLines_singleton]
  exact armsLines_ne_nil _ _ _ _

/-- The lines of a graph are those of the nodes of its top block, in a frame. -/
theorem Represents.lines_eq (hg : g.Represents t) (hshape : t.toArms.Shaped)
    (hdraft : outlineGraph g t.definitions t = .ok draft) (hnamed : draft.Named) :
    ∃ block params texts, g.block? Graph.top = some block ∧
      outlineParams g t.definitions block.params = .ok params ∧
      traverse g.nodeText block.nodes = .ok texts ∧
      draft.lines = ("graph(" ++ paramsText params ++ ") \x7b") :: (texts.flatMap (indentedLines 2) ++
        returnLines 2 (block.returns.map (numbered t.definitions)) ++ ["\x7d"]) := by
  obtain ⟨params, hparams, hdraft⟩ := bind_eq_ok_iff.1 hdraft
  obtain ⟨body, hbody, hdraft⟩ := bind_eq_ok_iff.1 hdraft
  obtain rfl := Except.ok.inj hdraft
  obtain ⟨⟨block, hblock, hview, hnodes⟩, -⟩ := hg.stand.shownBy
  obtain ⟨texts, htexts, hflat⟩ := hg.traverse_nodeText hshape (fun p hp => List.mem_append_left _ hp)
    (Body.traverse_eq_ok_iff.1 hbody) (unbroken_bodyLines 2 hnamed.body)
  have hblockParams : block.params = t.head.params := congrArg BlockView.params hview
  have hblockReturns : block.returns = t.head.returns := congrArg BlockView.returns hview
  refine ⟨block, params, texts, hg.top ▸ hblock, hblockParams ▸ hparams, hnodes ▸ htexts, ?_⟩
  rw [hflat, hblockReturns, GraphDraft.lines]

end Draft

/-- **Nodes and the text of the graph.**  Let a graph be read from a text and go through any sequence of
passes.  It has a text, and every node that is reached has one.  With two spaces for each level of
nesting before its lines, the lines of a node follow each other among those of the graph.  Between the
first line, which has the parameters, and the line that returns values, or else the closing brace, stand
the lines of the nodes of the top block and nothing else. -/
theorem nodeText_lines (source : String) (g₀ g : Graph) (runs : List PassRun)
    (hread : Graph.ofText source = .ok g₀) (hruns : g₀.applyRuns runs = .ok g) :
    ∃ text, g.text = .ok text ∧ joinLines (textLines text) = text ∧
      (∀ n, g.ReachesNode n → ∃ d, g.NodeAt d n) ∧
      (∀ n d, g.NodeAt d n → ∃ s, g.nodeText n = .ok s ∧ joinLines (textLines s) = s ∧
        textLines s ≠ [] ∧ indentedLines (2 * d) s <:+: textLines text) ∧
      ∃ block order params texts, g.block? Graph.top = some block ∧ g.numbering = .ok order ∧
        outlineParams g order block.params = .ok params ∧
        traverse g.nodeText block.nodes = .ok texts ∧
        textLines text = ("graph(" ++ paramsText params ++ ") \x7b") ::
          (texts.flatMap (indentedLines 2) ++ returnLines 2 (block.returns.map (numbered order)) ++
            ["\x7d"]) := by
  -- Passes keep that the names follow the grammar, and so that no line is broken.
  obtain ⟨t₀, hholds₀⟩ := printable_ofText hread
  have hkept : KeptByPasses (fun _ => True) Printable := keptByPasses_printable
  obtain ⟨t, hholds⟩ := hkept.of_runs (fun r _ => by cases r <;> trivial) hholds₀ hruns
  obtain ⟨draft, hdraft, hnamed, -, htext⟩ := Printable.exists_text hholds
  obtain ⟨hg, -, hshape, -⟩ := hholds
  have hlines : textLines draft.text = draft.lines :=
    textLines_joinLines (draft.unbroken_lines hnamed)
  have hnumbering : g.numbering = .ok t.definitions := by
    rw [numbering, hg.tree_eq]
    rfl
  obtain ⟨block, params, texts, hblock, hparams, htexts, hframe⟩ := hg.lines_eq hshape hdraft hnamed
  refine ⟨draft.text, htext, by rw [hlines]; rfl, fun n hn => hn.exists_nodeAt, ?_, block,
    t.definitions, params, texts, hblock, hnumbering, hparams, htexts, hlines.trans hframe⟩
  intro n d hn
  rw [hlines]
  exact hn.nodeText_within hg hshape hdraft hnamed

/-- A conditional inside a conditional, with a break in a string, after a node that nothing needs. -/
def nestedQuery : String :=
  "graph(%c: a.b) \x7b %u = a.h() : a.b if(%c) \x7b if(%c) \x7b \x7d else \x7b " ++
    "%v = a.f() \x7bs = \"\\n\"\x7d : a.c a.g(%v) \x7d \x7d else \x7b \x7d \x7d"

/-- Once the first node is gone, `%v` has its number, also where the inner conditional is written on its
own. -/
theorem nodeText_lines_nestedQuery : ∃ g₀ g text s, Graph.ofText nestedQuery = .ok g₀ ∧
    g₀.applyRuns [.sweeping (.ofList [⟨"a", "g"⟩]) 2] = .ok g ∧ g.NodeAt 2 ⟨3⟩ ∧
    g.text = .ok text ∧ g.nodeText ⟨3⟩ = .ok s ∧
    textLines s = ["if(%0) \x7b", "\x7d else \x7b", "  %1 = a.f() \x7bs = \"\\n\"\x7d : a.c",
      "  a.g(%1)", "\x7d"] ∧
    indentedLines 4 s <:+: textLines text := by
  have hrun : (Graph.ofText nestedQuery).toOption.bind (fun g₀ =>
      (g₀.applyRuns [.sweeping (.ofList [⟨"a", "g"⟩]) 2]).toOption.bind fun g =>
        (g.block? Graph.top).bind fun block => (g.node? ⟨4⟩).bind fun node =>
          (g.block? ⟨1⟩).bind fun inner => (g.nodeText ⟨3⟩).toOption.map fun s =>
            (block.nodes, node.blocks, inner.nodes, textLines s)) =
      some ([⟨4⟩], [⟨1⟩, ⟨4⟩], [⟨3⟩], ["if(%0) \x7b", "\x7d else \x7b",
        "  %1 = a.f() \x7bs = \"\\n\"\x7d : a.c", "  a.g(%1)", "\x7d"]) := by
    decide +kernel
  simp only [Option.bind_eq_some_iff, Option.map_eq_some_iff, toOption_eq_some_iff,
    Prod.mk.injEq] at hrun
  obtain ⟨g₀, hread, g, hruns, block, hblock, node, hnode, inner, hinner, s, hs, hnodes, hblocks,
    hinnerNodes, hlines⟩ := hrun
  have hdepth : g.NodeAt 2 ⟨3⟩ := by
    refine ⟨⟨1⟩, inner, .inside .top hblock ?_ hnode ?_, hinner, ?_⟩
    · exact hnodes ▸ List.mem_cons_self
    · exact hblocks ▸ List.mem_cons_self
    · exact hinnerNodes ▸ List.mem_cons_self
  obtain ⟨text, htext, -, -, hnested, -⟩ := nodeText_lines nestedQuery g₀ g _ hread hruns
  obtain ⟨s', hs', -, -, hwithin⟩ := hnested ⟨3⟩ 2 hdepth
  obtain rfl := Except.ok.inj (hs.symm.trans hs')
  exact ⟨g₀, g, text, s, hread, hruns, hdepth, htext, hs, hlines, hwithin⟩

end Graph

end Unguard
