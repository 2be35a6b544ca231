import Unguard.Proofs.Drafting

/-!
# Drafts are built as they are

A graph that is built from a draft looks like the draft: its tree is written as the draft once every
value has the name that the draft gives it (`GraphDraft.build_written`), which is its debug name too
unless it is just digits.  Building fails only where a name has no
definition, has two, or where results and types do not match in number, so a draft that some
well-formed tree looks like can be built (`GraphDraft.build_ok`).
-/

namespace Unguard

/-! ### Graphs that only grow -/

namespace Graph

/-- The types and the values of `g` are those of `g'`, which may have more. -/
structure Kept (g g' : Graph) : Prop where
  types : g.types.Kept g'.types
  value : ∀ v value, g.value? v = some value → g'.value? v = some value

/-- The debug name of the value is this name, or there is none if the name is just digits. -/
def NamedAfter (g : Graph) (v : ValueId) (name : String) : Prop :=
  ∃ value, g.value? v = some value ∧
    value.label.name = if name.toList.all Char.isDigit then none else some name

namespace Kept

open Text

variable {g g' g'' : Graph}

theorem refl (g : Graph) : g.Kept g :=
  ⟨.refl _, fun _ _ h => h⟩

theorem trans (h : g.Kept g') (h' : g'.Kept g'') : g.Kept g'' :=
  ⟨h.types.trans h'.types, fun v value hv => h'.value v value (h.value v value hv)⟩

theorem withTypes {types : TypeTable} (h : g.types.Kept types) : g.Kept { g with types } :=
  ⟨h, fun _ _ hv => hv⟩

theorem newBlock (g : Graph) : g.Kept g.newBlock.2 :=
  ⟨.refl _, fun _ _ hv => hv⟩

theorem allocParam (g : Graph) (b : BlockId) (label : Label) : g.Kept (g.allocParam b label).2 := by
  refine ⟨.refl _, fun v value hv => ?_⟩
  have hlt := index_lt_of_value? _ hv
  have hne : v ≠ ⟨g.values.size⟩ := fun he => by
    subst he
    exact Nat.lt_irrefl _ hlt
  rw [value?_allocParam, if_neg hne]
  exact hv

theorem allocNode (g : Graph) (spec : NodeSpec) : g.Kept (g.allocNode spec).2 := by
  refine ⟨.refl _, fun v value hv => ?_⟩
  rw [value?_allocNode_of_lt _ _ (index_lt_of_value? _ hv)]
  exact hv

theorem attachLast (g : Graph) (b : BlockId) (n : NodeId) : g.Kept (g.attachLast b n) :=
  ⟨.refl _, fun _ _ hv => hv⟩

theorem assignReturns (g : Graph) (b : BlockId) (values : List ValueId) :
    g.Kept (g.assignReturns b values) := by
  refine ⟨?_, fun v value hv => ?_⟩
  · rw [types_assignReturns]
    exact .refl _
  · rw [value?_assignReturns]
    exact hv

/-- Types of values that were there are written as before. -/
theorem typeOf (h : g.Kept g') {v : ValueId} {ty : TypeTree} (hv : g.typeOf v = .ok ty) :
    g'.typeOf v = .ok ty := by
  obtain ⟨value, hvalue, hv⟩ := bind_eq_ok_iff.1 hv
  have hvalue' := h.value v value ((value_eq_ok_iff g).1 hvalue)
  rw [Graph.typeOf, (value_eq_ok_iff g').2 hvalue', ok_bind]
  exact h.types.expand hv

/-- Names of values that were there are kept. -/
theorem namedAfter (h : g.Kept g') {vs : List ValueId} {names : List String}
    (hvs : List.Forall₂ g.NamedAfter vs names) : List.Forall₂ g'.NamedAfter vs names := by
  refine hvs.imp fun v name hv => ?_
  obtain ⟨value, hvalue, hname⟩ := hv
  exact ⟨value, h.value v value hvalue, hname⟩

/-- What a node looked like it still looks like. -/
theorem nodeWritten (h : g.Kept g') {nm : ValueId → String} {x : NodeView} {d : NodeDraft}
    (hx : g.NodeWritten nm x d) : g'.NodeWritten nm x d := by
  obtain ⟨entries, hentries, hwritten⟩ := hx.attributes
  refine ⟨hx.kind, hx.inputs, hx.outputs, ⟨entries, hentries, ?_⟩, ?_⟩
  · exact traverse_mono (fun _ _ he => Text.Kept.writtenEntry h.types he) hwritten
  · exact traverse_mono (fun _ _ hv => h.typeOf hv) hx.types

theorem blockWritten (h : g.Kept g') {nm : ValueId → String} {b : BlockView} {d : BlockDraft}
    (hb : g.BlockWritten nm b d) : g'.BlockWritten nm b d :=
  ⟨hb.params, traverse_mono (fun _ _ hv => h.typeOf hv) hb.types, hb.returns⟩

end Kept

/-- The type of a new parameter is the one that its label has. -/
theorem typeOf_allocParam (g : Graph) (b : BlockId) (label : Label) :
    (g.allocParam b label).2.typeOf ⟨g.values.size⟩ = g.types.expand label.ty := by
  have hvalue := (value?_allocParam g b label ⟨g.values.size⟩).trans (if_pos rfl)
  rw [typeOf, (value_eq_ok_iff _).2 hvalue, ok_bind]
  rfl

/-- The outputs of a new node have the types of their labels. -/
theorem traverse_typeOf_newOutputs {g : Graph} {spec : NodeSpec} {types : List TypeTree}
    (h : traverse (fun label => g.types.expand label.ty) spec.outputs = .ok types) :
    traverse (g.allocNode spec).2.typeOf (g.newOutputs spec) = .ok types := by
  rw [traverse_eq_ok_iff, List.forall₂_iff_get] at h ⊢
  obtain ⟨hlength, hget⟩ := h
  refine ⟨?_, fun i hi hi' => ?_⟩
  · rw [newOutputs, List.length_map, List.length_range', hlength]
  · rw [newOutputs, List.length_map, List.length_range'] at hi
    have hvalue := value?_allocNode_output g spec hi
    have hoi : (g.newOutputs spec).get ⟨i, by simpa [newOutputs] using hi⟩ = ⟨g.values.size + i⟩ := by
      simp [newOutputs]
    rw [hoi, typeOf, (value_eq_ok_iff _).2 hvalue, ok_bind]
    exact hget i hi hi'

/-- A name of digits only is not kept, since it is given anew in writing. -/
theorem namedAfter_allocParam (g : Graph) (b : BlockId) (label : Label) {name : String}
    (h : label.name = if name.toList.all Char.isDigit then none else some name) :
    (g.allocParam b label).2.NamedAfter ⟨g.values.size⟩ name :=
  ⟨_, (value?_allocParam g b label ⟨g.values.size⟩).trans (if_pos rfl), h⟩

/-- The outputs of a new node have the debug names of their labels. -/
theorem namedAfter_newOutputs {g : Graph} {spec : NodeSpec} {names : List String}
    (h : List.Forall₂ (fun label name =>
      Label.name label = if name.toList.all Char.isDigit then none else some name) spec.outputs names) :
    List.Forall₂ (g.allocNode spec).2.NamedAfter (g.newOutputs spec) names := by
  rw [List.forall₂_iff_get] at h ⊢
  obtain ⟨hlength, hget⟩ := h
  refine ⟨?_, fun i hi hi' => ?_⟩
  · rw [newOutputs, List.length_map, List.length_range', hlength]
  · rw [newOutputs, List.length_map, List.length_range'] at hi
    have hoi : (g.newOutputs spec).get ⟨i, by simpa [newOutputs] using hi⟩ = ⟨g.values.size + i⟩ := by
      simp [newOutputs]
    rw [hoi]
    exact ⟨_, value?_allocNode_output g spec hi, hget i hi hi'⟩

end Graph

namespace Text

open Unguard.Graph

/-! ### Names in scope -/

namespace Scope

variable {scope scope' : Scope} {nm : ValueId → String}

/-- The names in scope are those that the values have. -/
def Agrees (scope : Scope) (nm : ValueId → String) : Prop :=
  ∀ e ∈ scope.entries, nm e.2 = e.1

/-- A mention is resolved to the value that has its name. -/
theorem Agrees.resolve (h : scope.Agrees nm) {m : Mention} {v : ValueId}
    (hm : scope.resolve m = .ok v) : nm v = m.name := by
  rw [Scope.resolve] at hm
  split at hm
  · rename_i w hw
    obtain rfl := Except.ok.inj hm
    obtain ⟨before, after, hentries, -⟩ := List.lookup_eq_some_iff.1 hw
    refine h (m.name, w) ?_
    rw [hentries]
    simp
  · cases hm

theorem Agrees.traverse_resolve (h : scope.Agrees nm) {ms : List Mention} {vs : List ValueId}
    (hms : traverse scope.resolve ms = .ok vs) : vs.map nm = ms.map Mention.name := by
  have hpairs := traverse_eq_ok_iff.1 hms
  clear hms
  induction hpairs with
  | nil => rfl
  | cons hm _ ih => rw [List.map_cons, List.map_cons, h.resolve hm, ih]

theorem Agrees.define (h : scope.Agrees nm) {m : Mention} {v : ValueId} (hv : nm v = m.name)
    (hm : scope.define m v = .ok scope') : scope'.Agrees nm := by
  rw [Scope.define] at hm
  split at hm
  · cases hm
  · obtain rfl := Except.ok.inj hm
    exact List.forall_mem_cons.2 ⟨hv, h⟩

/-- New names are those of the values they are given to. -/
theorem Agrees.defineAll {ms : List Mention} {vs : List ValueId} (h : scope.Agrees nm)
    (hvs : vs.map nm = ms.map Mention.name) (hms : scope.defineAll ms vs = .ok scope') :
    scope'.Agrees nm := by
  induction ms generalizing vs scope with
  | nil =>
    obtain rfl := Except.ok.inj hms
    exact h
  | cons m ms ih =>
    obtain ⟨v, vs, rfl, hv, hvs⟩ := List.map_eq_cons_iff.1 hvs
    rw [Scope.defineAll] at hms
    obtain ⟨scope₁, hscope, hms⟩ := bind_eq_ok_iff.1 hms
    exact ih (h.define hv hscope) hvs hms

end Scope

/-! ### Steps of building -/

theorem kept_withNode (g : Graph) (spec : NodeSpec) (b : BlockId) : g.Kept (withNode g spec b) :=
  (Graph.Kept.allocNode g spec).trans (.attachLast _ b _)

/-- A node passes its check only if it has as many results as types. -/
theorem NodeDraft.length_results_of_check {d : NodeDraft} (h : d.check = .ok ()) :
    d.results.length = d.types.length := by
  by_contra hne
  rw [NodeDraft.check, if_pos hne] at h
  exact nomatch h

/-- Labels get their names from the mentions, one by one. -/
theorem forall₂_internLabels {t : TypeTable} {ms : List Mention} {tys : List TypeTree}
    (h : ms.length = tys.length) : List.Forall₂ (fun label name =>
      Label.name label = if name.toList.all Char.isDigit then none else some name)
      (internLabels t ms tys).1 (ms.map Mention.name) := by
  induction ms generalizing t tys with
  | nil => exact .nil
  | cons m ms ih =>
    obtain ⟨ty, tys, rfl⟩ := List.exists_cons_of_length_eq_add_one h.symm
    exact .cons rfl (ih (Nat.succ.inj h))

theorem length_internLabels {t : TypeTable} {ms : List Mention} {tys : List TypeTree}
    (h : ms.length = tys.length) : (internLabels t ms tys).1.length = ms.length := by
  rw [(forall₂_internLabels h).length_eq, List.length_map]

/-- A node that is made from a draft has as many outputs as there are results. -/
theorem length_newOutputs_spec {g : Graph} {d : NodeDraft} {t : TypeTable} {inputs : List ValueId}
    {blocks : List BlockId} (h : d.results.length = d.types.length) :
    (g.newOutputs (d.spec t inputs blocks)).length = d.results.length := by
  rw [newOutputs, List.length_map, List.length_range']
  exact length_internLabels h

theorem NodeDraft.kept_interned (d : NodeDraft) (t : TypeTable) : t.Kept (d.interned t) :=
  (kept_internAttributes _ _).trans (kept_internLabels _ _ _)

/-! ### What was built -/

/-- The new parameters, and what they look like. -/
theorem buildParams_written {g₀ : Graph} {params : List (Mention × TypeTree)} {made : List ValueId}
    {g g' : Graph} {scope scope' : Scope} (hopened : Opened made g₀ g) (hm : g.Mirrored)
    (ht : g.Typed) (h : buildParams g scope ⟨g₀.blocks.size⟩ params = .ok (g', scope')) :
    ∃ new, (Opened (made ++ new) g₀ g' ∧ g'.Mirrored ∧ scope'.values ⊆ new ++ scope.values) ∧
      g.Kept g' ∧ traverse g'.typeOf new = .ok (params.map Prod.snd) ∧
      List.Forall₂ g'.NamedAfter new (params.map fun p => p.1.name) ∧
      ∀ nm, scope.Agrees nm → (new.map nm = params.map fun p => p.1.name) → scope'.Agrees nm := by
  induction params generalizing made g scope with
  | nil =>
    cases h
    refine ⟨[], ⟨?_, hm, List.Subset.refl _⟩, .refl _, rfl, .nil, fun _ hscope _ => hscope⟩
    rwa [List.append_nil]
  | cons p params ih =>
    obtain ⟨m, ty⟩ := p
    rw [buildParams] at h
    obtain ⟨scope₁, hscope, h⟩ := bind_eq_ok_iff.1 h
    obtain ⟨hgrown, hlabel⟩ := ht.closed.internTree ty
    have hkept : g.Kept { g with types := (g.types.internTree ty).2 } :=
      .withTypes (TypeTable.kept_internTree _ _)
    have htype := ht.closed.expand_internTree ty
    obtain ⟨new, ⟨hnew, hm', hvalues⟩, hkept', htypes, hnamed, hagrees⟩ := ih
      ((hopened.withTypes _).allocParam _) ((hm.withTypes _).allocParam _ _)
      ((ht.withTypes hgrown).allocParam _ hlabel) h
    -- The parameter made here is kept by all that is made after it.
    refine ⟨⟨g.values.size⟩ :: new, ⟨?_, hm', ?_⟩, ?_, ?_, ?_, ?_⟩
    · rwa [List.append_assoc] at hnew
    · rw [Scope.values_define hscope] at hvalues
      refine List.Subset.trans hvalues fun w hw => ?_
      simp only [List.mem_append, List.mem_cons] at hw ⊢
      tauto
    · exact (hkept.trans (.allocParam _ _ _)).trans hkept'
    · exact traverse_cons (hkept'.typeOf ((typeOf_allocParam _ _ _).trans htype)) htypes
    · have hfirst := hkept'.namedAfter (.cons (namedAfter_allocParam _ _ _ rfl) .nil)
      exact .cons (List.forall₂_cons.1 hfirst).1 hnamed
    · intro nm hnm hnames
      obtain ⟨hname, hnames⟩ := List.cons.inj hnames
      exact hagrees nm (hnm.define hname hscope) hnames

/-- The nodes look like the draft, once their values have the names that the draft gives them. -/
structure Drawn (scope scope' : Scope) (draft : BodyDraft) (body : NodeTrees) (g g' : Graph) :
    Prop where
  kept : g.Kept g'
  named : List.Forall₂ g'.NamedAfter (NodeTrees.definitions body) (BodyDraft.names draft)
  written : ∀ nm, scope.Agrees nm → (NodeTrees.definitions body).map nm = BodyDraft.names draft →
    body.Pairs (g'.NodeWritten nm) (g'.BlockWritten nm) draft ∧ scope'.Agrees nm

/-- The blocks look like the draft, once their values have the names that the draft gives them. -/
structure DrawnArms (scope : Scope) (draft : ArmsDraft) (arms : BlockTrees) (g g' : Graph) :
    Prop where
  kept : g.Kept g'
  named : List.Forall₂ g'.NamedAfter (BlockTrees.definitions arms) (ArmsDraft.names draft)
  written : ∀ nm, scope.Agrees nm → (BlockTrees.definitions arms).map nm = ArmsDraft.names draft →
    arms.Pairs (g'.NodeWritten nm) (g'.BlockWritten nm) draft

section Steps

variable {g g₁ g₂ : Graph} {scope scope₁ scope₂ : Scope}

/-- A node over its blocks, and then the nodes after it. -/
theorem DrawnArms.node {arms : BlockTrees} {draft : ArmsDraft} {x : NodeView} {head : NodeDraft}
    {rest : BodyDraft} {rest' : NodeTrees} {g' : Graph} (h : DrawnArms scope draft arms g g₁)
    (hkept : g₁.Kept g') (hnamed : List.Forall₂ g'.NamedAfter x.outputs (head.results.map Mention.name))
    (hscope : ∀ nm, scope.Agrees nm → x.outputs.map nm = head.results.map Mention.name →
      g'.NodeWritten nm x head ∧ scope₁.Agrees nm)
    (hrest : Drawn scope₁ scope₂ rest rest' g' g₂) :
    Drawn scope scope₂ (.node head draft rest) (.node x arms rest') g g₂ where
  kept := (h.kept.trans hkept).trans hrest.kept
  named := by
    show List.Forall₂ _ _ (head.results.map Mention.name ++
      (ArmsDraft.names draft ++ BodyDraft.names rest))
    rw [NodeTrees.definitions_node]
    exact List.rel_append (hrest.kept.namedAfter hnamed)
      (List.rel_append ((hkept.trans hrest.kept).namedAfter h.named) hrest.named)
  written nm hnm hnames := by
    rw [NodeTrees.definitions_node, List.map_append, List.map_append] at hnames
    -- The names stand in the order of the text, so they split where the results end and where the
    -- arms end.
    obtain ⟨houtputs, hnames⟩ := List.append_inj hnames ((List.length_map _).trans hnamed.length_eq)
    obtain ⟨hinside, hafter⟩ := List.append_inj hnames ((List.length_map _).trans h.named.length_eq)
    obtain ⟨hx, hnm'⟩ := hscope nm hnm houtputs
    obtain ⟨hpairs, hlast⟩ := hrest.written nm hnm' hafter
    refine ⟨⟨hrest.kept.nodeWritten hx, ?_, hpairs⟩, hlast⟩
    have hkept' := hkept.trans hrest.kept
    exact (h.written nm hnm hinside).imp (fun _ _ _ _ hy => hkept'.nodeWritten hy)
      fun _ _ _ _ hb => hkept'.blockWritten hb

/-- A block around nodes, and then the blocks after it. -/
theorem Drawn.arm {head : BlockDraft} {block : BlockView} {draft : BodyDraft} {body : NodeTrees}
    {rest : ArmsDraft} {rest' : BlockTrees} {g₃ g₄ : Graph} (hkept : g.Kept g₁)
    (htypes : traverse g₁.typeOf block.params = .ok (head.params.map Prod.snd))
    (hnamed : List.Forall₂ g₁.NamedAfter block.params (head.params.map fun p => p.1.name))
    (hparams : ∀ nm, scope.Agrees nm → (block.params.map nm = head.params.map fun p => p.1.name) →
      scope₁.Agrees nm)
    (h : Drawn scope₁ scope₂ draft body g₁ g₂)
    (hreturns : ∀ nm, scope₂.Agrees nm → block.returns.map nm = head.returns.map Mention.name)
    (hkept' : g₂.Kept g₃) (hrest : DrawnArms scope rest rest' g₃ g₄) :
    DrawnArms scope (.arm head draft rest) (.arm block body rest') g g₄ where
  kept := (hkept.trans h.kept).trans (hkept'.trans hrest.kept)
  named := by
    have hlater := hkept'.trans hrest.kept
    show List.Forall₂ _ _ ((head.params.map fun p => p.1.name) ++
      (BodyDraft.names draft ++ ArmsDraft.names rest))
    rw [BlockTrees.definitions_arm]
    exact List.rel_append ((h.kept.trans hlater).namedAfter hnamed)
      (List.rel_append (hlater.namedAfter h.named) hrest.named)
  written nm hnm hnames := by
    rw [BlockTrees.definitions_arm, List.map_append, List.map_append] at hnames
    -- The names come in the order of the text: parameters, nodes, other blocks.
    obtain ⟨hnames₁, hnames⟩ := List.append_inj hnames ((List.length_map _).trans hnamed.length_eq)
    obtain ⟨hinside, hafter⟩ := List.append_inj hnames ((List.length_map _).trans h.named.length_eq)
    obtain ⟨hpairs, hlast⟩ := h.written nm (hparams nm hnm hnames₁) hinside
    have hlater := hkept'.trans hrest.kept
    refine ⟨⟨hnames₁, ?_, hreturns nm hlast⟩, ?_, hrest.written nm hnm hafter⟩
    · exact traverse_mono (fun _ _ hv => (h.kept.trans hlater).typeOf hv) htypes
    · exact hpairs.imp (fun _ _ _ _ hy => hlater.nodeWritten hy)
        fun _ _ _ _ hb => hlater.blockWritten hb

end Steps

/-- The node that is made from a draft looks like it. -/
theorem nodeWritten_newView {g g₁ : Graph} {scope : Scope} {d : NodeDraft} {inputs : List ValueId}
    {blocks : List BlockId} (hclosed : g.types.Closed) (hcheck : d.check = .ok ())
    (hinputs : traverse scope.resolve d.operands = .ok inputs)
    (hkept : (d.interned g.types).Kept g₁.types) {nm : ValueId → String} (hnm : scope.Agrees nm)
    (houtputs : (g₁.newOutputs (d.spec g.types inputs blocks)).map nm = d.results.map Mention.name) :
    (g₁.allocNode (d.spec g.types inputs blocks)).2.NodeWritten nm
      (g₁.newView (d.spec g.types inputs blocks)) d := by
  refine ⟨rfl, hnm.traverse_resolve hinputs, houtputs, ⟨_, rfl, ?_⟩, ?_⟩
  · have hkept' := (kept_internLabels _ d.results d.types).trans hkept
    exact traverse_mono (fun _ _ he => Text.Kept.writtenEntry hkept' he)
      (traverse_writtenEntry_internAttributes hclosed d.attributes)
  · have hclosed' := (grown_internAttributes hclosed d.attributes).1.closed
    refine traverse_typeOf_newOutputs (traverse_mono (fun _ _ hl => hkept.expand hl) ?_)
    exact traverse_expand_internLabels hclosed' (NodeDraft.length_results_of_check hcheck)

mutual

/-- What is built of a draft looks like the draft.  The induction carries along what scopes and types
were before. -/
theorem buildNodes_drawn : ∀ {draft : BodyDraft} {g g' : Graph} {scope scope' : Scope} {b : BlockId},
    buildNodes g scope b draft = .ok (g', scope') → b.index < g.blocks.size → g.Mirrored → g.Typed →
    ∃ body, Built b scope scope' draft body g g' ∧ Drawn scope scope' draft body g g'
  | .done, g, g', scope, scope', b, h, _, hm, _ => by
    cases h
    refine ⟨.done, ⟨?_, rfl, trivial, List.Subset.refl _, hm⟩, .refl _, .nil, ?_⟩
    · simpa using Grows.done g b
    · exact fun nm hnm _ => ⟨trivial, hnm⟩
  | .node head arms rest, g, g', scope, scope', b, h, hb, hm, ht => by
    obtain ⟨hcheck, inputs, hinputs, blocks, g₁, harms, scope₁, hscope, h⟩ := buildNodes_node_iff.1 h
    have ht₀ := head.typed_interned ht
    obtain ⟨ht₁, hle⟩ := typed_buildArms ht₀ harms
    obtain ⟨arms', rfl, hbuilt, hdrawn⟩ := buildArms_drawn harms (hm.withTypes _) ht₀
    -- The types that were interned for the node make no difference to where its blocks stand.
    have hbuilt := hbuilt.ofTypes
    have hdrawn₀ : DrawnArms scope arms arms' g g₁ :=
      ⟨(Graph.Kept.withTypes (head.kept_interned _)).trans hdrawn.kept, hdrawn.named, hdrawn.written⟩
    obtain ⟨rest', hrest, hdrawn'⟩ := buildNodes_drawn h (hbuilt.index_lt_withNode hb)
      (hbuilt.mirrored_withNode b) (typed_withNode ht ht₁ hle _ _ b)
    refine ⟨_, hbuilt.node hb rfl rfl (subset_of_traverse_resolve hinputs)
      (Scope.values_defineAll hscope) hrest, ?_⟩
    refine hdrawn₀.node (kept_withNode g₁ _ b) ?_ (fun nm hnm hnames => ⟨?_, ?_⟩) hdrawn'
    · exact (Graph.Kept.attachLast _ b _).namedAfter
        (namedAfter_newOutputs (forall₂_internLabels (NodeDraft.length_results_of_check hcheck)))
    · exact (Graph.Kept.attachLast _ b _).nodeWritten
        (nodeWritten_newView ht.closed hcheck hinputs hdrawn.kept.types hnm hnames)
    · exact hnm.defineAll hnames hscope

theorem buildArms_drawn : ∀ {draft : ArmsDraft} {g g' : Graph} {scope : Scope}
    {blocks : List BlockId}, buildArms g scope draft = .ok (blocks, g') → g.Mirrored → g.Typed →
    ∃ arms, blocks = arms.headIds ∧ BuiltArms scope draft arms g g' ∧ DrawnArms scope draft arms g g'
  | .done, g, g', scope, blocks, h, hm, _ => by
    cases h
    refine ⟨.done, rfl, ⟨GrowsArms.done _, rfl, trivial, hm⟩, .refl _, .nil, ?_⟩
    exact fun _ _ _ => trivial
  | .arm head body rest, g, g', scope, blocks, h, hm, ht => by
    obtain ⟨g₁, scope₁, hparams, g₂, scope₂, hbody, returns, hreturns, more, hrest, rfl⟩ :=
      buildArms_arm_iff.1 h
    obtain ⟨params, ⟨hopened, hm₁, hscope⟩, hkept, htypes, hnamed, hagrees⟩ :=
      buildParams_written (opened_newBlock g) hm.newBlock ht.newBlock hparams
    obtain ⟨ht₁, -⟩ := typed_buildParams ht.newBlock hparams
    obtain ⟨ht₂, -⟩ := typed_buildNodes ht₁ hbody
    obtain ⟨body', hbuilt, hdrawn⟩ := buildNodes_drawn hbody hopened.index_lt hm₁ ht₁
    have harm := Built.arm head hopened hscope hbuilt (subset_of_traverse_resolve hreturns)
    obtain ⟨rest', rfl, hmore, hdrawn'⟩ :=
      buildArms_drawn hrest harm.mirrored (ht₂.assignReturns _ _)
    refine ⟨_, rfl, harm.append hmore, ?_⟩
    exact Drawn.arm ((Graph.Kept.newBlock g).trans hkept) htypes hnamed hagrees hdrawn
      (fun nm hnm => hnm.traverse_resolve hreturns) (.assignReturns _ _ _) hdrawn'

end

/-- A graph that is built from a draft has a tree of the same shape and no more than that. -/
theorem GraphDraft.build_drawn {draft : GraphDraft} {g : Graph} (h : draft.build = .ok g) :
    ∃ t : BlockTree, GrowsArms t.toArms void g ∧ g.Represents t ∧ t.toArms.WellFormed [] ∧
      DrawnArms .empty draft.toArms t.toArms void g := by
  obtain ⟨arms, hblocks, hbuilt, hdrawn⟩ :=
    buildArms_drawn (GraphDraft.build_eq_ok_iff.1 h) mirrored_void typed_void
  obtain ⟨t, rfl, hrep, hwf⟩ := hbuilt.represents hblocks
  exact ⟨t, hbuilt.grows, hrep, hwf, hdrawn⟩

/-- A graph that is built from a draft looks like it, whatever names agree with the draft. -/
theorem GraphDraft.build_written {draft : GraphDraft} {g : Graph} (h : draft.build = .ok g) :
    ∃ t, g.Represents t ∧ t.toArms.WellFormed [] ∧
      (BlockTrees.definitions t.toArms).length = (ArmsDraft.names draft.toArms).length ∧
      ∀ nm, (BlockTrees.definitions t.toArms).map nm = ArmsDraft.names draft.toArms →
        g.TreeWritten nm t draft := by
  obtain ⟨t, -, hrep, hwf, hdrawn⟩ := GraphDraft.build_drawn h
  exact ⟨t, hrep, hwf, hdrawn.named.length_eq, fun nm => hdrawn.written nm fun _ he => nomatch he⟩

/-! ### Drafts that can be built -/

namespace Scope

variable {scope scope' : Scope} {m : Mention}

/-- The names in scope, the latest first. -/
def names (scope : Scope) : List String :=
  scope.entries.map Prod.fst

theorem find?_eq_none_iff {name : String} : scope.find? name = none ↔ name ∉ scope.names := by
  rw [find?, List.lookup_eq_none_iff, names, List.mem_map]
  simp only [bne_iff_ne, ne_eq, not_exists, not_and]
  exact ⟨fun h e he heq => h e he heq.symm, fun h e he heq => h e he heq.symm⟩

theorem resolve_ok (h : m.name ∈ scope.names) : ∃ v, scope.resolve m = .ok v := by
  rw [resolve]
  cases hfind : scope.find? m.name with
  | some v => exact ⟨v, rfl⟩
  | none => exact absurd h (find?_eq_none_iff.1 hfind)

theorem define_ok (h : m.name ∉ scope.names) (v : ValueId) :
    ∃ scope', scope.define m v = .ok scope' ∧ scope'.names = m.name :: scope.names := by
  rw [define, find?_eq_none_iff.2 h]
  exact ⟨_, rfl, rfl⟩

/-- Names that are new and different from each other can be defined. -/
theorem defineAll_ok {ms : List Mention} {vs : List ValueId} (hlength : ms.length = vs.length)
    (hnodup : (ms.map Mention.name).Nodup)
    (hfresh : ∀ name ∈ ms.map Mention.name, name ∉ scope.names) :
    ∃ scope', scope.defineAll ms vs = .ok scope' ∧
      ∀ name, name ∈ scope'.names ↔ name ∈ ms.map Mention.name ∨ name ∈ scope.names := by
  induction ms generalizing vs scope with
  | nil => exact ⟨scope, rfl, fun name => by simp⟩
  | cons m ms ih =>
    obtain ⟨v, vs, rfl⟩ := List.exists_cons_of_length_eq_add_one hlength.symm
    rw [List.map_cons, List.nodup_cons] at hnodup
    rw [List.map_cons, List.forall_mem_cons] at hfresh
    obtain ⟨scope₁, hdefine, hnames⟩ := define_ok hfresh.1 v
    -- The later names differ from the first one and are still fresh after it.
    have hfresh₁ : ∀ name ∈ ms.map Mention.name, name ∉ scope₁.names := by
      intro name hname hin
      rw [hnames, List.mem_cons] at hin
      rcases hin with rfl | hin
      · exact hnodup.1 hname
      · exact hfresh.2 name hname hin
    obtain ⟨scope', hscope, hall⟩ := ih (Nat.succ.inj hlength) hnodup.2 hfresh₁
    refine ⟨scope', ?_, fun name => ?_⟩
    · rw [defineAll, hdefine, ok_bind]
      exact hscope
    · rw [hall, hnames, List.map_cons, List.mem_cons, List.mem_cons]
      tauto

/-- The names in scope are those of the values in `visible`. -/
def Knows (scope : Scope) (nm : ValueId → String) (visible : List ValueId) : Prop :=
  ∀ name, name ∈ scope.names ↔ name ∈ visible.map nm

/-- What is visible in the tree is known in the scope by its name. -/
theorem Knows.traverse_resolve {nm : ValueId → String} {visible vs : List ValueId}
    (h : scope.Knows nm visible) (hvs : vs ⊆ visible) {ms : List Mention}
    (hms : vs.map nm = ms.map Mention.name) : ∃ ws, traverse scope.resolve ms = .ok ws := by
  refine traverse_ok_of_forall fun m hm => resolve_ok ?_
  have hname : m.name ∈ vs.map nm := hms ▸ List.mem_map_of_mem hm
  obtain ⟨v, hv, hname⟩ := List.mem_map.1 hname
  rw [← hname]
  exact (h _).2 (List.mem_map_of_mem (hvs hv))

end Scope

/-- Parameters with new names can be built. -/
theorem buildParams_ok {params : List (Mention × TypeTree)} {g : Graph} {scope : Scope} {b : BlockId}
    (hnodup : (params.map fun p => p.1.name).Nodup)
    (hfresh : ∀ name ∈ params.map fun p => p.1.name, name ∉ scope.names) :
    ∃ g' scope', buildParams g scope b params = .ok (g', scope') ∧
      ∀ name, name ∈ scope'.names ↔ name ∈ (params.map fun p => p.1.name) ∨ name ∈ scope.names := by
  induction params generalizing g scope with
  | nil => exact ⟨g, scope, rfl, fun name => by simp⟩
  | cons p params ih =>
    obtain ⟨m, ty⟩ := p
    rw [List.map_cons, List.nodup_cons] at hnodup
    rw [List.map_cons, List.forall_mem_cons] at hfresh
    obtain ⟨scope₁, hdefine, hnames⟩ := Scope.define_ok hfresh.1
      ({ g with types := (internLabel g.types m ty).2 }.allocParam b (internLabel g.types m ty).1).1
    -- As with definitions: the later names are still fresh.
    have hfresh₁ : ∀ name ∈ params.map fun p => p.1.name, name ∉ scope₁.names := by
      intro name hname hin
      rw [hnames, List.mem_cons] at hin
      rcases hin with rfl | hin
      · exact hnodup.1 hname
      · exact hfresh.2 name hname hin
    obtain ⟨g', scope', hscope, hall⟩ := ih (g := ({ g with types := (internLabel g.types m ty).2
      }.allocParam b (internLabel g.types m ty).1).2) hnodup.2 hfresh₁
    refine ⟨g', scope', bind_eq_ok_iff.2 ⟨scope₁, hdefine, hscope⟩, fun name => ?_⟩
    rw [hall, hnames, List.map_cons, List.mem_cons, List.mem_cons]
    tauto

section Buildable

variable {g₀ : Graph} {nm : ValueId → String} {all : List ValueId}

/-- New values have names of their own. -/
theorem fresh_names (hinj : Set.InjOn nm {v | v ∈ all}) {new visible : List ValueId}
    (hnew : new ⊆ all) (hvisible : visible ⊆ all) (hnodup : new.Nodup)
    (hdisjoint : ∀ v ∈ visible, v ∉ new) :
    (new.map nm).Nodup ∧ ∀ name ∈ new.map nm, name ∉ visible.map nm := by
  constructor
  · exact hnodup.map_on fun v hv w hw h => hinj (hnew hv) (hnew hw) h
  · intro name hname hin
    obtain ⟨v, hv, rfl⟩ := List.mem_map.1 hname
    obtain ⟨w, hw, hsame⟩ := List.mem_map.1 hin
    obtain rfl := hinj (hvisible hw) (hnew hv) hsame
    exact hdisjoint w hw hv

/-- The draft of a node passes its check, since types are written for all results and a raise has none. -/
theorem NodeDraft.check_of_nodeWritten {x : NodeView} {d : NodeDraft} (h : g₀.NodeWritten nm x d)
    (hraise : x.kind = .raise → x.outputs = []) : d.check = .ok () := by
  have hresults := congrArg List.length h.outputs
  have htypes := (traverse_eq_ok_iff.1 h.types).length_eq
  rw [List.length_map, List.length_map] at hresults
  rw [NodeDraft.check, if_neg (not_not.2 (hresults.symm.trans htypes)), if_neg]
  rintro ⟨hkind, hne⟩
  rw [hraise (h.kind.trans hkind)] at hresults
  exact hne (List.eq_nil_of_length_eq_zero hresults.symm)

mutual

/-- The draft of a well-formed tree can be built: names that are used are in scope, and names that are
defined are new. -/
theorem buildNodes_ok (hinj : Set.InjOn nm {v | v ∈ all}) : ∀ {body : NodeTrees} {draft : BodyDraft}
    {visible : List ValueId} {g : Graph} {scope : Scope} {b : BlockId},
    body.Pairs (g₀.NodeWritten nm) (g₀.BlockWritten nm) draft →
    (∀ x ∈ body.nodes, x.kind = .raise → x.outputs = []) → body.WellFormed visible →
    visible ⊆ all → NodeTrees.definitions body ⊆ all → scope.Knows nm visible →
    ∃ g' scope', buildNodes g scope b draft = .ok (g', scope') ∧
      scope'.Knows nm (body.outputs ++ visible)
  | .done, .done, visible, g, scope, b, _, _, _, _, _, hknows => ⟨g, scope, rfl, hknows⟩
  | .node x arms rest, .node d arms' rest', visible, g, scope, b, ⟨hx, harms, hrest⟩, hraise, hwf,
      hvisible, hdefs, hknows => by
    rw [Body.nodes, List.forall_mem_cons, List.forall_mem_append] at hraise
    rw [NodeTrees.definitions_node, List.append_subset, List.append_subset] at hdefs
    have hcheck := NodeDraft.check_of_nodeWritten hx hraise.1
    obtain ⟨inputs, hinputs⟩ := hknows.traverse_resolve hwf.scope.1 hx.inputs
    obtain ⟨blocks, g₁, hbuilt⟩ := buildArms_ok hinj (g := { g with types := d.interned g.types })
      harms hraise.2.1 hwf.inside hvisible hdefs.2.1 hknows
    -- The outputs are defined once only, and names are told apart, so they can be defined.
    have hnew := hwf.definitions
    have hfresh := hwf.fresh
    simp only [NodeTrees.definitions_node, List.nodup_append, List.mem_append, not_or] at hnew hfresh
    obtain ⟨hnodup, hapart⟩ := fresh_names hinj hdefs.1 hvisible hnew.1 fun v hv => (hfresh v hv).1
    rw [hx.outputs] at hnodup hapart
    have hlength : d.results.length = (g₁.newOutputs (d.spec g.types inputs blocks)).length :=
      (length_newOutputs_spec (NodeDraft.length_results_of_check hcheck)).symm
    have hapart' : ∀ name ∈ d.results.map Mention.name, name ∉ scope.names :=
      fun name hname hin => hapart name hname ((hknows name).1 hin)
    obtain ⟨scope₁, hscope, hnames⟩ := Scope.defineAll_ok hlength hnodup hapart'
    have hknows₁ : scope₁.Knows nm (x.outputs ++ visible) := fun name => by
      rw [hnames, hknows name, List.map_append, List.mem_append, hx.outputs]
    obtain ⟨g', scope', h', hknows'⟩ := buildNodes_ok hinj
      (g := withNode g₁ (d.spec g.types inputs blocks) b) (b := b) hrest hraise.2.2 hwf.after
      (List.append_subset.2 ⟨hdefs.1, hvisible⟩) hdefs.2.2 hknows₁
    refine ⟨g', scope', buildNodes_node_iff.2 ⟨hcheck, inputs, hinputs, blocks, g₁, hbuilt, scope₁,
      hscope, h'⟩, fun name => ?_⟩
    rw [hknows' name]
    simp only [Body.outputs_node, List.map_append, List.mem_append]
    tauto

theorem buildArms_ok (hinj : Set.InjOn nm {v | v ∈ all}) : ∀ {arms : BlockTrees} {draft : ArmsDraft}
    {visible : List ValueId} {g : Graph} {scope : Scope},
    arms.Pairs (g₀.NodeWritten nm) (g₀.BlockWritten nm) draft →
    (∀ x ∈ arms.nodes, x.kind = .raise → x.outputs = []) → arms.WellFormed visible →
    visible ⊆ all → BlockTrees.definitions arms ⊆ all → scope.Knows nm visible →
    ∃ blocks g', buildArms g scope draft = .ok (blocks, g')
  | .done, .done, visible, g, scope, _, _, _, _, _, _ => ⟨[], g, rfl⟩
  | .arm x body rest, .arm d body' rest', visible, g, scope, ⟨hx, hbody, hrest⟩, hraise, hwf,
      hvisible, hdefs, hknows => by
    rw [Arms.nodes, List.forall_mem_append] at hraise
    rw [BlockTrees.definitions_arm, List.append_subset, List.append_subset] at hdefs
    have hnew := hwf.definitions
    have hfresh := hwf.fresh
    simp only [BlockTrees.definitions_arm, List.nodup_append, List.mem_append, not_or] at hnew hfresh
    obtain ⟨hnodup, hapart⟩ := fresh_names hinj hdefs.1 hvisible hnew.1 fun v hv => (hfresh v hv).1
    rw [hx.params] at hnodup hapart
    obtain ⟨g₁, scope₁, hparams, hnames⟩ := buildParams_ok (g := g.newBlock.2)
      (b := ⟨g.blocks.size⟩) hnodup fun name hname hin => hapart name hname ((hknows name).1 hin)
    -- Inside, the parameters are known besides what is visible outside.
    have hknows₁ : scope₁.Knows nm (x.params ++ visible) := fun name => by
      rw [hnames, hknows name, List.map_append, List.mem_append, hx.params]
    obtain ⟨g₂, scope₂, hnodes, hknows₂⟩ := buildNodes_ok hinj (g := g₁) (b := ⟨g.blocks.size⟩) hbody
      hraise.1 hwf.inside (List.append_subset.2 ⟨hdefs.1, hvisible⟩) hdefs.2.1 hknows₁
    obtain ⟨returns, hreturns⟩ := hknows₂.traverse_resolve hwf.scope.2.1 hx.returns
    -- The other blocks know what this one has started with.
    obtain ⟨more, g', hmore⟩ := buildArms_ok hinj (g := g₂.assignReturns ⟨g.blocks.size⟩ returns)
      hrest hraise.2 hwf.after hvisible hdefs.2.2 hknows
    exact ⟨_, g', buildArms_arm_iff.2 ⟨g₁, scope₁, hparams, g₂, scope₂, hnodes, returns, hreturns,
      more, hmore, rfl⟩⟩

end

end Buildable

/-- A draft that a well-formed tree looks like can be built. -/
theorem GraphDraft.build_ok {g₀ : Graph} {nm : ValueId → String} {t : BlockTree} {draft : GraphDraft}
    (h : g₀.TreeWritten nm t draft) (hwf : t.toArms.WellFormed [])
    (hinj : Set.InjOn nm {v | v ∈ BlockTrees.definitions t.toArms})
    (hraise : ∀ x ∈ t.toArms.nodes, x.kind = .raise → x.outputs = []) :
    ∃ g, draft.build = .ok g := by
  have hknows : Scope.empty.Knows nm [] := fun name => Iff.rfl
  obtain ⟨blocks, g, hbuilt⟩ := buildArms_ok hinj (g := void) h hraise hwf (List.nil_subset _)
    (List.Subset.refl _) hknows
  have hblocks : blocks = [top] := by
    obtain ⟨_, _, -, _, _, -, _, -, more, hmore, rfl⟩ := buildArms_arm_iff.1 hbuilt
    cases hmore
    rfl
  exact ⟨g, GraphDraft.build_eq_ok_iff.2 (hblocks ▸ hbuilt)⟩

end Text

end Unguard
