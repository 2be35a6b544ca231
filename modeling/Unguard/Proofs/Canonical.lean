import Unguard.Proofs.RecodedText
import Unguard.Proofs.RoundTrip

/-!
# Building a graph from its own draft

A graph that was built from a draft can be built again from the draft that it is written as.  The names
are others then, attributes are in order and have no double keys, and types are interned in another
order.  But nodes, blocks and values get the numbers they had: up to the coding of attributes and
labels, the two graphs are equal (`GraphDraft.recode_build`).

Both are built at the same time.  `Rebuilding.Alike` says that the graphs are equal so far, and
`Rebuilding.Follows` that the names in the second scope are those that values have in the draft.
-/

namespace Unguard

open Text

namespace Text

open Unguard.Graph

/-! ### Building only adds -/

theorem kept_buildParams : ∀ {params : List (Mention × TypeTree)} {g g' : Graph}
    {scope scope' : Scope} {b : BlockId}, buildParams g scope b params = .ok (g', scope') → g.Kept g'
  | [], g, _, _, _, _, h => by
    cases h
    exact .refl g
  | (m, ty) :: params, g, g', scope, scope', b, h => by
    obtain ⟨_, -, h⟩ := bind_eq_ok_iff.1 h
    have hkept : g.Kept { g with types := (g.types.internTree ty).2 } :=
      .withTypes (TypeTable.kept_internTree _ _)
    exact (hkept.trans (.allocParam _ _ _)).trans (kept_buildParams h)

mutual

/-- Building adds to the tables and changes no entry. -/
theorem kept_buildNodes : ∀ {draft : BodyDraft} {g g' : Graph} {scope scope' : Scope} {b : BlockId},
    buildNodes g scope b draft = .ok (g', scope') → g.Kept g'
  | .done, g, _, _, _, _, h => by
    cases h
    exact .refl g
  | .node head arms rest, g, g', scope, scope', b, h => by
    obtain ⟨-, _, -, _, _, harms, _, -, h⟩ := buildNodes_node_iff.1 h
    have hkept : g.Kept { g with types := head.interned g.types } := .withTypes (head.kept_interned _)
    exact (hkept.trans (kept_buildArms harms)).trans ((kept_withNode _ _ b).trans (kept_buildNodes h))

theorem kept_buildArms : ∀ {draft : ArmsDraft} {g g' : Graph} {scope : Scope}
    {blocks : List BlockId}, buildArms g scope draft = .ok (blocks, g') → g.Kept g'
  | .done, g, _, _, _, h => by
    cases h
    exact .refl g
  | .arm head body rest, g, g', scope, blocks, h => by
    obtain ⟨_, _, hparams, _, _, hbody, _, -, _, hrest, -⟩ := buildArms_arm_iff.1 h
    have hkept := ((Graph.Kept.newBlock g).trans (kept_buildParams hparams)).trans (kept_buildNodes hbody)
    exact hkept.trans ((Graph.Kept.assignReturns _ _ _).trans (kept_buildArms hrest))

end

end Text

/-! ### The two graphs -/

/-- A graph, the same graph as it is built from its own draft, and the names that values have there. -/
structure Rebuilding where
  /-- The table that both are compared in. -/
  types : TypeTable
  before : Graph
  after : Graph
  name : ValueId → String
  values : List ValueId
  injOn : Set.InjOn name {v | v ∈ values}

namespace Rebuilding

open Unguard.Graph

variable (r : Rebuilding)

/-- How the attributes and labels of a graph are compared. -/
noncomputable abbrev coding (g : Graph) : Recoding :=
  .into r.types g.types

/-- Parts of the two graphs are equal, attributes and labels apart, and the second is typed. -/
structure Alike (g k : Graph) : Prop where
  same : k.recode (r.coding r.after) = g.recode (r.coding r.before)
  typed : k.Typed

/-- The second scope has the names of the draft, and both know values of the graph only. -/
structure Follows (scope scope' : Scope) : Prop where
  agrees : scope'.Agrees r.name
  visible : scope.values ⊆ r.values
  known : scope'.values ⊆ r.values

variable {r} {g k : Graph} {scope scope' : Scope}

/-- Names tell values apart. -/
theorem eq_of_names {vs ws : List ValueId} (hvs : vs ⊆ r.values) (hws : ws ⊆ r.values)
    (h : ws.map r.name = vs.map r.name) : ws = vs :=
  (eq_map_of_names r.injOn (fun _ hv => ⟨hv, rfl⟩) hvs hws h).trans (List.map_id' vs)

/-- A mention stands for the same value in both scopes. -/
theorem Follows.resolve (h : r.Follows scope scope') {ms ms' : List Mention} {vs vs' : List ValueId}
    (hvs : traverse scope.resolve ms = .ok vs) (hvs' : traverse scope'.resolve ms' = .ok vs')
    (hnames : vs.map r.name = ms'.map Mention.name) : vs' = vs := by
  apply r.eq_of_names
  · exact List.Subset.trans (subset_of_traverse_resolve hvs) h.visible
  · exact List.Subset.trans (subset_of_traverse_resolve hvs') h.known
  · exact (h.agrees.traverse_resolve hvs').trans hnames.symm

/-- Scopes that agree go on agreeing if they define the same value, each by its own name. -/
theorem Follows.define (h : r.Follows scope scope') {m m' : Mention} {v : ValueId}
    (hname : r.name v = m'.name) (hv : v ∈ r.values) {scope₁ scope₁' : Scope}
    (hscope : scope.define m v = .ok scope₁) (hscope' : scope'.define m' v = .ok scope₁') :
    r.Follows scope₁ scope₁' := by
  refine ⟨h.agrees.define hname hscope', ?_, ?_⟩
  · rw [Scope.values_define hscope]
    exact List.cons_subset.2 ⟨hv, h.visible⟩
  · rw [Scope.values_define hscope']
    exact List.cons_subset.2 ⟨hv, h.known⟩

theorem Follows.defineAll (h : r.Follows scope scope') {ms ms' : List Mention} {vs : List ValueId}
    (hnames : vs.map r.name = ms'.map Mention.name) (hvs : vs ⊆ r.values) {scope₁ scope₁' : Scope}
    (hscope : scope.defineAll ms vs = .ok scope₁) (hscope' : scope'.defineAll ms' vs = .ok scope₁') :
    r.Follows scope₁ scope₁' := by
  refine ⟨h.agrees.defineAll hnames hscope', ?_, ?_⟩
  · exact List.Subset.trans (Scope.values_defineAll hscope) (List.append_subset.2 ⟨hvs, h.visible⟩)
  · exact List.Subset.trans (Scope.values_defineAll hscope') (List.append_subset.2 ⟨hvs, h.known⟩)

namespace Alike

theorem size_blocks (h : r.Alike g k) : k.blocks.size = g.blocks.size :=
  congrArg (·.blocks.size) h.same

theorem size_values (h : r.Alike g k) : k.values.size = g.values.size := by
  have hsize := congrArg (·.values.size) h.same
  rwa [size_values_recode, size_values_recode] at hsize

theorem size_nodes (h : r.Alike g k) : k.nodes.size = g.nodes.size := by
  have hsize := congrArg (·.nodes.size) h.same
  rwa [size_nodes_recode, size_nodes_recode] at hsize

/-- Both graphs get the same block. -/
theorem newBlock (h : r.Alike g k) : r.Alike g.newBlock.2 k.newBlock.2 :=
  ⟨congrArg (fun g => g.newBlock.2) h.same, h.typed.newBlock⟩

theorem assignReturns (h : r.Alike g k) (b : BlockId) (vs : List ValueId) :
    r.Alike (g.assignReturns b vs) (k.assignReturns b vs) := by
  refine ⟨?_, h.typed.assignReturns _ _⟩
  rw [← assignReturns_recode, ← assignReturns_recode, h.same]

theorem allocParam (h : r.Alike g k) (b : BlockId) {label label' : Label}
    (hlabel : (r.coding r.after).label label' = (r.coding r.before).label label)
    (htyped : (k.allocParam b label').2.Typed) :
    r.Alike (g.allocParam b label).2 (k.allocParam b label').2 := by
  have hstep := congrArg₂ (fun g label => g.allocParam b label) h.same hlabel
  rw [allocParam_recode, allocParam_recode] at hstep
  exact ⟨(Prod.mk.inj hstep).2, htyped⟩

/-- A node with the same specification, but for the coding of types, keeps two graphs alike. -/
theorem withNode (h : r.Alike g k) (b : BlockId) {spec spec' : NodeSpec}
    (hspec : (r.coding r.after).spec spec' = (r.coding r.before).spec spec)
    (htyped : (Text.withNode k spec' b).Typed) :
    r.Alike (Text.withNode g spec b) (Text.withNode k spec' b) := by
  have hstep := congrArg₂ Graph.allocNode h.same hspec
  rw [allocNode_recode, allocNode_recode] at hstep
  refine ⟨?_, htyped⟩
  rw [Text.withNode, Text.withNode, ← attachLast_recode, ← attachLast_recode, (Prod.mk.inj hstep).2,
    h.size_nodes]

/-- Nodes with as many outputs get the same ones. -/
theorem newOutputs (h : r.Alike g k) {spec spec' : NodeSpec}
    (hlength : (k.newOutputs spec').length = (g.newOutputs spec).length) :
    k.newOutputs spec' = g.newOutputs spec := by
  rw [Graph.newOutputs, Graph.newOutputs, List.length_map, List.length_map, List.length_range',
    List.length_range'] at hlength
  rw [Graph.newOutputs, Graph.newOutputs, h.size_values, hlength]

end Alike

end Rebuilding

/-! ### Labels and attributes -/

namespace Graph

variable {T : TypeTable} {G : Graph}

/-- A label is coded by the type it stands for. -/
theorem label_into {t : TypeTable} {label : Label} {ty : TypeTree} (h : t.expand label.ty = .ok ty) :
    (Recoding.into T t).label label = ⟨T.find (.ok ty), none⟩ := by
  show Label.mk (T.find (t.expand label.ty)) none = _
  rw [h]

/-- The labels of a new node are recoded by the types of its outputs. -/
theorem map_label_into {g : Graph} {spec : NodeSpec} (hkept : (g.allocNode spec).2.Kept G)
    {tys : List TypeTree} (h : traverse G.typeOf (g.newOutputs spec) = .ok tys) :
    spec.outputs.map (Recoding.into T G.types).label = tys.map fun ty => ⟨T.find (.ok ty), none⟩ := by
  rw [traverse_eq_ok_iff, List.forall₂_iff_get] at h
  obtain ⟨hlength, hget⟩ := h
  rw [newOutputs, List.length_map, List.length_range'] at hlength
  refine List.ext_getElem (by simpa using hlength) fun i hi hi' => ?_
  rw [List.length_map] at hi hi'
  have hvalue := hkept.value _ _ (value?_allocNode_output g spec hi)
  have hty := hget i (by simpa [newOutputs] using hi) hi'
  have hoi : (g.newOutputs spec).get ⟨i, by simpa [newOutputs] using hi⟩ = ⟨g.values.size + i⟩ := by
    simp [newOutputs]
  rw [hoi, typeOf, (value_eq_ok_iff _).2 hvalue, ok_bind] at hty
  rw [List.getElem_map, List.getElem_map]
  exact label_into hty

/-- New nodes that are written alike are the same once they are recoded. -/
theorem spec_into_eq {K g k : Graph} {spec spec' : NodeSpec} {nm : ValueId → String} {d : NodeDraft}
    (hG : (g.allocNode spec).2.Kept G) (hK : (k.allocNode spec').2.Kept K)
    (h : G.NodeWritten nm (g.newView spec) d) (h' : K.NodeWritten nm (k.newView spec') d)
    (hascending : d.attributes.Pairwise fun a b => a.1 < b.1) (hinputs : spec'.inputs = spec.inputs)
    (hblocks : spec'.blocks = spec.blocks) :
    (Recoding.into T K.types).spec spec' = (Recoding.into T G.types).spec spec := by
  have hkind : spec'.kind = spec.kind := h'.kind.trans h.kind.symm
  have houtputs := (map_label_into (T := T) hK h'.types).trans (map_label_into hG h.types).symm
  have hattributes : (Recoding.into T K.types).attributes spec'.attributes =
      (Recoding.into T G.types).attributes spec.attributes := by
    show T.findAttributes (traverse (writtenEntry K.types) (k.newView spec').attributes.toList) =
      T.findAttributes (traverse (writtenEntry G.types) (g.newView spec).attributes.toList)
    rw [h.toList_attributes hascending, h'.toList_attributes hascending]
  rw [Recoding.spec, Recoding.spec, hkind, hinputs, houtputs, hattributes, hblocks]

end Graph

namespace Text

open Unguard.Graph

variable {r : Rebuilding}

/-! ### Building again -/

/-- The parameters of both graphs have the same types, and come into scope at the same time. -/
theorem buildParams_alike {g₀ : Graph} : ∀ {params params' : List (Mention × TypeTree)}
    {made : List ValueId} {g g' k k' : Graph} {scope scope₁ scope' scope₁' : Scope},
    params'.map Prod.snd = params.map Prod.snd → Opened made g₀ g → g.Typed → r.Alike g k →
    buildParams g scope ⟨g₀.blocks.size⟩ params = .ok (g', scope₁) →
    buildParams k scope' ⟨g₀.blocks.size⟩ params' = .ok (k', scope₁') →
    g'.Kept r.before → k'.Kept r.after →
    r.Alike g' k' ∧ ∃ new, Opened (made ++ new) g₀ g' ∧ (r.Follows scope scope' →
      new ⊆ r.values → (new.map r.name = params'.map fun p => p.1.name) → r.Follows scope₁ scope₁')
  | [], [], made, g, _, k, _, scope, _, scope', _, _, hopened, _, halike, h, h', _, _ => by
    cases h
    cases h'
    refine ⟨halike, [], ?_, fun hfollows _ _ => hfollows⟩
    rwa [List.append_nil]
  | (m, ty) :: params, (m', ty') :: params', made, g, g', k, k', scope, scope₁, scope', scope₁',
      htypes, hopened, ht, halike, h, h', hG, hK => by
    obtain ⟨hty, hmore⟩ := List.cons.inj htypes
    obtain rfl : ty' = ty := hty
    obtain ⟨scope₂, hscope, h⟩ := bind_eq_ok_iff.1 h
    obtain ⟨scope₂', hscope', h'⟩ := bind_eq_ok_iff.1 h'
    obtain ⟨hgrown, hlabel⟩ := ht.closed.internTree ty'
    obtain ⟨hgrown', hlabel'⟩ := halike.typed.closed.internTree ty'
    have hexpand := ((kept_buildParams h).trans hG).types.expand (ht.closed.expand_internTree ty')
    have hexpand' := ((kept_buildParams h').trans hK).types.expand
      (halike.typed.closed.expand_internTree ty')
    have halike' : r.Alike { g with types := (g.types.internTree ty').2 }
        { k with types := (k.types.internTree ty').2 } := ⟨halike.same, halike.typed.withTypes hgrown'⟩
    let label := (internLabel g.types m ty').1
    let label' := (internLabel k.types m' ty').1
    have hsame : (r.coding r.after).label label' = (r.coding r.before).label label :=
      (label_into hexpand').trans (label_into hexpand).symm
    have halike' := halike'.allocParam ⟨g₀.blocks.size⟩ hsame (halike'.typed.allocParam _ hlabel')
    obtain ⟨halike₁, new, hnew, hfollows⟩ := buildParams_alike hmore
      ((hopened.withTypes _).allocParam _) ((ht.withTypes hgrown).allocParam _ hlabel) halike' h h' hG hK
    refine ⟨halike₁, ⟨g.values.size⟩ :: new, by rwa [List.append_assoc] at hnew, ?_⟩
    intro hscopes hsubset hnames
    obtain ⟨hname, hnames⟩ := List.cons.inj hnames
    rw [List.cons_subset] at hsubset
    -- the parameter has the same number in both graphs
    replace hscope' : scope'.define m' ⟨g.values.size⟩ = .ok scope₂' := by
      rw [← halike.size_values]
      exact hscope'
    exact hfollows (hscopes.define hname hsubset.1 hscope hscope') hsubset.2 hnames

/-- One node more.  `g` and `k` are the graphs before the blocks of the node were built, and `g₁` and
`k₁` the graphs after. -/
theorem buildNode_alike {g k g₁ k₁ : Graph} {scope scope' : Scope} {b : BlockId}
    {head head' : NodeDraft} {inputs : List ValueId} {blocks : List BlockId} (h : r.Alike g₁ k₁)
    (hfollows : r.Follows scope scope') (hk : k.Typed) (hcheck : head'.check = .ok ())
    (hinputs : traverse scope'.resolve head'.operands = .ok inputs)
    (hkept : (head'.interned k.types).Kept k₁.types)
    (hle : (head'.interned k.types).size ≤ k₁.types.size)
    (hx : r.before.NodeWritten r.name (g₁.newView (head.spec g.types inputs blocks)) head')
    (hascending : head'.attributes.Pairwise fun a b => a.1 < b.1)
    (hG : (withNode g₁ (head.spec g.types inputs blocks) b).Kept r.before)
    (hK : (withNode k₁ (head'.spec k.types inputs blocks) b).Kept r.after) :
    k₁.newOutputs (head'.spec k.types inputs blocks) = g₁.newOutputs (head.spec g.types inputs blocks) ∧
      r.Alike (withNode g₁ (head.spec g.types inputs blocks) b)
        (withNode k₁ (head'.spec k.types inputs blocks) b) := by
  have hnames : (g₁.newOutputs (head.spec g.types inputs blocks)).map r.name =
      head'.results.map Mention.name := hx.outputs
  -- As many outputs, and as many values before them: the new values have the same numbers.
  have houtputs : k₁.newOutputs (head'.spec k.types inputs blocks) =
      g₁.newOutputs (head.spec g.types inputs blocks) := by
    refine h.newOutputs ?_
    have hcount := congrArg List.length hnames
    rw [List.length_map, List.length_map] at hcount
    rw [length_newOutputs_spec (NodeDraft.length_results_of_check hcheck), hcount]
  have hx' := nodeWritten_newView hk.closed hcheck hinputs hkept hfollows.agrees
    (by rw [houtputs, hnames])
  have hkeptG := (Graph.Kept.attachLast _ b _).trans hG
  have hkeptK := (Graph.Kept.attachLast _ b _).trans hK
  have hspec : (r.coding r.after).spec (head'.spec k.types inputs blocks) =
      (r.coding r.before).spec (head.spec g.types inputs blocks) :=
    spec_into_eq hkeptG hkeptK hx (hkeptK.nodeWritten hx') hascending rfl rfl
  exact ⟨houtputs, h.withNode b hspec (typed_withNode hk h.typed hle _ _ b)⟩

mutual

/-- If one draft builds and the other has the same structure under other names, then the second graph is
like the first. By induction along the draft. -/
theorem buildNodes_alike : ∀ {draft : BodyDraft} {g g' : Graph} {scope scope₁ : Scope} {b : BlockId},
    buildNodes g scope b draft = .ok (g', scope₁) → b.index < g.blocks.size → g.Mirrored → g.Typed →
    ∃ body, Built b scope scope₁ draft body g g' ∧ ∀ {draft' : BodyDraft} {k k' : Graph}
      {scope' scope₁' : Scope},
      body.Pairs (r.before.NodeWritten r.name) (r.before.BlockWritten r.name) draft' →
      (∀ d ∈ draft'.nodes, d.attributes.Pairwise fun a b => a.1 < b.1) →
      NodeTrees.definitions body ⊆ r.values → r.Alike g k → r.Follows scope scope' →
      buildNodes k scope' b draft' = .ok (k', scope₁') → g'.Kept r.before → k'.Kept r.after →
      r.Alike g' k' ∧ r.Follows scope₁ scope₁'
  | .done, g, _, scope, _, b, h, _, hm, _ => by
    cases h
    refine ⟨.done, ⟨?_, rfl, trivial, List.Subset.refl _, hm⟩, ?_⟩
    · simpa using Grows.done g b
    · rintro (_ | _) k k' scope' scope₁' hpairs _ _ halike hfollows h' _ _
      · cases h'
        exact ⟨halike, hfollows⟩
      · exact hpairs.elim
  | .node head arms rest, g, g', scope, scope₁, b, h, hb, hm, ht => by
    obtain ⟨hcheck, inputs, hinputs, blocks, g₁, harms, scope₂, hscope, h⟩ := buildNodes_node_iff.1 h
    have ht₀ := head.typed_interned ht
    obtain ⟨ht₁, hle⟩ := typed_buildArms ht₀ harms
    obtain ⟨arms', rfl, hbuilt, hagain⟩ := buildArms_alike harms (hm.withTypes _) ht₀
    have hbuilt := hbuilt.ofTypes
    obtain ⟨rest', hrest, hagain'⟩ := buildNodes_alike h (hbuilt.index_lt_withNode hb)
      (hbuilt.mirrored_withNode b) (typed_withNode ht ht₁ hle _ _ b)
    refine ⟨_, hbuilt.node hb rfl rfl (subset_of_traverse_resolve hinputs)
      (Scope.values_defineAll hscope) hrest, ?_⟩
    rintro (_ | ⟨head', arms₁, rest₁⟩) k k' scope' scope₁' hpairs hascending hdefs halike hfollows h' hG
      hK
    · exact hpairs.elim
    obtain ⟨hx, hinside, hafter⟩ := hpairs
    rw [Body.nodes, List.forall_mem_cons, List.forall_mem_append] at hascending
    rw [NodeTrees.definitions_node, List.append_subset, List.append_subset] at hdefs
    obtain ⟨hcheck', inputs', hinputs', blocks', k₁, harms', scope₂', hscope', h'⟩ :=
      buildNodes_node_iff.1 h'
    have hG₁ := (kept_buildNodes h).trans hG
    have hK₁ := (kept_buildNodes h').trans hK
    have ht₀' := head'.typed_interned halike.typed
    obtain ⟨-, hle'⟩ := typed_buildArms ht₀' harms'
    -- first the blocks of the node
    have halike₀ : r.Alike { g with types := head.interned g.types }
        { k with types := head'.interned k.types } := ⟨halike.same, ht₀'⟩
    obtain ⟨rfl, halike₁⟩ := hagain hinside hascending.2.1 hdefs.2.1 halike₀ hfollows harms'
      ((kept_withNode _ _ b).trans hG₁) ((kept_withNode _ _ b).trans hK₁)
    -- then the node itself, with inputs and outputs as before
    obtain rfl := hfollows.resolve hinputs hinputs' hx.inputs
    obtain ⟨houtputs, halike₂⟩ := buildNode_alike halike₁ hfollows halike.typed hcheck' hinputs'
      (kept_buildArms harms').types hle' hx hascending.1 hG₁ hK₁
    -- and then the nodes after it
    rw [houtputs] at hscope'
    exact hagain' hafter hascending.2.2 hdefs.2.2 halike₂
      (hfollows.defineAll hx.outputs hdefs.1 hscope hscope') h' hG hK

/-- Both start from the same scope in every block, so the blocks are built alike. -/
theorem buildArms_alike : ∀ {draft : ArmsDraft} {g g' : Graph} {scope : Scope}
    {blocks : List BlockId}, buildArms g scope draft = .ok (blocks, g') → g.Mirrored → g.Typed →
    ∃ arms, blocks = arms.headIds ∧ BuiltArms scope draft arms g g' ∧ ∀ {draft' : ArmsDraft}
      {k k' : Graph} {scope' : Scope} {blocks' : List BlockId},
      arms.Pairs (r.before.NodeWritten r.name) (r.before.BlockWritten r.name) draft' →
      (∀ d ∈ draft'.nodes, d.attributes.Pairwise fun a b => a.1 < b.1) →
      BlockTrees.definitions arms ⊆ r.values → r.Alike g k → r.Follows scope scope' →
      buildArms k scope' draft' = .ok (blocks', k') → g'.Kept r.before → k'.Kept r.after →
      blocks' = arms.headIds ∧ r.Alike g' k'
  | .done, g, _, scope, _, h, hm, _ => by
    cases h
    refine ⟨.done, rfl, ⟨GrowsArms.done _, rfl, trivial, hm⟩, ?_⟩
    rintro (_ | _) k k' scope' blocks' hpairs _ _ halike _ h' _ _
    · cases h'
      exact ⟨rfl, halike⟩
    · exact hpairs.elim
  | .arm head body rest, g, g', scope, blocks, h, hm, ht => by
    obtain ⟨g₁, scope₁, hparams, g₂, scope₂, hbody, returns, hreturns, more, hrest, rfl⟩ :=
      buildArms_arm_iff.1 h
    obtain ⟨params, ⟨hopened, hm₁, hscope⟩, -, htypes, -⟩ :=
      buildParams_written (opened_newBlock g) hm.newBlock ht.newBlock hparams
    rw [List.nil_append] at hopened
    obtain ⟨ht₁, -⟩ := typed_buildParams ht.newBlock hparams
    obtain ⟨ht₂, -⟩ := typed_buildNodes ht₁ hbody
    obtain ⟨body', hbuilt, hagain⟩ := buildNodes_alike hbody hopened.index_lt hm₁ ht₁
    have harm := Built.arm head hopened hscope hbuilt (subset_of_traverse_resolve hreturns)
    obtain ⟨rest', rfl, hmore, hagain'⟩ :=
      buildArms_alike hrest harm.mirrored (ht₂.assignReturns _ _)
    refine ⟨_, rfl, harm.append hmore, ?_⟩
    rintro (_ | ⟨head', body₁, rest₁⟩) k k' scope' blocks' hpairs hascending hdefs halike hfollows h' hG
      hK
    · exact hpairs.elim
    obtain ⟨hb, hinside, hafter⟩ := hpairs
    rw [Arms.nodes, List.forall_mem_append] at hascending
    rw [BlockTrees.definitions_arm, List.append_subset, List.append_subset] at hdefs
    obtain ⟨k₁, scope₁', hparams', k₂, scope₂', hbody', returns', hreturns', more', hrest', rfl⟩ :=
      buildArms_arm_iff.1 h'
    rw [halike.size_blocks] at hparams' hbody' hrest' ⊢
    have hG₂ := (Graph.Kept.assignReturns _ _ _).trans ((kept_buildArms hrest).trans hG)
    have hK₂ := (Graph.Kept.assignReturns _ _ _).trans ((kept_buildArms hrest').trans hK)
    have hG₁ := (kept_buildNodes hbody).trans hG₂
    have hK₁ := (kept_buildNodes hbody').trans hK₂
    have hsame : head'.params.map Prod.snd = head.params.map Prod.snd :=
      Except.ok.inj (hb.types.symm.trans (traverse_mono (fun _ _ hv => hG₁.typeOf hv) htypes))
    obtain ⟨halike₁, new, hnew, hfollows₁⟩ := buildParams_alike hsame (opened_newBlock g) ht.newBlock
      halike.newBlock hparams hparams' hG₁ hK₁
    -- Both lists are the parameters of the block that was opened.
    obtain rfl : params = new := by
      have hblock := hopened.block.symm.trans hnew.block
      exact congrArg Block.params (Option.some.inj hblock)
    obtain ⟨halike₂, hfollows₂⟩ := hagain hinside hascending.1 hdefs.2.1 halike₁
      (hfollows₁ hfollows hdefs.1 hb.params) hbody' hG₂ hK₂
    obtain rfl := hfollows₂.resolve hreturns hreturns' hb.returns
    obtain ⟨rfl, halike₃⟩ := hagain' hafter hascending.2 hdefs.2.2 (halike₂.assignReturns _ _) hfollows
      hrest' hG hK
    exact ⟨rfl, halike₃⟩

end

/-- What is built from the draft of a graph is that graph, in any coding of attributes and labels that
depends on how they are written only. -/
theorem GraphDraft.recode_build {draft draft' : GraphDraft} {g k : Graph} {t : BlockTree}
    (h : draft.build = .ok g) (hg : g.Represents t)
    (hdraft : outlineGraph g t.definitions t = .ok draft') (h' : draft'.build = .ok k)
    (T : TypeTable) : k.recode (.into T k.types) = g.recode (.into T g.types) := by
  rw [t.definitions_eq] at hdraft
  obtain ⟨hwritten, hascending⟩ := treeWritten_of_outlineGraph hdraft
  -- From here on the two graphs are the ends that both constructions come to.
  let r : Rebuilding := ⟨T, g, k, _, _, placeName_injOn (BlockTrees.definitions t.toArms)⟩
  obtain ⟨arms, hblocks, hbuilt, hagain⟩ :=
    buildArms_alike (r := r) (GraphDraft.build_eq_ok_iff.1 h) mirrored_void typed_void
  obtain ⟨t', rfl, hrep, -⟩ := hbuilt.represents hblocks
  obtain rfl := hg.unique hrep
  have hstart : r.Alike void void := by
    refine ⟨?_, typed_void⟩
    simp [recode, void, Graph.empty, Recoding.into]
  have hscopes : r.Follows .empty .empty :=
    ⟨List.forall_mem_nil _, List.nil_subset _, List.nil_subset _⟩
  exact (hagain hwritten hascending (List.Subset.refl _) hstart hscopes
    (GraphDraft.build_eq_ok_iff.1 h') (.refl g) (.refl k)).2.same

end Text

end Unguard
