import Unguard.Proofs.Positions
import Unguard.Proofs.Rebuilding

/-!
# Errors about names

`GraphDraft.sightings` lists the places of a draft where a value is mentioned, each with the definitions
that are visible there.  A text that is refused because of a name is refused at such a place: the name
stands in the text at the offset of the error, and it is used there without a definition or defined
there a second time (`Graph.ofText_error_located`).

There is one exception to "without a definition".  The block of a whole graph may name parameters of its
own after those of the graph, and these are never defined, so a use of one of them is refused although
its definition is visible (`Graph.ofText_error_ownParam`).
-/

namespace Unguard

/-! ### Where values are mentioned -/

namespace Text

/-- A place where a value is mentioned, and the definitions that are visible there, the latest first. -/
structure Sighting where
  mark : Mark Mention
  visible : List Mention
deriving DecidableEq, Repr

/-- The uses of some values at one place. -/
def sightUses (visible ms : List Mention) : List Sighting :=
  ms.map fun m => ⟨.use m, visible⟩

/-- Definitions one after another, each of which is visible to the next. -/
def sightDefinitions (visible : List Mention) : List Mention → List Sighting
  | [] => []
  | m :: ms => ⟨.definition m, visible⟩ :: sightDefinitions (m :: visible) ms

mutual

/-- The places in the nodes of a block, and in what the block returns.  A node uses its operands, its
arms are inside it, and its results are visible after it. -/
def BodyDraft.sightings (visible returns : List Mention) : BodyDraft → List Sighting
  | .done => sightUses visible returns
  | .node head arms rest =>
    sightUses visible head.operands ++ ArmsDraft.sightings visible arms ++
      sightDefinitions visible head.results ++
      BodyDraft.sightings (head.results.reverse ++ visible) returns rest

/-- The places in blocks.  What a block defines is visible in that block. -/
def ArmsDraft.sightings (visible : List Mention) : ArmsDraft → List Sighting
  | .done => []
  | .arm head body rest =>
    sightDefinitions visible (head.params.map Prod.fst) ++
      BodyDraft.sightings ((head.params.map Prod.fst).reverse ++ visible) head.returns body ++
      ArmsDraft.sightings visible rest

end

/-- The places in a whole graph.  The parameters of the graph and those that its block names are defined
before all else. -/
def GraphDraft.sightings (draft : GraphDraft) : List Sighting :=
  ArmsDraft.sightings []
    (.arm { draft.block with params := draft.params ++ draft.block.params } draft.body .done)

/-- Later definitions see the earlier ones. -/
theorem sightDefinitions_append (visible a b : List Mention) :
    sightDefinitions visible (a ++ b) =
      sightDefinitions visible a ++ sightDefinitions (a.reverse ++ visible) b := by
  induction a generalizing visible with
  | nil => rfl
  | cons m ms ih =>
    rw [List.cons_append, sightDefinitions, ih, sightDefinitions, List.reverse_cons, List.append_assoc]
    rfl

/-! #### What holds of every mention holds of every place -/

section Mentions

variable {P : Mention → Prop}

theorem forall_sightUses {visible ms : List Mention} (h : ∀ m ∈ ms, P m) :
    ∀ s ∈ sightUses visible ms, P s.mark.value := by
  intro s hs
  obtain ⟨m, hm, rfl⟩ := List.mem_map.1 hs
  exact h m hm

theorem forall_sightDefinitions {visible ms : List Mention} (h : ∀ m ∈ ms, P m) :
    ∀ s ∈ sightDefinitions visible ms, P s.mark.value := by
  induction ms generalizing visible with
  | nil => exact List.forall_mem_nil _
  | cons m ms ih =>
    rw [List.forall_mem_cons] at h
    exact List.forall_mem_cons.2 ⟨h.1, ih h.2⟩

mutual

/-- What holds of all mentions of a draft holds of all that is sighted in it. -/
theorem BodyDraft.Mentions.sightings : ∀ {body : BodyDraft} {visible returns : List Mention},
    body.Mentions P → (∀ m ∈ returns, P m) →
    ∀ s ∈ BodyDraft.sightings visible returns body, P s.mark.value
  | .done, visible, returns, _, hreturns => forall_sightUses hreturns
  | .node head arms rest, visible, returns, h, hreturns => by
    obtain ⟨hoperands, harms, hresults, hrest⟩ := h
    rw [BodyDraft.sightings, List.forall_mem_append, List.forall_mem_append, List.forall_mem_append]
    exact ⟨⟨⟨forall_sightUses hoperands, harms.sightings⟩, forall_sightDefinitions hresults⟩,
      hrest.sightings hreturns⟩

theorem ArmsDraft.Mentions.sightings : ∀ {arms : ArmsDraft} {visible : List Mention},
    arms.Mentions P → ∀ s ∈ ArmsDraft.sightings visible arms, P s.mark.value
  | .done, visible, _ => List.forall_mem_nil _
  | .arm head body rest, visible, h => by
    obtain ⟨hparams, hbody, hreturns, hrest⟩ := h
    rw [ArmsDraft.sightings, List.forall_mem_append, List.forall_mem_append]
    exact ⟨⟨forall_sightDefinitions (List.forall_mem_map.2 hparams), hbody.sightings hreturns⟩,
      hrest.sightings⟩

end

/-- The same for the whole graph, parameters included. -/
theorem GraphDraft.Mentions.sightings {draft : GraphDraft} (h : draft.Mentions P) :
    ∀ s ∈ draft.sightings, P s.mark.value := by
  obtain ⟨hparams, hblock, hbody, hreturns, -⟩ := h
  have harms : ArmsDraft.Mentions P
      (.arm { draft.block with params := draft.params ++ draft.block.params } draft.body .done) :=
    ⟨List.forall_mem_append.2 ⟨hparams, hblock⟩, hbody, hreturns, trivial⟩
  exact harms.sightings

end Mentions

/-! ### Errors at a place -/

/-- The error is about one of the places.  The definitions in `extra` do not count. -/
inductive Accounts (extra : List Mention) (ss : List Sighting) : ReadError → Prop
  /-- No definition is visible where the name is used. -/
  | undefined (s : Sighting) (m : Mention) (mem : s ∈ ss) (mark : s.mark = .use m)
      (visible : ∀ d ∈ s.visible, d.name = m.name → d ∈ extra) :
      Accounts extra ss ⟨.undefined m.name, m.offset⟩
  /-- A definition is visible where the name is defined. -/
  | redefined (s : Sighting) (m : Mention) (mem : s ∈ ss) (mark : s.mark = .definition m)
      (visible : ∃ d ∈ s.visible, d.name = m.name) :
      Accounts extra ss ⟨.redefined m.name, m.offset⟩
  /-- The number of results is wrong; the error is at the first of them. -/
  | results (problem : Problem) (offset : Nat)
      (kind : problem = .raiseResults ∨ ∃ a b, problem = .resultCount a b)
      (anchor : offset = 0 ∨ ∃ s ∈ ss, s.mark.value.offset = offset) :
      Accounts extra ss ⟨problem, offset⟩

/-- An error that is accounted for in a part is accounted for in the whole. -/
theorem Accounts.mono {extra : List Mention} {ss ss' : List Sighting} {e : ReadError}
    (h : Accounts extra ss e) (hss : ss ⊆ ss') : Accounts extra ss' e := by
  cases h with
  | undefined s m mem mark visible => exact .undefined s m (hss mem) mark visible
  | redefined s m mem mark visible => exact .redefined s m (hss mem) mark visible
  | results problem offset kind anchor =>
    refine .results problem offset kind (anchor.imp_right fun h => ?_)
    obtain ⟨s, hs, hoffset⟩ := h
    exact ⟨s, hss hs, hoffset⟩

/-- A computation fails either at its first step or after it. -/
theorem bind_eq_error {ε α β : Type} {x : Except ε α} {f : α → Except ε β} {e : ε}
    (h : x >>= f = .error e) : x = .error e ∨ ∃ a, x = .ok a ∧ f a = .error e := by
  cases x with
  | error e' => exact Or.inl (congrArg Except.error (Except.error.inj h))
  | ok a => exact Or.inr ⟨a, rfl, h⟩

theorem eq_error_of_map {ε α β : Type} {x : Except ε α} {f : α → β} {e : ε}
    (h : x.map f = .error e) : x = .error e := by
  cases x with
  | error e' => exact congrArg Except.error (Except.error.inj h)
  | ok a => cases h

/-- The names in scope are those of the visible definitions, but for those in `extra`. -/
structure Scope.Shows (scope : Scope) (extra visible : List Mention) : Prop where
  known : ∀ m ∈ visible, m.name ∈ scope.names ∨ m ∈ extra
  shown : ∀ name ∈ scope.names, ∃ m ∈ visible, m.name = name

namespace Scope.Shows

variable {scope scope' : Scope} {extra visible : List Mention} {e : ReadError}

theorem empty (extra : List Mention) : Scope.empty.Shows extra [] :=
  ⟨List.forall_mem_nil _, List.forall_mem_nil _⟩

/-- Definitions that do not count may be visible. -/
theorem append (h : scope.Shows extra visible) {more : List Mention} (hmore : more ⊆ extra) :
    scope.Shows extra (more ++ visible) := by
  constructor
  · exact List.forall_mem_append.2 ⟨fun m hm => Or.inr (hmore hm), h.known⟩
  · intro name hname
    obtain ⟨m, hm, hmname⟩ := h.shown name hname
    exact ⟨m, List.mem_append_right _ hm, hmname⟩

/-- A mention that cannot be resolved is of no value that is visible. -/
theorem resolve_error (h : scope.Shows extra visible) {m : Mention}
    (hm : scope.resolve m = .error e) : Accounts extra (sightUses visible [m]) e := by
  rw [Scope.resolve] at hm
  split at hm
  · cases hm
  · rename_i hfind
    cases hm
    refine .undefined _ m (List.mem_singleton_self _) rfl fun d hd hname => ?_
    rcases h.known d hd with hknown | hextra
    · exact absurd (hname ▸ hknown) (Scope.find?_eq_none_iff.1 hfind)
    · exact hextra

theorem traverse_resolve_error (h : scope.Shows extra visible) {ms : List Mention}
    (hms : traverse scope.resolve ms = .error e) : Accounts extra (sightUses visible ms) e := by
  induction ms with
  | nil => cases hms
  | cons m ms ih =>
    rw [traverse] at hms
    rcases bind_eq_error hms with hm | ⟨v, -, hms⟩
    · exact (h.resolve_error hm).mono (List.cons_subset_cons _ (List.nil_subset _))
    · rcases bind_eq_error hms with hms | ⟨vs, -, hms⟩
      · exact (ih hms).mono (List.subset_cons_self _ _)
      · cases hms

/-- A definition fails only where the name is visible already. -/
theorem define_error (h : scope.Shows extra visible) {m : Mention} {v : ValueId}
    (hm : scope.define m v = .error e) : Accounts extra (sightDefinitions visible [m]) e := by
  rw [Scope.define] at hm
  split at hm
  · rename_i w hfind
    cases hm
    refine .redefined _ m (List.mem_singleton_self _) rfl (h.shown m.name ?_)
    by_contra hname
    rw [Scope.find?_eq_none_iff.2 hname] at hfind
    cases hfind
  · cases hm

theorem define (h : scope.Shows extra visible) {m : Mention} {v : ValueId}
    (hm : scope.define m v = .ok scope') : scope'.Shows extra (m :: visible) := by
  rw [Scope.define] at hm
  split at hm
  · cases hm
  · cases hm
    constructor
    · refine List.forall_mem_cons.2 ⟨Or.inl (List.mem_cons_self ..), fun d hd => ?_⟩
      exact (h.known d hd).imp_left (List.mem_cons_of_mem _)
    · refine List.forall_mem_cons.2 ⟨⟨m, List.mem_cons_self .., rfl⟩, fun name hname => ?_⟩
      obtain ⟨d, hd, hdname⟩ := h.shown name hname
      exact ⟨d, List.mem_cons_of_mem _ hd, hdname⟩

/-- Definitions one after another: the first that is there already is the error. -/
theorem defineAll_error (h : scope.Shows extra visible) {ms : List Mention} {vs : List ValueId}
    (hms : scope.defineAll ms vs = .error e) : Accounts extra (sightDefinitions visible ms) e := by
  induction ms generalizing scope visible vs with
  | nil => cases hms
  | cons m ms ih =>
    cases vs with
    | nil => cases hms
    | cons v vs =>
      rw [Scope.defineAll] at hms
      rcases bind_eq_error hms with hm | ⟨scope₁, hm, hms⟩
      · exact (h.define_error hm).mono (List.cons_subset_cons _ (List.nil_subset _))
      · exact (ih (h.define hm) hms).mono (List.subset_cons_self _ _)

/-- Definitions become visible in order. -/
theorem defineAll (h : scope.Shows extra visible) {ms : List Mention} {vs : List ValueId}
    (hlength : ms.length = vs.length) (hms : scope.defineAll ms vs = .ok scope') :
    scope'.Shows extra (ms.reverse ++ visible) := by
  induction ms generalizing scope visible vs with
  | nil =>
    cases hms
    exact h
  | cons m ms ih =>
    obtain ⟨v, vs, rfl⟩ := List.exists_cons_of_length_eq_add_one hlength.symm
    rw [Scope.defineAll] at hms
    obtain ⟨scope₁, hm, hms⟩ := bind_eq_ok_iff.1 hms
    rw [List.reverse_cons, List.append_assoc]
    exact ih (h.define hm) (Nat.succ.inj hlength) hms

theorem buildParams_error (h : scope.Shows extra visible) {g : Graph} {b : BlockId}
    {params : List (Mention × TypeTree)} (hparams : buildParams g scope b params = .error e) :
    Accounts extra (sightDefinitions visible (params.map Prod.fst)) e := by
  induction params generalizing g scope visible with
  | nil => cases hparams
  | cons p params ih =>
    rw [buildParams] at hparams
    rcases bind_eq_error hparams with hm | ⟨scope₁, hm, hparams⟩
    · exact (h.define_error hm).mono (List.cons_subset_cons _ (List.nil_subset _))
    · exact (ih (h.define hm) hparams).mono (List.subset_cons_self _ _)

theorem buildParams (h : scope.Shows extra visible) {g g' : Graph} {b : BlockId}
    {params : List (Mention × TypeTree)}
    (hparams : buildParams g scope b params = .ok (g', scope')) :
    scope'.Shows extra ((params.map Prod.fst).reverse ++ visible) := by
  induction params generalizing g scope visible with
  | nil =>
    cases hparams
    exact h
  | cons p params ih =>
    rw [Text.buildParams] at hparams
    obtain ⟨scope₁, hm, hparams⟩ := bind_eq_ok_iff.1 hparams
    rw [List.map_cons, List.reverse_cons, List.append_assoc]
    exact ih (h.define hm) hparams

end Scope.Shows

/-- A node that fails its check fails at its results. -/
theorem NodeDraft.accounts_of_check {node : NodeDraft} {e : ReadError} (h : node.check = .error e)
    (extra visible : List Mention) : Accounts extra (sightDefinitions visible node.results) e := by
  have hanchor : node.anchor = 0 ∨
      ∃ s ∈ sightDefinitions visible node.results, s.mark.value.offset = node.anchor := by
    rw [NodeDraft.anchor]
    cases node.results with
    | nil => exact Or.inl rfl
    | cons m ms => exact Or.inr ⟨_, List.mem_cons_self .., rfl⟩
  rw [NodeDraft.check] at h
  split at h
  · cases h
    exact .results _ _ (Or.inr ⟨_, _, rfl⟩) hanchor
  · split at h
    · cases h
      exact .results _ _ (Or.inl rfl) hanchor
    · cases h

/-! ### Errors of a graph -/

section Build

variable {extra : List Mention} {e : ReadError}

mutual

/-- Nodes that cannot be built, or after which what the block returns cannot be found. -/
theorem buildNodes_accounts (returns : List Mention) : ∀ (body : BodyDraft) {g : Graph}
    {scope : Scope} {b : BlockId} {visible : List Mention}, scope.Shows extra visible →
    (buildNodes g scope b body = .error e ∨ ∃ g' scope', buildNodes g scope b body = .ok (g', scope') ∧
      traverse scope'.resolve returns = .error e) →
    Accounts extra (BodyDraft.sightings visible returns body) e
  | .done, g, scope, b, visible, hscope, h => by
    rcases h with h | ⟨g', scope', h, hreturns⟩
    · cases h
    · cases h
      exact hscope.traverse_resolve_error hreturns
  | .node head arms rest, g, scope, b, visible, hscope, h => by
    rw [BodyDraft.sightings]
    -- what comes after the node is in the last part, whether it fails itself or leads to a failure
    have hrest : ∀ {g₁ scope₁}, scope₁.Shows extra (head.results.reverse ++ visible) →
        (buildNodes g₁ scope₁ b rest = .error e ∨
          ∃ g' scope', buildNodes g₁ scope₁ b rest = .ok (g', scope') ∧
            traverse scope'.resolve returns = .error e) → _ := fun hscope₁ h =>
      (buildNodes_accounts returns rest hscope₁ h).mono (List.subset_append_right
        (sightUses visible head.operands ++ ArmsDraft.sightings visible arms ++
          sightDefinitions visible head.results) _)
    rcases h with h | ⟨g', scope', h, hreturns⟩
    · rw [buildNodes] at h
      rcases bind_eq_error h with hcheck | ⟨_, hcheck, h⟩
      · refine (NodeDraft.accounts_of_check hcheck extra visible).mono ?_
        exact List.Subset.trans (List.subset_append_right _ _) (List.subset_append_left _ _)
      rcases bind_eq_error h with hinputs | ⟨inputs, hinputs, h⟩
      · refine (hscope.traverse_resolve_error hinputs).mono ?_
        rw [List.append_assoc, List.append_assoc]
        exact List.subset_append_left _ _
      rcases bind_eq_error h with harms | ⟨⟨blocks, g₁⟩, harms, h⟩
      · refine (buildArms_accounts arms hscope harms).mono ?_
        rw [List.append_assoc, List.append_assoc]
        exact List.Subset.trans (List.subset_append_left _ _) (List.subset_append_right _ _)
      rcases bind_eq_error h with hresults | ⟨scope₁, hresults, h⟩
      · refine (hscope.defineAll_error hresults).mono ?_
        exact List.Subset.trans (List.subset_append_right _ _) (List.subset_append_left _ _)
      have houtputs := outputsOf_withNode g₁ (head.spec g.types inputs blocks) b
      have hlength : (g₁.newOutputs (head.spec g.types inputs blocks)).length = head.results.length :=
        length_newOutputs_spec (NodeDraft.length_results_of_check hcheck)
      rw [← houtputs] at hlength
      exact hrest (hscope.defineAll hlength.symm hresults) (Or.inl h)
    · obtain ⟨hcheck, inputs, -, blocks, g₁, -, scope₁, hresults, h⟩ := buildNodes_node_iff.1 h
      have hlength : (g₁.newOutputs (head.spec g.types inputs blocks)).length = head.results.length :=
        length_newOutputs_spec (NodeDraft.length_results_of_check hcheck)
      exact hrest (hscope.defineAll hlength.symm hresults) (Or.inr ⟨g', scope', h, hreturns⟩)

/-- Blocks that cannot be built. -/
theorem buildArms_accounts : ∀ (arms : ArmsDraft) {g : Graph} {scope : Scope}
    {visible : List Mention}, scope.Shows extra visible → buildArms g scope arms = .error e →
    Accounts extra (ArmsDraft.sightings visible arms) e
  | .done, g, scope, visible, hscope, h => by cases h
  | .arm head body rest, g, scope, visible, hscope, h => by
    rw [ArmsDraft.sightings]
    rw [buildArms] at h
    -- It fails at the parameters, a node, the returned values or a later block.
    rcases bind_eq_error h with hparams | ⟨⟨g₁, inner⟩, hparams, h⟩
    · refine (hscope.buildParams_error hparams).mono ?_
      rw [List.append_assoc]
      exact List.subset_append_left _ _
    have hinner := hscope.buildParams hparams
    have hbody : Accounts extra (BodyDraft.sightings ((head.params.map Prod.fst).reverse ++ visible)
        head.returns body) e → Accounts extra (sightDefinitions visible (head.params.map Prod.fst) ++
          BodyDraft.sightings ((head.params.map Prod.fst).reverse ++ visible) head.returns body ++
          ArmsDraft.sightings visible rest) e := fun h =>
      h.mono (List.Subset.trans (List.subset_append_right _ _) (List.subset_append_left _ _))
    rcases bind_eq_error h with hnodes | ⟨⟨g₂, after⟩, hnodes, h⟩
    · exact hbody (buildNodes_accounts head.returns body hinner (Or.inl hnodes))
    rcases bind_eq_error h with hreturns | ⟨returns, -, h⟩
    · exact hbody (buildNodes_accounts head.returns body hinner (Or.inr ⟨g₂, after, hnodes, hreturns⟩))
    rcases bind_eq_error h with hrest | ⟨more, -, h⟩
    · exact (buildArms_accounts rest hscope hrest).mono (List.subset_append_right _ _)
    · cases h

end

/-- A draft that cannot be built has a place that the error is about.  The parameters that the block of
the graph names do not count. -/
theorem GraphDraft.build_accounts {draft : GraphDraft} (h : draft.build = .error e) :
    Accounts (draft.block.params.map Prod.fst) draft.sightings e := by
  rw [GraphDraft.sightings, ArmsDraft.sightings, ArmsDraft.sightings, List.append_nil, List.map_append,
    sightDefinitions_append, List.append_nil, List.append_nil, List.reverse_append]
  rw [GraphDraft.build] at h
  have hempty := Scope.Shows.empty (draft.block.params.map Prod.fst)
  rcases bind_eq_error h with hparams | ⟨⟨g₁, scope⟩, hparams, h⟩
  · refine (hempty.buildParams_error hparams).mono ?_
    rw [List.append_assoc]
    exact List.subset_append_left _ _
  have hscope := hempty.buildParams hparams
  rw [List.append_nil] at hscope
  have hown : (draft.block.params.map Prod.fst).reverse ⊆ draft.block.params.map Prod.fst :=
    fun _ hm => List.mem_reverse.1 hm
  refine Accounts.mono (buildNodes_accounts (g := g₁) (b := Graph.top) draft.block.returns draft.body
    (hscope.append hown) ?_) (List.subset_append_right _ _)
  rcases bind_eq_error h with hnodes | ⟨⟨g₂, after⟩, hnodes, h⟩
  · exact Or.inl hnodes
  · refine Or.inr ⟨g₂, after, hnodes, ?_⟩
    rcases bind_eq_error h with hreturns | ⟨returns, -, h⟩
    · exact hreturns
    · cases h

end Build

/-! ### Messages -/

namespace Problem

/-- The message begins with the letter. -/
def beginsWith (c : Char) (p : Problem) : Prop :=
  p.message.toList.head? = some c

/-- The two numbers in a message about results do not begin like a name. -/
theorem not_beginsWith_resultCount {c : Char} (hc : c.isDigit = false) (a b : Nat) :
    ¬(resultCount a b).beginsWith c := by
  have hmessage : (resultCount a b).message =
      a.repr ++ (" result(s) but " ++ (b.repr ++ " result type(s)")) := by
    rw [← String.append_assoc, ← String.append_assoc]
    rfl
  intro h
  rw [beginsWith, hmessage, String.toList_append, Nat.repr_eq_ofList_toDigits, String.toList_ofList,
    List.head?_append_of_ne_nil _ Nat.toDigits_ne_nil] at h
  have hdigit := Nat.isDigit_of_mem_toDigits (by decide) (by decide) (List.mem_of_mem_head? h)
  rw [hc] at hdigit
  cases hdigit

/-- The text of a message says which problem it is about. -/
theorem eq_undefined_of_message {p : Problem} {name : String}
    (h : p.message = "use of undefined value %" ++ name) : p = .undefined name := by
  have hhead : p.beginsWith 'u' := by
    rw [beginsWith, h, String.toList_append]
    rfl
  cases p with
  | undefined name' =>
    have hmessage : (undefined name').message = "use of undefined value %" ++ name' := rfl
    rw [(String.append_right_inj _).1 (hmessage.symm.trans h)]
  | resultCount a b => exact absurd hhead (not_beginsWith_resultCount (by decide) a b)
  | redefined name' =>
    have hmessage : (redefined name').message = "value %" ++ name' ++ " is defined twice" := rfl
    rw [beginsWith, hmessage, String.append_assoc, String.toList_append] at hhead
    cases hhead
  | malformed => cases hhead
  | trailing => cases hhead
  | raiseResults => cases hhead

theorem eq_redefined_of_message {p : Problem} {name : String}
    (h : p.message = "value %" ++ name ++ " is defined twice") : p = .redefined name := by
  have hhead : p.beginsWith 'v' := by
    rw [beginsWith, h, String.append_assoc, String.toList_append]
    rfl
  cases p with
  | undefined name' =>
    have hmessage : (undefined name').message = "use of undefined value %" ++ name' := rfl
    rw [beginsWith, hmessage, String.toList_append] at hhead
    cases hhead
  | resultCount a b => exact absurd hhead (not_beginsWith_resultCount (by decide) a b)
  | redefined name' =>
    have hmessage : (redefined name').message = "value %" ++ name' ++ " is defined twice" := rfl
    rw [(String.append_right_inj _).1 ((String.append_left_inj _).1 (hmessage.symm.trans h))]
  | malformed => cases hhead
  | trailing => cases hhead
  | raiseResults => cases hhead

end Problem

/-! ### Errors of a text -/

/-- The name stands in the text after a percent sign, at this byte, and it is the whole name. -/
def NamedAt (text name : String) (offset : Nat) : Prop :=
  ∃ before after : String, text = before ++ "%" ++ name ++ after ∧
    (before ++ "%").utf8ByteSize = offset ∧ IsValueName name ∧
    Reader.stops isNamePart after.toList = true

/-- A mention that stands in a text is named there, after its percent sign. -/
theorem Mention.StandsIn.namedAt {text : String} {m : Mention}
    (h : m.StandsIn (Cursor.ofString text)) : NamedAt text m.name m.offset := by
  obtain ⟨before, after, htext, hoffset, hname, hstop⟩ := h
  refine ⟨String.ofList before, String.ofList after, ?_, ?_, hname, ?_⟩
  · apply String.toList_inj.1
    rw [String.toList_append, String.toList_append, String.toList_append, String.toList_ofList,
      String.toList_ofList (l := after), List.append_assoc, List.append_assoc]
    exact htext
  · rw [hoffset, String.utf8ByteSize_append]
    exact congrArg (· + 1) (Nat.zero_add _).symm
  · rwa [String.toList_ofList]

theorem NamedAt.offset_le {text name : String} {offset : Nat} (h : NamedAt text name offset) :
    offset ≤ text.utf8ByteSize := by
  obtain ⟨before, after, rfl, rfl, -, -⟩ := h
  simp only [String.utf8ByteSize_append]
  omega

end Text

open Text

/-- **A text that is refused for a name is refused at that name.**  The offset of an error is in the text.
If a name is said to be undefined, it stands there as the use of a value, and no definition of it is
visible but as a parameter that the block of the graph names.  If a name is said to be defined twice, it
stands there as a definition, and another definition of it is visible. -/
theorem Graph.ofText_error_located {text : String} {e : ReadError}
    (h : Graph.ofText text = .error e) :
    e.offset ≤ text.utf8ByteSize ∧
    (∀ name, e.problem.message = "use of undefined value %" ++ name →
      NamedAt text name e.offset ∧ ∃ draft, GraphDraft.ofText text = .ok draft ∧
        ∃ s ∈ draft.sightings, s.mark = .use ⟨name, e.offset⟩ ∧
          ∀ m ∈ s.visible, m.name = name → m ∈ draft.block.params.map Prod.fst) ∧
    ∀ name, e.problem.message = "value %" ++ name ++ " is defined twice" →
      NamedAt text name e.offset ∧ ∃ draft, GraphDraft.ofText text = .ok draft ∧
        ∃ s ∈ draft.sightings, s.mark = .definition ⟨name, e.offset⟩ ∧
          ∃ m ∈ s.visible, m.name = name := by
  -- No error of the grammar is about a name, and building accounts for each of its own.
  rcases bind_eq_error h with hdraft | ⟨draft, hdraft, hbuild⟩
  · obtain ⟨hoffset, hproblem⟩ := GraphDraft.offset_le_of_ofText hdraft
    refine ⟨hoffset, fun name hname => ?_, fun name hname => ?_⟩
    · rw [Problem.eq_undefined_of_message hname] at hproblem
      rcases hproblem with hproblem | hproblem <;> cases hproblem
    · rw [Problem.eq_redefined_of_message hname] at hproblem
      rcases hproblem with hproblem | hproblem <;> cases hproblem
  · have hplace : ∀ s ∈ draft.sightings, NamedAt text s.mark.value.name s.mark.value.offset :=
      fun s hs => ((GraphDraft.standsIn_of_ofText hdraft).sightings s hs).namedAt
    cases GraphDraft.build_accounts hbuild with
    | undefined s m mem mark visible =>
      have hnamed := hplace s mem
      rw [mark] at hnamed
      refine ⟨hnamed.offset_le, fun name hname => ?_, fun name hname => ?_⟩
      · cases Problem.eq_undefined_of_message hname
        exact ⟨hnamed, draft, hdraft, s, mem, mark, visible⟩
      · cases Problem.eq_redefined_of_message hname
    | redefined s m mem mark visible =>
      have hnamed := hplace s mem
      rw [mark] at hnamed
      refine ⟨hnamed.offset_le, fun name hname => ?_, fun name hname => ?_⟩
      · cases Problem.eq_undefined_of_message hname
      · cases Problem.eq_redefined_of_message hname
        exact ⟨hnamed, draft, hdraft, s, mem, mark, visible⟩
    | results problem offset kind anchor =>
      refine ⟨?_, fun name hname => ?_, fun name hname => ?_⟩
      · rcases anchor with rfl | ⟨s, hs, rfl⟩
        · exact Nat.zero_le _
        · exact (hplace s hs).offset_le
      · have hproblem : problem = .undefined name := Problem.eq_undefined_of_message hname
        rw [hproblem] at kind
        rcases kind with kind | ⟨a, b, kind⟩ <;> cases kind
      · have hproblem : problem = .redefined name := Problem.eq_redefined_of_message hname
        rw [hproblem] at kind
        rcases kind with kind | ⟨a, b, kind⟩ <;> cases kind

/-- A name that is defined again inside an arm, after a comment in which a letter takes two bytes. -/
theorem Graph.ofText_error_located_inArm :
    Graph.ofText "graph(%a: c.t) \x7b // é\n if(%a) \x7b ^(%a: c.t) \x7d else \x7b\x7d \x7d" =
      .error ⟨.redefined "a", 36⟩ ∧
    NamedAt "graph(%a: c.t) \x7b // é\n if(%a) \x7b ^(%a: c.t) \x7d else \x7b\x7d \x7d" "a" 36 ∧
    ∃ draft, GraphDraft.ofText
        "graph(%a: c.t) \x7b // é\n if(%a) \x7b ^(%a: c.t) \x7d else \x7b\x7d \x7d" = .ok draft ∧
      ∃ s ∈ draft.sightings, s.mark = .definition ⟨"a", 36⟩ ∧ ∃ m ∈ s.visible, m.name = "a" := by
  have h : Except.map (fun _ => ())
      (Graph.ofText "graph(%a: c.t) \x7b // é\n if(%a) \x7b ^(%a: c.t) \x7d else \x7b\x7d \x7d") =
        .error ⟨.redefined "a", 36⟩ := by decide +kernel
  have herror := eq_error_of_map h
  exact ⟨herror, (Graph.ofText_error_located herror).2.2 "a" rfl⟩

/-- A parameter that the block of the graph names is visible, and yet its use is refused. -/
theorem Graph.ofText_error_ownParam :
    Graph.ofText "graph() \x7b ^(%p: core.t) return %p \x7d" = .error ⟨.undefined "p", 32⟩ ∧
    ∃ draft, GraphDraft.ofText "graph() \x7b ^(%p: core.t) return %p \x7d" = .ok draft ∧
      ∃ s ∈ draft.sightings, s.mark = .use ⟨"p", 32⟩ ∧ ∃ m ∈ s.visible, m.name = "p" := by
  have h : Except.map (fun _ => ()) (Graph.ofText "graph() \x7b ^(%p: core.t) return %p \x7d") =
      .error ⟨.undefined "p", 32⟩ := by decide +kernel
  have hsightings : (GraphDraft.ofText "graph() \x7b ^(%p: core.t) return %p \x7d").toOption.map
      GraphDraft.sightings =
        some [⟨.definition ⟨"p", 13⟩, []⟩, ⟨.use ⟨"p", 32⟩, [⟨"p", 13⟩]⟩] := by decide +kernel
  obtain ⟨draft, hdraft, hs⟩ := Option.map_eq_some_iff.1 hsightings
  refine ⟨eq_error_of_map h, draft, toOption_eq_some_iff.1 hdraft, ⟨.use ⟨"p", 32⟩, [⟨"p", 13⟩]⟩, ?_, rfl,
    ⟨"p", 13⟩, List.mem_singleton_self _, rfl⟩
  rw [hs]
  exact List.mem_cons_of_mem _ (List.mem_singleton_self _)

end Unguard
