import Unguard.Graph.Edit
import Unguard.Text.Grammar

/-!
# From text to graph

A text is read to a draft, and the draft is turned into a graph from top to bottom: every name is
looked up among the definitions that stand before it in the same block or around it, and every
definition gets the next value.  A name may be defined once along any path from the top.  What an arm
defines is gone after the arm.

A name that is not just digits is kept as the debug name of its value.
-/

namespace Unguard.Text

/-! ### Errors -/

/-- What is wrong with a text. -/
inductive Problem
  /-- It does not follow the grammar. -/
  | malformed
  /-- Something stands after the graph. -/
  | trailing
  /-- A node has another number of results than of types. -/
  | resultCount (results types : Nat)
  /-- A raise is given results. -/
  | raiseResults
  /-- A name is used that has no definition there. -/
  | undefined (name : String)
  /-- A name is defined that has a definition there already. -/
  | redefined (name : String)
deriving DecidableEq, Repr, Inhabited

def Problem.message : Problem → String
  | malformed => "syntax error: Parsing Error: ContextError \x7b context: [], cause: None \x7d"
  | trailing => "trailing input after graph"
  | resultCount results types => s!"{results} result(s) but {types} result type(s)"
  | raiseResults => "raise produces no values"
  | undefined name => s!"use of undefined value %{name}"
  | redefined name => s!"value %{name} is defined twice"

/-- What is wrong with a text, and the byte at which it is. -/
structure ReadError where
  problem : Problem
  offset : Nat
deriving DecidableEq, Repr, Inhabited

def ReadError.message (e : ReadError) : String :=
  s!"parse error at offset {e.offset}: {e.problem.message}"

/-! ### Scopes -/

/-- The names visible at a place, the latest first. -/
structure Scope where
  entries : List (String × ValueId)
deriving DecidableEq, Repr, Inhabited

namespace Scope

def empty : Scope :=
  ⟨[]⟩

def find? (s : Scope) (name : String) : Option ValueId :=
  s.entries.lookup name

/-- The value a name stands for. -/
def resolve (s : Scope) (m : Mention) : Except ReadError ValueId :=
  match s.find? m.name with
  | some v => .ok v
  | none => .error ⟨.undefined m.name, m.offset⟩

/-- Adds a definition. -/
def define (s : Scope) (m : Mention) (v : ValueId) : Except ReadError Scope :=
  match s.find? m.name with
  | some _ => .error ⟨.redefined m.name, m.offset⟩
  | none => .ok ⟨(m.name, v) :: s.entries⟩

/-- Adds definitions from left to right. -/
def defineAll (s : Scope) : List Mention → List ValueId → Except ReadError Scope
  | m :: ms, v :: vs => do
    let s ← s.define m v
    s.defineAll ms vs
  | _, _ => .ok s

end Scope

/-! ### Types and constants -/

mutual

/-- The attribute for a constant, with its types interned from left to right. -/
def Literal.intern (t : TypeTable) : Literal → Attribute × TypeTable
  | .unit => (.unit, t)
  | .bool value => (.bool value, t)
  | .int bits => (.int bits, t)
  | .float bits => (.float bits, t)
  | .string text => (.string text, t)
  | .type ty =>
    let (ty, t) := t.internTree ty
    (.type ty, t)
  | .list items =>
    let (items, t) := Literal.internAll t items
    (.list items, t)

@[inherit_doc Literal.intern]
def Literal.internAll (t : TypeTable) : List Literal → List Attribute × TypeTable
  | [] => ([], t)
  | item :: items =>
    let (first, t) := item.intern t
    let (rest, t) := Literal.internAll t items
    (first :: rest, t)

end

/-- The attributes for constants under keys, with their types interned from left to right. -/
def internAttributes (t : TypeTable) : List (String × Literal) →
    List (String × Attribute) × TypeTable
  | [] => ([], t)
  | (key, value) :: entries =>
    let (first, t) := value.intern t
    let (rest, t) := internAttributes t entries
    ((key, first) :: rest, t)

/-- The label of a value that is defined by `m` with type `ty`. -/
def internLabel (t : TypeTable) (m : Mention) (ty : TypeTree) : Label × TypeTable :=
  let (ty, t) := t.internTree ty
  (⟨ty, if m.name.toList.all Char.isDigit then none else some m.name⟩, t)

/-- The labels of values that are defined together. -/
def internLabels (t : TypeTable) : List Mention → List TypeTree → List Label × TypeTable
  | m :: ms, ty :: tys =>
    let (first, t) := internLabel t m ty
    let (rest, t) := internLabels t ms tys
    (first :: rest, t)
  | _, _ => ([], t)

/-! ### Nodes and blocks -/

namespace NodeDraft

/-- Where a mistake in the results of a node is reported. -/
def anchor (node : NodeDraft) : Nat :=
  match node.results with
  | m :: _ => m.offset
  | [] => 0

/-- A node has as many result types as results, and a raise has none. -/
def check (node : NodeDraft) : Except ReadError Unit :=
  if node.results.length ≠ node.types.length then
    .error ⟨.resultCount node.results.length node.types.length, node.anchor⟩
  else if node.kind = .raise ∧ node.results ≠ [] then .error ⟨.raiseResults, node.anchor⟩
  else .ok ()

end NodeDraft

/-- Gives block `b` parameters, and adds them to the scope. -/
def buildParams (g : Graph) (scope : Scope) (b : BlockId) : List (Mention × TypeTree) →
    Except ReadError (Graph × Scope)
  | [] => .ok (g, scope)
  | (m, ty) :: params => do
    let (label, types) := internLabel g.types m ty
    let (v, g) := { g with types }.allocParam b label
    let scope ← scope.define m v
    buildParams g scope b params

mutual

/-- Builds the nodes of a body at the end of block `b`.  Answers the scope after them. -/
def buildNodes (g : Graph) (scope : Scope) (b : BlockId) : BodyDraft →
    Except ReadError (Graph × Scope)
  | .done => .ok (g, scope)
  | .node head arms rest => do
    head.check
    let inputs ← traverse scope.resolve head.operands
    let (attributes, types) := internAttributes g.types head.attributes
    let (outputs, types) := internLabels types head.results head.types
    let (blocks, g) ← buildArms { g with types } scope arms
    let (n, g) := g.allocNode
      { kind := head.kind, inputs, outputs, attributes := .ofList attributes, blocks }
    let g := g.attachLast b n
    let scope ← scope.defineAll head.results (g.outputsOf n)
    buildNodes g scope b rest

/-- Builds arms as new blocks. -/
def buildArms (g : Graph) (scope : Scope) : ArmsDraft → Except ReadError (List BlockId × Graph)
  | .done => .ok ([], g)
  | .arm head body rest => do
    let (b, g) := g.newBlock
    let (g, inner) ← buildParams g scope b head.params
    let (g, inner) ← buildNodes g inner b body
    let returns ← traverse inner.resolve head.returns
    let (bs, g) ← buildArms (g.assignReturns b returns) scope rest
    return (b :: bs, g)

end

namespace GraphDraft

/-- The graph of a draft.  The top block takes the graph's parameters. -/
def build (draft : GraphDraft) : Except ReadError Graph := do
  let (g, scope) ← buildParams .empty .empty Graph.top draft.params
  let (g, scope) ← buildNodes g scope Graph.top draft.body
  let returns ← traverse scope.resolve draft.block.returns
  return g.assignReturns Graph.top returns

/-- Reads the draft of a graph, which has to be the whole text. -/
def ofText (text : String) : Except ReadError GraphDraft :=
  let cursor := Cursor.ofString text
  match Reader.graph (cursor.rest.length + 1) cursor with
  | .failed offset => .error ⟨.malformed, offset⟩
  | .done draft next =>
    if next.rest.isEmpty then .ok draft else .error ⟨.trailing, next.offset⟩

end GraphDraft

end Unguard.Text

namespace Unguard.Graph

/-- Reads a graph from its text. -/
def ofText (text : String) : Except Text.ReadError Graph := do
  let draft ← Text.GraphDraft.ofText text
  draft.build

end Unguard.Graph
