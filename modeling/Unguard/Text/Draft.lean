import Unguard.Body
import Unguard.Graph.Basic

/-!
# Drafts

A draft is a graph as its text has it: values are mentioned by name, types and attributes are written
out, and nothing is numbered yet.  Reading a text gives a draft first, and a graph is written by way
of its draft, so the reader and the writer share this form.
-/

namespace Unguard.Text

/-- A value mentioned by name, and the byte of the text at which the name starts. -/
structure Mention where
  name : String
  offset : Nat
deriving DecidableEq, Repr, Inhabited

/-- A constant as written. -/
inductive Literal
  | unit
  | bool (value : Bool)
  | int (bits : UInt64)
  | float (bits : UInt64)
  | string (text : String)
  | type (ty : TypeTree)
  | list (items : List Literal)
deriving Repr, Inhabited

/-- A node as written, its arms apart. -/
structure NodeDraft where
  results : List Mention
  kind : Kind
  operands : List Mention
  attributes : List (String × Literal)
  /-- The types written for the results. -/
  types : List TypeTree
deriving Repr, Inhabited

/-- A block as written, its nodes apart. -/
structure BlockDraft where
  params : List (Mention × TypeTree)
  returns : List Mention
deriving Repr, Inhabited

/-- A sequence of nodes as written. -/
abbrev BodyDraft := Body NodeDraft BlockDraft

/-- A sequence of arms as written. -/
abbrev ArmsDraft := Arms NodeDraft BlockDraft

/-- A graph as written.  The parameters of the graph stand before its block, which may name
parameters of its own. -/
structure GraphDraft where
  params : List (Mention × TypeTree)
  block : BlockDraft
  body : BodyDraft
deriving Repr, Inhabited

end Unguard.Text
