import Unguard.Number.Shortest
import Unguard.Text.Draft

/-!
# Writing a draft

The written form of a draft: one line for each node, two more spaces for each level of nesting, a
return only where values are returned.
-/

namespace Unguard

/-- Puts commas between texts. -/
def commaSeparated (texts : List String) : String :=
  String.intercalate ", " texts

mutual

/-- The text of a type. -/
def TypeTree.text : TypeTree → String
  | .mk dialect name [] => dialect ++ "." ++ name
  | .mk dialect name (ty :: tys) =>
    dialect ++ "." ++ name ++ "(" ++ commaSeparated (TypeTree.texts (ty :: tys)) ++ ")"

/-- The texts of types. -/
def TypeTree.texts : List TypeTree → List String
  | [] => []
  | ty :: tys => ty.text :: TypeTree.texts tys

end

end Unguard

namespace Unguard.Text

/-! ### Constants -/

/-- The characters that stand for `c` in a quoted string. -/
def escape (c : Char) : List Char :=
  if c = '\\' then ['\\', '\\']
  else if c = '"' then ['\\', '"']
  else if c = '\n' then ['\\', 'n']
  else if c = '\t' then ['\\', 't']
  else [c]

/-- A string in quotes. -/
def quote (text : String) : String :=
  "\"" ++ String.ofList (text.toList.flatMap escape) ++ "\""

/-- The signed integer that 64 bits stand for. -/
def signedText (bits : UInt64) : String :=
  if 2 * bits.toNat < UInt64.size then bits.toNat.repr else "-" ++ (UInt64.size - bits.toNat).repr

mutual

/-- The text of a constant. -/
def Literal.text : Literal → String
  | .unit => "unit"
  | .bool value => if value then "true" else "false"
  | .int bits => signedText bits
  | .float bits => Binary64.text bits
  | .string text => quote text
  | .type ty => ty.text
  | .list items => "[" ++ commaSeparated (Literal.texts items) ++ "]"

/-- The texts of constants. -/
def Literal.texts : List Literal → List String
  | [] => []
  | item :: items => item.text :: Literal.texts items

end

/-! ### Nodes and blocks -/

def Mention.text (m : Mention) : String :=
  "%" ++ m.name

def mentionsText (ms : List Mention) : String :=
  commaSeparated (ms.map Mention.text)

def paramsText (params : List (Mention × TypeTree)) : String :=
  commaSeparated (params.map fun (m, ty) => m.text ++ ": " ++ ty.text)

def attributesText (attributes : List (String × Literal)) : String :=
  commaSeparated (attributes.map fun (key, value) => key ++ " = " ++ value.text)

/-- A node, its arms and the end of the line apart. -/
def NodeDraft.text (node : NodeDraft) : String :=
  (if node.results.isEmpty then "" else mentionsText node.results ++ " = ") ++
  node.kind.text ++ "(" ++ mentionsText node.operands ++ ")" ++
  (if node.attributes.isEmpty then ""
    else " \x7b" ++ attributesText node.attributes ++ "\x7d") ++
  (if node.types.isEmpty then "" else " : " ++ commaSeparated (TypeTree.texts node.types))

def indentation (indent : Nat) : String :=
  String.ofList (List.replicate indent ' ')

/-- The line that returns values, if any are returned. -/
def returnLines (indent : Nat) (returns : List Mention) : List String :=
  if returns.isEmpty then [] else [indentation indent ++ "return " ++ mentionsText returns]

/-- What opens a block after `lead`. -/
def openingText (lead : String) (head : BlockDraft) : String :=
  lead ++ "\x7b" ++ if head.params.isEmpty then "" else " ^(" ++ paramsText head.params ++ ")"

mutual

/-- The lines of some nodes. -/
def bodyLines (indent : Nat) : BodyDraft → List String
  | .done => []
  | .node head arms rest =>
    armsLines indent (indentation indent ++ head.text) " " arms ++ bodyLines indent rest

/-- The lines of the arms of a node, where `line` is what stands on the first one already and `lead`
is written between it and the first arm. -/
def armsLines (indent : Nat) (line lead : String) : ArmsDraft → List String
  | .done => [line]
  | .arm head body rest =>
    (line ++ openingText lead head) ::
      (bodyLines (indent + 2) body ++ returnLines (indent + 2) head.returns ++
        armsLines indent (indentation indent ++ "\x7d") " else " rest)

end

/-- The lines of a graph. -/
def GraphDraft.lines (draft : GraphDraft) : List String :=
  ("graph(" ++ paramsText draft.params ++ ") \x7b") ::
    (bodyLines 2 draft.body ++ returnLines 2 draft.block.returns ++ ["\x7d"])

/-- Lines as one text, each with its end. -/
def joinLines (lines : List String) : String :=
  String.join (lines.map (· ++ "\n"))

/-- The text of a graph. -/
def GraphDraft.text (draft : GraphDraft) : String :=
  joinLines draft.lines

end Unguard.Text
