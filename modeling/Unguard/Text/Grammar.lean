import Unguard.Text.Lexeme

/-!
# The grammar of a graph text

```text
graph    := "graph" params block
params   := "(" [value ":" type {"," value ":" type}] ")"
block    := "{" ["^" params] {node} ["return" [value {"," value}]] "}"
node     := [value {"," value} "="] (op | if | raise)
op       := name "." name operands [attrs] [":" type {"," type}]
if       := "if" operands [":" type {"," type}] block "else" block
raise    := "raise" operands [attrs]
operands := "(" [value {"," value}] ")"
attrs    := "{" [name "=" literal {"," name "=" literal}] "}"
literal  := "true" | "false" | "unit" | string | "[" [literal {"," literal}] "]" | float | integer | type
type     := name "." name ["(" [type {"," type}] ")"]
```

Blanks and comments may stand between any two parts, except inside a qualified name and around its
point.  Alternatives are tried in the order given.  Nesting is bounded by the length of the text.
-/

namespace Unguard.Text.Reader

/-! ### Types and constants -/

/-- A type nested at most `depth` deep. -/
def type : Nat → Reader TypeTree
  | 0 => fail
  | depth + 1 => do
    let head ← qualified
    let params ← optional (bracketed '(' (separated (padded (type depth))) ')')
    return .mk head.dialect head.name (params.getD [])

/-- A constant nested at most `depth` deep. -/
def literal : Nat → Reader Literal
  | 0 => fail
  | depth + 1 =>
    (do word "true"; return .bool true)
    <|> (do word "false"; return .bool false)
    <|> (do word "unit"; return .unit)
    <|> (do return .string (← quoted))
    <|> (do return .list (← bracketed '[' (separated (padded (literal depth))) ']'))
    <|> (do return .float (← float))
    <|> (do return .int (← integer))
    <|> (do return .type (← type (depth + 1)))

/-- A key, an equals sign and a constant. -/
def entry (depth : Nat) : Reader (String × Literal) :=
  padded do
    let key ← name
    blanks
    char '='
    blanks
    let value ← literal depth
    return (key, value)

/-- The attributes of a node. -/
def attributes (depth : Nat) : Reader (List (String × Literal)) :=
  bracketed '\x7b' (separated (entry depth)) '\x7d'

/-- The attributes of a node, if it has some. -/
def attributes? (depth : Nat) : Reader (List (String × Literal)) := do
  let entries ← optional (do blanks; attributes depth)
  return entries.getD []

/-! ### Values -/

/-- Any number of values. -/
def mentions : Reader (List Mention) :=
  separated (padded mention)

/-- The operands of a node. -/
def operands : Reader (List Mention) :=
  bracketed '(' mentions ')'

/-- The results of a node and the equals sign after them. -/
def results : Reader (List Mention) := do
  let results ← separated1 (padded mention)
  char '='
  return results

/-- The types of a node's results, if they are written. -/
def annotation? (depth : Nat) : Reader (List TypeTree) := do
  let types ← optional do
    blanks
    char ':'
    blanks
    separated1 (padded (type depth))
  return types.getD []

/-- A parameter with its type. -/
def param (depth : Nat) : Reader (Mention × TypeTree) :=
  padded do
    let value ← mention
    blanks
    char ':'
    blanks
    let ty ← type depth
    return (value, ty)

/-- The parameters of a block. -/
def params (depth : Nat) : Reader (List (Mention × TypeTree)) :=
  bracketed '(' (separated (param depth)) ')'

/-! ### Nodes and blocks -/

/-- A node with its arms. -/
abbrev NodeItem := NodeDraft × ArmsDraft

/-- A node that computes by an operator. -/
def opNode (depth : Nat) : Reader NodeItem := do
  let op ← qualified
  blanks
  let operands ← operands
  let attributes ← attributes? depth
  let types ← annotation? depth
  return ({ results := [], kind := .op op, operands, attributes, types }, .done)

/-- A conditional with its two arms. -/
def conditional (depth : Nat) (block : Reader (BlockDraft × BodyDraft)) : Reader NodeItem := do
  keyword "if"
  let operands ← operands
  let types ← annotation? depth
  blanks
  let (first, firstBody) ← block
  blanks
  keyword "else"
  let (second, secondBody) ← block
  return ({ results := [], kind := .conditional, operands, attributes := [], types },
    .arm first firstBody (.arm second secondBody .done))

/-- A raise. -/
def raiseNode (depth : Nat) : Reader NodeItem := do
  keyword "raise"
  let operands ← operands
  let attributes ← attributes? depth
  return ({ results := [], kind := .raise, operands, attributes, types := [] }, .done)

/-- A node with the values it defines. -/
def node (depth : Nat) (block : Reader (BlockDraft × BodyDraft)) : Reader NodeItem := do
  let results ← optional results
  blanks
  let (head, arms) ← opNode depth <|> conditional depth block <|> raiseNode depth
  return ({ head with results := results.getD [] }, arms)

/-- What may stand in a block. -/
inductive Item
  | node (item : NodeItem)
  | returns (values : List Mention)

/-- A node, or the return that ends the block. -/
def item (depth : Nat) (block : Reader (BlockDraft × BodyDraft)) : Reader Item :=
  (do return .node (← node depth block))
  <|> (do
    word "return"
    return .returns (← mentions))

/-- The items of a block up to its closing brace, at most as many as `budget` is long. -/
def items (item : Reader Item) : (budget : List Char) → Reader (BodyDraft × List Mention)
  | [] => fail
  | _ :: budget => do
    blanks
    if ← nextIs '\x7d' then return (.done, [])
    else match ← item with
      | .node (head, arms) =>
        let (rest, returns) ← items item budget
        return (.node head arms rest, returns)
      | .returns values =>
        blanks
        return (.done, values)

/-- A block whose blocks nest at most `nesting` deep. -/
def block (depth : Nat) : Nat → Reader (BlockDraft × BodyDraft)
  | 0 => fail
  | nesting + 1 => do
    char '\x7b'
    blanks
    let params ← optional (do char '^'; params depth)
    let (body, returns) ← fun cursor => items (item depth (block depth nesting)) cursor.rest cursor
    char '\x7d'
    return ({ params := params.getD [], returns }, body)

/-- A whole graph, with blanks around it. -/
def graph (depth : Nat) : Reader GraphDraft :=
  padded do
    keyword "graph"
    let params ← params depth
    blanks
    let (block, body) ← block depth depth
    return { params, block, body }

end Unguard.Text.Reader
