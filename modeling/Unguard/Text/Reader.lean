/-!
# Readers

A reader takes a cursor into a text and either gives a value and the cursor after it, or fails.  A
failure keeps the offset at which the reader stood, because that is where an error is reported:

* a sequence stands where the part that failed stood;
* a character or a word that is not there leaves the reader where it was;
* a choice tries every alternative from its start and, when all fail, stands where the last one did;
* an optional part that fails, or an item that is missing after a comma, is undone.

Offsets count bytes.  Repetition is bounded by the rest of the text, which every repeated part
shortens.
-/

namespace Unguard.Text

/-- The rest of a text and the number of bytes before it. -/
structure Cursor where
  rest : List Char
  offset : Nat
deriving DecidableEq, Repr, Inhabited

namespace Cursor

def ofString (text : String) : Cursor :=
  ⟨text.toList, 0⟩

/-- Splits off the longest beginning of a text whose characters satisfy `p`. -/
def span (p : Char → Bool) : List Char → Nat → List Char × Cursor
  | [], offset => ([], ⟨[], offset⟩)
  | c :: cs, offset =>
    if p c then
      let (taken, next) := span p cs (offset + c.utf8Size)
      (c :: taken, next)
    else ([], ⟨c :: cs, offset⟩)

/-- Drops `word` from the beginning of the text. -/
def drop? : List Char → Cursor → Option Cursor
  | [], cursor => some cursor
  | w :: ws, ⟨c :: cs, offset⟩ =>
    if w = c then drop? ws ⟨cs, offset + c.utf8Size⟩ else none
  | _ :: _, ⟨[], _⟩ => none

end Cursor

/-- What a reader gives. -/
inductive Outcome (α : Type)
  /-- A value, and where to go on. -/
  | done (value : α) (next : Cursor)
  /-- Nothing; the reader stood at this offset. -/
  | failed (offset : Nat)
deriving Repr, Inhabited

def Reader (α : Type) : Type :=
  Cursor → Outcome α

namespace Reader

variable {α β : Type}

def pure (value : α) : Reader α :=
  fun cursor => .done value cursor

def bind (p : Reader α) (next : α → Reader β) : Reader β :=
  fun cursor => match p cursor with
    | .done value cursor => next value cursor
    | .failed offset => .failed offset

instance : Monad Reader where
  pure := Reader.pure
  bind := Reader.bind

/-- Fails where it stands. -/
def fail : Reader α :=
  fun cursor => .failed cursor.offset

/-- Where the reader stands. -/
def offset : Reader Nat :=
  fun cursor => .done cursor.offset cursor

/-- Tries `p` and, if it fails, `q` from the same place. -/
def orElse (p : Reader α) (q : Unit → Reader α) : Reader α :=
  fun cursor => match p cursor with
    | .done value next => .done value next
    | .failed _ => q () cursor

instance : OrElse (Reader α) where
  orElse := Reader.orElse

/-- Tries `p` and goes on from the same place if it fails. -/
def optional (p : Reader α) : Reader (Option α) :=
  fun cursor => match p cursor with
    | .done value next => .done (some value) next
    | .failed _ => .done none cursor

/-- A character that satisfies `p`. -/
def satisfy (p : Char → Bool) : Reader Char :=
  fun cursor => match cursor.rest with
    | c :: cs => if p c then .done c ⟨cs, cursor.offset + c.utf8Size⟩ else .failed cursor.offset
    | [] => .failed cursor.offset

/-- The character `c`. -/
def char (c : Char) : Reader Unit := do
  let _ ← satisfy (· = c)

/-- The characters of `word` in order. -/
def word (word : String) : Reader Unit :=
  fun cursor => match cursor.drop? word.toList with
    | some next => .done () next
    | none => .failed cursor.offset

/-- The characters up to the first that does not satisfy `p`. -/
def takeWhile (p : Char → Bool) : Reader (List Char) :=
  fun cursor =>
    let (taken, next) := Cursor.span p cursor.rest cursor.offset
    .done taken next

/-- The same, but at least one character. -/
def takeWhile1 (p : Char → Bool) : Reader (List Char) := do
  let first ← satisfy p
  let rest ← takeWhile p
  return first :: rest

/-- Whether the next character is `c`. -/
def nextIs (c : Char) : Reader Bool :=
  fun cursor => .done (cursor.rest.head? = some c) cursor

/-! ### Lists with commas -/

/-- Items that each follow a comma, at most as many as `budget` is long.  A comma without an item after
it is left unread. -/
def afterCommas (item : Reader α) : (budget : List Char) → Reader (List α)
  | [] => pure []
  | _ :: budget => do
    match ← optional (do char ','; item) with
    | none => return []
    | some first =>
      let rest ← afterCommas item budget
      return first :: rest

/-- At least one item; items are divided by commas. -/
def separated1 (item : Reader α) : Reader (List α) := do
  let first ← item
  let rest ← fun cursor => afterCommas item cursor.rest cursor
  return first :: rest

/-- Any number of items, divided by commas. -/
def separated (item : Reader α) : Reader (List α) := do
  match ← optional (separated1 item) with
  | none => return []
  | some items => return items

end Reader

end Unguard.Text
