import Unguard.Number.Binary64
import Unguard.Text.Draft
import Unguard.Text.Reader

/-!
# The smallest parts of a text

Blanks and comments, names, numbers and quoted strings.  A comment starts with `//` and ends before
the end of its line.  An integer stands for its 64 bits, a negative one in two's complement, and has
to fit; a float has digits on both sides of its point.
-/

namespace Unguard.Text

/-! ### Blanks -/

/-- Space, tab, line feed, form feed and carriage return. -/
def isBlank (c : Char) : Bool :=
  c = ' ' || c = '\t' || c = '\n' || c = '\x0c' || c = '\r'

mutual

/-- Passes blanks and comments. -/
def skipBlanks : List Char → Nat → Cursor
  | [], offset => ⟨[], offset⟩
  | '/' :: '/' :: cs, offset => skipComment cs (offset + 2)
  | c :: cs, offset =>
    if isBlank c then skipBlanks cs (offset + c.utf8Size) else ⟨c :: cs, offset⟩

/-- Passes the rest of a comment, then blanks and further comments. -/
def skipComment : List Char → Nat → Cursor
  | [], offset => ⟨[], offset⟩
  | c :: cs, offset =>
    if c = '\n' then skipBlanks cs (offset + c.utf8Size) else skipComment cs (offset + c.utf8Size)

end

namespace Reader

/-- Blanks and comments, if there are any. -/
def blanks : Reader Unit :=
  fun cursor => .done () (skipBlanks cursor.rest cursor.offset)

/-- `p` with blanks around it. -/
def padded {α : Type} (p : Reader α) : Reader α := do
  blanks
  let value ← p
  blanks
  return value

/-- A word and the blanks after it. -/
def keyword (text : String) : Reader Unit := do
  word text
  blanks

/-- `p` between the brackets `left` and `right`, with blanks inside them. -/
def bracketed {α : Type} (left : Char) (p : Reader α) (right : Char) : Reader α := do
  char left
  blanks
  let value ← p
  blanks
  char right
  return value

end Reader

/-! ### Names -/

/-- ASCII letters and the underscore. -/
def isNameStart (c : Char) : Bool :=
  c.isAlpha || c = '_'

/-- ASCII letters, ASCII digits and the underscore. -/
def isNamePart (c : Char) : Bool :=
  c.isAlphanum || c = '_'

namespace Reader

/-- A name: a letter or underscore, then letters, digits and underscores. -/
def name : Reader String := do
  let first ← satisfy isNameStart
  let rest ← takeWhile isNamePart
  return String.ofList (first :: rest)

/-- A value: `%` and a run of letters, digits and underscores. -/
def mention : Reader Mention := do
  char '%'
  let offset ← offset
  let text ← takeWhile1 isNamePart
  return ⟨String.ofList text, offset⟩

/-- Two names with a point between them. -/
def qualified : Reader Operator := do
  let dialect ← name
  char '.'
  let name ← name
  return ⟨dialect, name⟩

/-! ### Numbers -/

/-- A numeral without leading zeros; after a zero nothing more is read. -/
def numeral : Reader Nat :=
  (do
    let first ← satisfy fun c => c.isDigit && c ≠ '0'
    let rest ← takeWhile Char.isDigit
    return Decimal.ofDigitList (first :: rest))
  <|> (do
    char '0'
    return 0)

/-- A minus sign, if there is one. -/
def minus : Reader Bool := do
  let sign ← optional (char '-')
  return sign.isSome

/-- An integer from `-2 ^ 63` up to `2 ^ 64 - 1`, as its 64 bits. -/
def integer : Reader UInt64 := do
  let negative ← minus
  let n ← numeral
  if !negative && n < UInt64.size then return n.toUInt64
  else if negative && 2 * n ≤ UInt64.size then return (UInt64.size - n).toUInt64
  else fail

/-- The exponent of a float. -/
def exponent : Reader Int := do
  let _ ← satisfy fun c => c = 'e' || c = 'E'
  let sign ← optional (satisfy fun c => c = '+' || c = '-')
  let digits ← takeWhile1 Char.isDigit
  let n : Int := Decimal.ofDigitList digits
  return if sign = some '-' then -n else n

/-- A float, which has a point, as the bits of the nearest double-precision value. -/
def float : Reader UInt64 := do
  let negative ← minus
  let whole ← takeWhile1 Char.isDigit
  char '.'
  let fraction ← takeWhile1 Char.isDigit
  let exponent ← optional exponent
  let decimal := Decimal.ofDigits whole fraction (exponent.getD 0)
  return Binary64.bits negative (Binary64.ofDecimal decimal)

end Reader

/-! ### Quoted strings -/

/-- What a backslash and a character stand for.  A backslash before any other character is itself. -/
def unescape (c : Char) : List Char :=
  if c = '"' then ['"']
  else if c = '\\' then ['\\']
  else if c = 'n' then ['\n']
  else if c = 't' then ['\t']
  else ['\\', c]

/-- The characters up to the closing quote. -/
def unquote : List Char → Nat → Outcome (List Char)
  | [], offset => .failed offset
  | ['\\'], offset => .failed (offset + 1)
  | '\\' :: c :: cs, offset =>
    match unquote cs (offset + 1 + c.utf8Size) with
    | .done text next => .done (unescape c ++ text) next
    | .failed offset => .failed offset
  | c :: cs, offset =>
    if c = '"' then .done [] ⟨cs, offset + 1⟩
    else match unquote cs (offset + c.utf8Size) with
      | .done text next => .done (c :: text) next
      | .failed offset => .failed offset

namespace Reader

/-- A string in quotes. -/
def quoted : Reader String := do
  char '"'
  let text ← fun cursor => unquote cursor.rest cursor.offset
  return String.ofList text

end Reader

end Unguard.Text
