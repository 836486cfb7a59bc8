/-
MarkovLogic/Document/Json.lean

Documents in JSON notation.

The reader takes a whole text: one value with blanks around it.  An integer
that fits 64 bits, signed or unsigned, is an integer; every other number is
real and read by scaling (see `Decimal/Scaled`).  The writer sets each element and each field on a
line of its own, indented by two blanks a level, and escapes quotes,
backslashes and control characters only.
-/
import MarkovLogic.Decimal.Layout
import MarkovLogic.Decimal.Scaled
import MarkovLogic.Document
import MarkovLogic.Text.Blank

namespace MarkovLogic.Document.Json

/-- JSON allows no surplus elements, and `null` behind a bare alternative. -/
def manner : Manner where
  surplus := false
  emptyPayload := fun d => match d with
    | .null => true
    | _ => false

/-! ### Reading -/

/-- The blanks of the notation. -/
def isSpace (c : Char) : Bool :=
  c == ' ' || c == '\n' || c == '\t' || c == '\r'

/-- Drops blanks at the front. -/
def skipSpace (cs : List Char) : List Char :=
  cs.dropWhile isSpace

/-- The value of a hexadecimal digit. -/
def hexValue? (c : Char) : Option Nat :=
  if c.isDigit then some (c.toNat - 48)
  else if 'a' ≤ c ∧ c ≤ 'f' then some (c.toNat - 87)
  else if 'A' ≤ c ∧ c ≤ 'F' then some (c.toNat - 55)
  else none

/-- The value of four hexadecimal digits. -/
def hexValue4? (a b c d : Char) : Option Nat := do
  let digits ← [a, b, c, d].mapM hexValue?
  return digits.foldl (fun acc n => 16 * acc + n) 0

/-- The character of a one-letter escape. -/
def plainEscape? : Char → Option Char
  | '"' => some '"'
  | '\\' => some '\\'
  | '/' => some '/'
  | 'b' => some '\x08'
  | 'f' => some '\x0c'
  | 'n' => some '\n'
  | 'r' => some '\r'
  | 't' => some '\t'
  | _ => none

/-- Whether a number is the first half of a surrogate pair. -/
def isLeading (n : Nat) : Bool :=
  0xD800 ≤ n && n < 0xDC00

/-- Whether a number is the second half of a surrogate pair. -/
def isTrailing (n : Nat) : Bool :=
  0xDC00 ≤ n && n < 0xE000

/-- The next character of a text: an ordinary one, an escaped one, or half of
a surrogate pair (`none`), with what follows it. -/
def stringChar? : List Char → Option (Option Char × List Char)
  | '\\' :: 'u' :: a :: b :: c :: d :: rest => do
    let n ← hexValue4? a b c d
    if isTrailing n then return (none, rest)
    if !isLeading n then return (some (Char.ofNat n), rest)
    match rest with
    | '\\' :: 'u' :: a' :: b' :: c' :: d' :: rest' =>
      let m ← hexValue4? a' b' c' d'
      if isTrailing m then
        return (some (Char.ofNat (0x10000 + (n - 0xD800) * 0x400 + (m - 0xDC00))), rest')
      else return (none, rest)
    | _ => return (none, rest)
  | '\\' :: c :: rest => (plainEscape? c).map fun e => (some e, rest)
  | c :: rest => if c.toNat < 0x20 ∨ c = '"' ∨ c = '\\' then none else some (some c, rest)
  | [] => none

/-- Reads up to the closing quote.  The text is `none` when it holds half of a
surrogate pair. -/
def stringBody? : Nat → List Char → Option (List Char) → Option (Option String × List Char)
  | 0, _, _ => none
  | _ + 1, '"' :: rest, acc => some (acc.map fun cs => String.ofList cs.reverse, rest)
  | fuel + 1, cs, acc => do
    let (c, rest) ← stringChar? cs
    stringBody? fuel rest (do return (← c) :: (← acc))

/-- Reads a number. -/
def number? (cs : List Char) : Option (Document × List Char) := do
  let (negative, cs) := match cs with
    | '-' :: rest => (true, rest)
    | rest => (false, rest)
  let whole := cs.takeWhile Char.isDigit
  let rest := cs.dropWhile Char.isDigit
  guard (whole ≠ [] ∧ (whole.length = 1 ∨ whole.head? ≠ some '0'))
  let (fraction, rest) ← match rest with
    | '.' :: rest =>
      let fraction := rest.takeWhile Char.isDigit
      if fraction.isEmpty then none else some (some fraction, rest.dropWhile Char.isDigit)
    | rest => some (none, rest)
  let (exponent, rest) ← match rest with
    | mark :: more =>
      if mark = 'e' ∨ mark = 'E' then do
        let (sign, digits) := Decimal.takeSign more
        let n ← Decimal.readDigits? (digits.takeWhile Char.isDigit)
        some (some (if sign then -(n : Int) else (n : Int)), digits.dropWhile Char.isDigit)
      else some (none, rest)
    | [] => some (none, rest)
  let n := Decimal.digitsValue whole
  let isWhole := fraction.isNone && exponent.isNone
  if isWhole ∧ !negative ∧ n < Nat.pow 2 64 then return (.integer n, rest)
  if isWhole ∧ negative ∧ 0 < n ∧ n ≤ Nat.pow 2 63 then return (.integer (-(n : Int)), rest)
  let numeral : Decimal.Numeral := ⟨whole, fraction.getD [], exponent.getD 0⟩
  return ((numeral.scaled.toFloat? negative).elim .unreadable .real, rest)

/-- Drops a word at the front. -/
def word? (word : String) (cs : List Char) : Option (List Char) :=
  if word.toList.isPrefixOf cs then some (cs.drop word.length) else none

mutual

/-- Reads a value.  A level of nesting spends two units of the budget and takes
two characters, its brackets; an element spends one and takes one.  So the
number of characters is budget enough. -/
def value? : Nat → List Char → Option (Document × List Char)
  | 0, _ => none
  | fuel + 1, cs =>
    match cs with
    | '"' :: rest => do
      let (body, rest) ← stringBody? fuel rest (some [])
      return (body.elim .unreadable .text, rest)
    | '[' :: rest =>
      match skipSpace rest with
      | ']' :: rest => some (.list [], rest)
      | rest => items? fuel rest []
    | '{' :: rest =>
      match skipSpace rest with
      | '}' :: rest => some (.record [], rest)
      | rest => fields? fuel rest (some [])
    | 'n' :: _ => (word? "null" cs).map fun rest => (.null, rest)
    | 't' :: _ => (word? "true" cs).map fun rest => (.bool true, rest)
    | 'f' :: _ => (word? "false" cs).map fun rest => (.bool false, rest)
    | _ => number? cs

/-- Reads the elements of a list that is not empty, up to its bracket. -/
def items? : Nat → List Char → List Document → Option (Document × List Char)
  | 0, _, _ => none
  | fuel + 1, cs, acc => do
    let (item, rest) ← value? fuel cs
    match skipSpace rest with
    | ',' :: rest => items? fuel (skipSpace rest) (item :: acc)
    | ']' :: rest => return (.list (item :: acc).reverse, rest)
    | _ => none

/-- Reads the fields of a record that is not empty, up to its brace.  The
record is unreadable when a name holds half of a surrogate pair. -/
def fields? :
    Nat → List Char → Option (List (String × Document)) → Option (Document × List Char)
  | 0, _, _ => none
  | fuel + 1, cs, acc =>
    match cs with
    | '"' :: rest => do
      let (name, rest) ← stringBody? fuel rest (some [])
      match skipSpace rest with
      | ':' :: rest => do
        let (item, rest) ← value? fuel (skipSpace rest)
        let acc := do return (← name, item) :: (← acc)
        match skipSpace rest with
        | ',' :: rest => fields? fuel (skipSpace rest) acc
        | '}' :: rest => return (acc.elim .unreadable fun fs => .record fs.reverse, rest)
        | _ => none
      | _ => none
    | _ => none

end

/-- Reads a text that holds one value and nothing else. -/
def read? (text : String) : Option Document := do
  let cs := text.toList
  let (d, rest) ← value? (cs.length + 1) (skipSpace cs)
  if (skipSpace rest).isEmpty then return d else none

/-! ### Writing -/

/-- The escaped form of a character. -/
def escape (c : Char) : String :=
  match c with
  | '"' => "\\\""
  | '\\' => "\\\\"
  | '\n' => "\\n"
  | '\r' => "\\r"
  | '\t' => "\\t"
  | '\x08' => "\\b"
  | '\x0c' => "\\f"
  | _ => if c.toNat < 0x20 then "\\u" ++ Text.hexDigits 4 c.toNat else c.toString

/-- A text in quotes. -/
def quote (s : String) : String :=
  "\"" ++ String.join (s.toList.map escape) ++ "\""

/-- A value that is neither a list nor a record. -/
def leaf : Document → String
  | .bool true => "true"
  | .bool false => "false"
  | .integer n => toString n
  | .real x => Decimal.Layout.result.print x
  | .text s => quote s
  | _ => "null"

/-- A new line with the indentation of a level. -/
def newline (level : Nat) : String :=
  "\n" ++ String.ofList (List.replicate (2 * level) ' ')

mutual

/-- Writes a document over several lines. -/
def pretty (level : Nat) : Document → String
  | .list [] => "[]"
  | .list (d :: ds) => "[" ++ prettyItems (level + 1) (d :: ds) ++ newline level ++ "]"
  | .record [] => "\x7b\x7d"
  | .record (f :: fs) => "\x7b" ++ prettyFields (level + 1) (f :: fs) ++ newline level ++ "\x7d"
  | d => leaf d

/-- Writes the elements of a list. -/
def prettyItems (level : Nat) : List Document → String
  | [] => ""
  | [d] => newline level ++ pretty level d
  | d :: ds => newline level ++ pretty level d ++ "," ++ prettyItems level ds

/-- Writes the fields of a record. -/
def prettyFields (level : Nat) : List (String × Document) → String
  | [] => ""
  | [(name, d)] => newline level ++ quote name ++ ": " ++ pretty level d
  | (name, d) :: fs =>
    newline level ++ quote name ++ ": " ++ pretty level d ++ "," ++ prettyFields level fs

end

end MarkovLogic.Document.Json
