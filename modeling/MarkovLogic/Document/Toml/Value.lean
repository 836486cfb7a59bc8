/-
MarkovLogic/Document/Toml/Value.lean

Keys and plain values in TOML notation: strings, numbers, truth values, dates.

Integers have 64 bits with sign and may be written in base 16, 8 and 2; digits
may be separated by single underscores.  A real number has digits on both
sides of its point.  Dates and times are recognized by their shape; they are
no settings of any kind, so they become records that fit nothing.
-/
import MarkovLogic.Decimal.Reading
import MarkovLogic.Document.Json

namespace MarkovLogic.Document.Toml

/-! ### Characters -/

/-- A blank within a line. -/
def isSpace (c : Char) : Bool :=
  c == ' ' || c == '\t'

/-- Drops blanks at the front. -/
def skipSpace (cs : List Char) : List Char :=
  cs.dropWhile isSpace

/-- A character that may stand in comments and strings. -/
def isPrintable (c : Char) : Bool :=
  c == '\t' || (0x20 ≤ c.toNat && c.toNat != 0x7F)

/-- Drops a comment, if there is one. -/
def skipComment? : List Char → Option (List Char)
  | '#' :: rest =>
    let body := rest.takeWhile fun c => c != '\n' && c != '\r'
    if body.all isPrintable then some (rest.dropWhile fun c => c != '\n' && c != '\r') else none
  | cs => some cs

/-- What follows the end of a line, if there is one. -/
def newline? : List Char → Option (List Char)
  | '\n' :: rest => some rest
  | '\r' :: '\n' :: rest => some rest
  | _ => none

/-- Drops blanks, comments and ends of lines. -/
def skipLines? : Nat → List Char → Option (List Char)
  | 0, _ => none
  | fuel + 1, cs => do
    let rest ← skipComment? (skipSpace cs)
    match newline? rest with
    | some rest => skipLines? fuel rest
    | none => some rest

/-! ### Strings -/

/-- The character with a given code, if it is one. -/
def charOfCode? (n : Nat) : Option Char :=
  if n < 0xD800 ∨ (0xE000 ≤ n ∧ n < 0x110000) then some (Char.ofNat n) else none

/-- The value of a text of hexadecimal digits. -/
def hexNumber? (cs : List Char) : Option Nat :=
  cs.foldlM (fun acc c => do return 16 * acc + (← Json.hexValue? c)) 0

/-- An escaped character, after the backslash. -/
def escape? : List Char → Option (Char × List Char)
  | 'b' :: rest => some ('\x08', rest)
  | 't' :: rest => some ('\t', rest)
  | 'n' :: rest => some ('\n', rest)
  | 'f' :: rest => some ('\x0c', rest)
  | 'r' :: rest => some ('\r', rest)
  | '"' :: rest => some ('"', rest)
  | '\\' :: rest => some ('\\', rest)
  | 'u' :: rest => do
    guard (4 ≤ rest.length)
    let c ← charOfCode? (← hexNumber? (rest.take 4))
    return (c, rest.drop 4)
  | 'U' :: rest => do
    guard (8 ≤ rest.length)
    let c ← charOfCode? (← hexNumber? (rest.take 8))
    return (c, rest.drop 8)
  | _ => none

/-- The rest of a string in double quotes on one line. -/
def basicBody? : Nat → List Char → List Char → Option (String × List Char)
  | 0, _, _ => none
  | fuel + 1, cs, acc =>
    match cs with
    | '"' :: rest => some (String.ofList acc.reverse, rest)
    | '\\' :: rest => do
      let (c, rest) ← escape? rest
      basicBody? fuel rest (c :: acc)
    | c :: rest => if isPrintable c then basicBody? fuel rest (c :: acc) else none
    | [] => none

/-- The rest of a string in single quotes on one line. -/
def literalBody? (cs : List Char) : Option (String × List Char) := do
  let body := cs.takeWhile fun c => c != '\''
  guard (body.all isPrintable)
  match cs.dropWhile fun c => c != '\'' with
  | _ :: rest => some (String.ofList body, rest)
  | [] => none

/-- The number of leading quotes. -/
def countQuotes (quote : Char) (cs : List Char) : Nat :=
  (cs.takeWhile (· == quote)).length

/-- Drops blanks and ends of lines. -/
def skipBlankLines : List Char → List Char
  | '\r' :: '\n' :: rest => skipBlankLines rest
  | c :: rest => if isSpace c || c == '\n' then skipBlankLines rest else c :: rest
  | [] => []

/-- After a backslash at the end of a line: drops blanks and ends of lines. -/
def skipFolded (cs : List Char) : Option (List Char) :=
  (newline? (skipSpace cs)).map skipBlankLines

/-- The rest of a string over several lines.  One or two quotes may stand
before the three that end it. -/
def multilineBody? (quote : Char) (escapes : Bool) :
    Nat → List Char → List Char → Option (String × List Char)
  | 0, _, _ => none
  | fuel + 1, cs, acc =>
    let quotes := countQuotes quote cs
    if 3 ≤ quotes then
      if quotes ≤ 5 then
        some (String.ofList (List.replicate (quotes - 3) quote ++ acc).reverse, cs.drop quotes)
      else none
    else
      match cs with
      | [] => none
      | '\\' :: rest =>
        if escapes then
          match skipFolded rest with
          | some rest => multilineBody? quote escapes fuel rest acc
          | none => do
            let (c, rest) ← escape? rest
            multilineBody? quote escapes fuel rest (c :: acc)
        else multilineBody? quote escapes fuel rest ('\\' :: acc)
      | c :: rest =>
        match newline? cs with
        | some rest => multilineBody? quote escapes fuel rest ('\n' :: acc)
        | none => if isPrintable c then multilineBody? quote escapes fuel rest (c :: acc) else none

/-- Drops the end of a line right after the opening quotes. -/
def dropFirstNewline (cs : List Char) : List Char :=
  (newline? cs).getD cs

/-- A string. -/
def string? (cs : List Char) : Option (String × List Char) :=
  match cs with
  | '"' :: '"' :: '"' :: rest =>
    multilineBody? '"' true (rest.length + 1) (dropFirstNewline rest) []
  | '"' :: rest => basicBody? (rest.length + 1) rest []
  | '\'' :: '\'' :: '\'' :: rest =>
    multilineBody? '\'' false (rest.length + 1) (dropFirstNewline rest) []
  | '\'' :: rest => literalBody? rest
  | _ => none

/-! ### Keys -/

/-- A character of a key without quotes. -/
def isBareKey (c : Char) : Bool :=
  c.isAlphanum || c == '_' || c == '-'

/-- A key without dots. -/
def simpleKey? (cs : List Char) : Option (String × List Char) :=
  match cs with
  | '"' :: rest => basicBody? (rest.length + 1) rest []
  | '\'' :: rest => literalBody? rest
  | _ =>
    let name := cs.takeWhile isBareKey
    if name.isEmpty then none else some (String.ofList name, cs.dropWhile isBareKey)

/-- Names with dots between them. -/
def names? : Nat → List Char → Option (List String × List Char)
  | 0, _ => none
  | fuel + 1, cs => do
    let (name, rest) ← simpleKey? cs
    match skipSpace rest with
    | '.' :: rest =>
      let (names, rest) ← names? fuel (skipSpace rest)
      return (name :: names, rest)
    | rest => return ([name], rest)

/-- How deep tables may lie: a key has no more names, and lists and tables
within a value are nested no deeper. -/
def deepest : Nat := 79

/-- A key: names with dots between them, not too many. -/
def key? (cs : List Char) : Option (List String × List Char) :=
  (names? (cs.length + 1) cs).filter fun (names, _) => names.length ≤ deepest

/-! ### Numbers and dates -/

/-- Digits with single underscores between them, without the underscores. -/
def separated? (isDigit : Char → Bool) : List Char → Option (List Char)
  | [] => none
  | [c] => if isDigit c then some [c] else none
  | c :: '_' :: rest => if isDigit c then (separated? isDigit rest).map (c :: ·) else none
  | c :: rest => if isDigit c then (separated? isDigit rest).map (c :: ·) else none

/-- Decimal digits without a zero in front. -/
def decimal? (cs : List Char) : Option (List Char) := do
  let digits ← separated? Char.isDigit cs
  guard (digits.length = 1 ∨ digits.head? ≠ some '0')
  return digits

/-- The value of digits in a base, if it fits 63 bits. -/
def inBase? (base : Nat) (cs : List Char) : Option Document := do
  let isDigit (c : Char) : Bool := (Json.hexValue? c).any (· < base)
  let digits ← separated? isDigit cs
  let n := digits.foldl (fun acc c => base * acc + (Json.hexValue? c).getD 0) 0
  if n < Nat.pow 2 63 then return .integer n else none

/-- An integer. -/
def integer? (cs : List Char) : Option Document :=
  match cs with
  | '0' :: 'x' :: rest => inBase? 16 rest
  | '0' :: 'o' :: rest => inBase? 8 rest
  | '0' :: 'b' :: rest => inBase? 2 rest
  | _ => do
    let (negative, body) := Decimal.takeSign cs
    let n := Decimal.digitsValue (← decimal? body)
    if negative then
      if n ≤ Nat.pow 2 63 then return .integer (-(n : Int)) else none
    else if n < Nat.pow 2 63 then return .integer n else none

/-- The exponent of a real number, if one is written. -/
def exponent? (cs : List Char) : Option Int :=
  match cs with
  | [] => some 0
  | mark :: rest => do
    guard (mark = 'e' ∨ mark = 'E')
    let (negative, body) := Decimal.takeSign rest
    let n := Decimal.digitsValue (← separated? Char.isDigit body)
    return if negative then -(n : Int) else n

/-- A real number.  Past the largest positive one there is none. -/
def real? (cs : List Char) : Option Document := do
  let (negative, body) := Decimal.takeSign cs
  match String.ofList body with
  | "inf" => return .real (if negative then -1.0 / 0.0 else 1.0 / 0.0)
  | "nan" => return .real (0.0 / 0.0)
  | _ =>
    let isMark (c : Char) : Bool := c == '.' || c == 'e' || c == 'E'
    let whole ← decimal? (body.takeWhile fun c => !isMark c)
    let rest := body.dropWhile fun c => !isMark c
    let (fraction, rest) ← match rest with
      | '.' :: rest => do
        let digits := rest.takeWhile fun c => !isMark c
        some (← separated? Char.isDigit digits, rest.dropWhile fun c => !isMark c)
      | [] => none
      | rest => some ([], rest)
    let numeral : Decimal.Numeral := ⟨whole, fraction, ← exponent? rest⟩
    let x := numeral.toFloat negative
    if x.isInf ∧ !negative then none else return .real x

/-- Whether a text has the shape of a date or a time: `d` stands for a digit. -/
def hasShape (shape : String) (cs : List Char) : Bool :=
  shape.length == cs.length && (shape.toList.zip cs).all fun (s, c) =>
    if s = 'd' then c.isDigit else s == c

/-- The number that two digits at a place spell. -/
def twoDigits (cs : List Char) (place : Nat) : Nat :=
  Decimal.digitsValue ((cs.drop place).take 2)

/-- Whether the text is a day of the calendar. -/
def isDate (cs : List Char) : Bool :=
  hasShape "dddd-dd-dd" cs &&
    let year := Decimal.digitsValue (cs.take 4)
    let month := twoDigits cs 5
    let day := twoDigits cs 8
    let leap := year % 4 == 0 && (year % 100 != 0 || year % 400 == 0)
    let days := if month == 2 then (if leap then 29 else 28)
      else if month == 4 || month == 6 || month == 9 || month == 11 then 30 else 31
    1 ≤ month && month ≤ 12 && 1 ≤ day && day ≤ days

/-- Whether the text is a time of day, with an optional fraction. -/
def isTime (cs : List Char) : Bool :=
  let whole := cs.take 8
  let fraction := match cs.drop 8 with
    | [] => true
    | '.' :: digits => !digits.isEmpty && digits.all Char.isDigit
    | _ => false
  hasShape "dd:dd:dd" whole && fraction &&
    twoDigits whole 0 ≤ 23 && twoDigits whole 3 ≤ 59 && twoDigits whole 6 ≤ 60

/-- Whether the text is a distance from universal time. -/
def isOffset (cs : List Char) : Bool :=
  match cs with
  | ['Z'] => true
  | ['z'] => true
  | sign :: rest =>
    (sign == '+' || sign == '-') && hasShape "dd:dd" rest &&
      twoDigits rest 0 ≤ 23 && twoDigits rest 3 ≤ 59
  | [] => false

/-- Whether the text is a date, a time, or both with an optional offset. -/
def isDateTime (cs : List Char) : Bool :=
  let isMark (c : Char) : Bool := c == 'Z' || c == 'z' || c == '+' || c == '-'
  isDate cs || isTime cs ||
    (isDate (cs.take 10) &&
      match cs.drop 10 with
      | sep :: rest =>
        let time := rest.takeWhile fun c => !isMark c
        let offset := rest.dropWhile fun c => !isMark c
        (sep == 'T' || sep == 't' || sep == ' ') && isTime time &&
          (offset.isEmpty || isOffset offset)
      | [] => false)

/-- A date or a time, as a record that fits no setting. -/
def dateTime? (cs : List Char) : Option Document :=
  if isDateTime cs then
    some (.record [("$__toml_private_datetime", .text (String.ofList cs))])
  else none

/-- A character of a number, a date or a word. -/
def isPlain (c : Char) : Bool :=
  c.isAlphanum || c == '+' || c == '-' || c == '_' || c == '.' || c == ':'

/-- The longest plain text at the front; a blank may join a date and a time. -/
def plainToken (cs : List Char) : List Char × List Char :=
  let token := cs.takeWhile isPlain
  let rest := cs.dropWhile isPlain
  match rest with
  | ' ' :: rest' =>
    let more := rest'.takeWhile isPlain
    if isDate token ∧ isDateTime (token ++ ' ' :: more) then
      (token ++ ' ' :: more, rest'.dropWhile isPlain)
    else (token, rest)
  | _ => (token, rest)

/-- A value that is not a string, a list or a table. -/
def plain? (cs : List Char) : Option (Document × List Char) := do
  let (token, rest) := plainToken cs
  let value ← match String.ofList token with
    | "true" => some (.bool true)
    | "false" => some (.bool false)
    | _ => (dateTime? token <|> real? token) <|> integer? token
  return (value, rest)

end MarkovLogic.Document.Toml
