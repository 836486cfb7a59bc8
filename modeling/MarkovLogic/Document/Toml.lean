/-
MarkovLogic/Document/Toml.lean

Documents in TOML notation.

A document is a sequence of lines: settings `key = value`, and headers that
say which table the following settings belong to.  Keys with dots reach into
tables below.  No table may be opened twice, no key set twice, and a table that
was written by keys with dots may not be opened by a header, nor the other way
round.
-/
import MarkovLogic.Document.Toml.Value

namespace MarkovLogic.Document.Toml

/-- TOML passes over surplus elements, and wants an empty list or table behind
a bare alternative. -/
def manner : Manner where
  surplus := true
  emptyPayload := fun d => match d with
    | .list [] => true
    | .record [] => true
    | _ => false

/-! ### Tables under construction -/

/-- How a table came to be. -/
inductive Origin where
  /-- By its own header. -/
  | header
  /-- By the header of a table below it. -/
  | passing
  /-- By a key with dots. -/
  | dotted
deriving DecidableEq

/-- A named thing in a table. -/
inductive Node where
  | value (d : Document)
  | table (origin : Origin) (entries : List (String × Node))
  | tables (items : List (List (String × Node)))

/-- The entries of a table. -/
abbrev Entries := List (String × Node)

/-- Replaces the entry of a key. -/
def replace (entries : Entries) (key : String) (node : Node) : Entries :=
  entries.map fun e => if e.1 = key then (key, node) else e

/-- Changes the table at a path of headers, opening tables on the way.  In a
list of tables the path goes on in the last one. -/
def atPath (change : Entries → Option Entries) : List String → Entries → Option Entries
  | [], entries => change entries
  | key :: path, entries =>
    match entries.lookup key with
    | none => do
      let inner ← atPath change path []
      return entries ++ [(key, .table .passing inner)]
    | some (.table origin inner) => do
      return replace entries key (.table origin (← atPath change path inner))
    | some (.tables items) =>
      match items.reverse with
      | [] => none
      | last :: before => do
        let last ← atPath change path last
        return replace entries key (.tables (last :: before).reverse)
    | some (.value _) => none

/-- Opens the table of a header in the table above it. -/
def openTable (key : String) (entries : Entries) : Option Entries :=
  match entries.lookup key with
  | none => some (entries ++ [(key, .table .header [])])
  | some (.table .passing inner) => some (replace entries key (.table .header inner))
  | _ => none

/-- Opens one more table of a list of tables. -/
def openItem (key : String) (entries : Entries) : Option Entries :=
  match entries.lookup key with
  | none => some (entries ++ [(key, .tables [[]])])
  | some (.tables items) => some (replace entries key (.tables (items ++ [[]])))
  | _ => none

/-- Sets a key, reaching into tables below if it has dots.  The key itself goes
into a table that keys with dots have written.  The way there may also lead
through tables that headers have passed, and through the last one of a list of
tables. -/
def setKey (d : Document) : List String → Entries → Option Entries
  | [], _ => none
  | [key], entries =>
    if (entries.lookup key).isSome then none else some (entries ++ [(key, .value d)])
  | key :: path, entries =>
    match entries.lookup key with
    | none => do
      let inner ← setKey d path []
      return entries ++ [(key, .table .dotted inner)]
    | some (.table origin inner) => do
      guard (origin = .dotted ∨ (origin = .passing ∧ 2 ≤ path.length))
      return replace entries key (.table origin (← setKey d path inner))
    | some (.tables items) =>
      match items.reverse with
      | [] => none
      | last :: before => do
        guard (2 ≤ path.length)
        let last ← setKey d path last
        return replace entries key (.tables (last :: before).reverse)
    | some (.value _) => none

mutual

/-- The document of a finished node. -/
def Node.toDocument : Node → Document
  | .value d => d
  | .table _ entries => .record (entriesToDocument entries)
  | .tables items => .list (itemsToDocument items)

/-- The documents of finished entries. -/
def entriesToDocument : List (String × Node) → List (String × Document)
  | [] => []
  | (key, node) :: rest => (key, node.toDocument) :: entriesToDocument rest

/-- The documents of a finished list of tables. -/
def itemsToDocument : List (List (String × Node)) → List Document
  | [] => []
  | entries :: rest => .record (entriesToDocument entries) :: itemsToDocument rest

end

/-! ### Values -/

mutual

/-- A value, with room for so many levels of lists and tables.  Each level of
nesting and each element spends a unit of the budget, and each takes at least
one character. -/
def value? : Nat → Nat → List Char → Option (Document × List Char)
  | 0, _, _ => none
  | fuel + 1, room, cs =>
    match cs with
    | '[' :: rest => if room = 0 then none else items? fuel (room - 1) rest []
    | '{' :: rest =>
      if room = 0 then none else
        match skipSpace rest with
        | '}' :: rest => some (.record [], rest)
        | rest => inlineTable? fuel (room - 1) rest []
    | '"' :: _ => (string? cs).map fun (s, rest) => (.text s, rest)
    | '\'' :: _ => (string? cs).map fun (s, rest) => (.text s, rest)
    | _ => plain? cs

/-- The elements of a list up to its bracket; a comma may follow the last. -/
def items? : Nat → Nat → List Char → List Document → Option (Document × List Char)
  | 0, _, _, _ => none
  | fuel + 1, room, cs, acc => do
    match ← skipLines? (cs.length + 1) cs with
    | ']' :: rest => return (.list acc.reverse, rest)
    | rest =>
      let (item, rest) ← value? fuel room rest
      match ← skipLines? (rest.length + 1) rest with
      | ',' :: rest => items? fuel room rest (item :: acc)
      | ']' :: rest => return (.list (item :: acc).reverse, rest)
      | _ => none

/-- The settings of a table on one line up to its brace. -/
def inlineTable? : Nat → Nat → List Char → Entries → Option (Document × List Char)
  | 0, _, _, _ => none
  | fuel + 1, room, cs, acc => do
    let (key, rest) ← key? cs
    match skipSpace rest with
    | '=' :: rest =>
      let (d, rest) ← value? fuel room (skipSpace rest)
      let acc ← setKey d key acc
      match skipSpace rest with
      | ',' :: rest => inlineTable? fuel room (skipSpace rest) acc
      | '}' :: rest => return (.record (entriesToDocument acc), rest)
      | _ => none
    | _ => none

end

/-! ### Lines -/

/-- A document under construction: the tables so far and the path of the
current one. -/
structure Draft where
  root : Entries
  current : List String

/-- What follows a header or a setting: blanks, a comment, the end of the line
or of the text. -/
def lineEnd? (cs : List Char) : Option (List Char) := do
  match ← skipComment? (skipSpace cs) with
  | [] => some []
  | rest => newline? rest

/-- A header, after its opening brackets. -/
def header? (isItem : Bool) (draft : Draft) (cs : List Char) : Option (Draft × List Char) := do
  let (path, rest) ← key? (skipSpace cs)
  let rest ← match isItem, skipSpace rest with
    | false, ']' :: rest => some rest
    | true, ']' :: ']' :: rest => some rest
    | _, _ => none
  let last ← path.getLast?
  let root ← atPath (if isItem then openItem last else openTable last) path.dropLast draft.root
  return (⟨root, path⟩, ← lineEnd? rest)

/-- A setting. -/
def setting? (draft : Draft) (cs : List Char) : Option (Draft × List Char) := do
  let (key, rest) ← key? cs
  match skipSpace rest with
  | '=' :: rest =>
    let (d, rest) ← value? (rest.length + 1) deepest (skipSpace rest)
    let root ← atPath (setKey d key) draft.current draft.root
    return ({ draft with root }, ← lineEnd? rest)
  | _ => none

/-- Reads line by line. -/
def lines? : Nat → Draft → List Char → Option Draft
  | 0, _, _ => none
  | fuel + 1, draft, cs => do
    match ← skipLines? (cs.length + 1) cs with
    | [] => return draft
    | '[' :: '[' :: rest =>
      let (draft, rest) ← header? true draft rest
      lines? fuel draft rest
    | '[' :: rest =>
      let (draft, rest) ← header? false draft rest
      lines? fuel draft rest
    | rest =>
      let (draft, rest) ← setting? draft rest
      lines? fuel draft rest

/-- Reads a whole text; a byte order mark in front is dropped. -/
def read? (text : String) : Option Document := do
  let cs := match text.toList with
    | '\uFEFF' :: rest => rest
    | cs => cs
  let draft ← lines? (cs.length + 1) ⟨[], []⟩ cs
  return .record (entriesToDocument draft.root)

end MarkovLogic.Document.Toml
