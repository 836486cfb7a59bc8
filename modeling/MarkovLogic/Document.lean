/-
MarkovLogic/Document.lean

Structured documents.

Problem files, configuration files and result files are documents: trees of
lists and records over numbers and texts.  Two notations for them are read
(see `Document/Json` and `Document/Toml`), and what a document has to look
like is said here once for both, by the functions that take a document apart.

A record of known fields may also be written as the list of its fields in
their declared order.  A field may be missing, unknown fields are passed over,
and a known field may not be repeated.
-/
import MarkovLogic.Decimal.Rounding

namespace MarkovLogic

/-- A document.  `unreadable` is what is written by the rules of its notation
and has no value: a number past the largest one, or a text with one half of a
surrogate pair, also where the text is a name in a record.  It can be passed
over but not used. -/
inductive Document where
  | null
  | bool (value : Bool)
  | integer (value : Int)
  | real (value : Float)
  | text (value : String)
  | list (items : List Document)
  | record (fields : List (String × Document))
  | unreadable
deriving Repr, Inhabited

namespace Document

/-! ### Taking documents apart -/

/-- A truth value. -/
def asBool? : Document → Option Bool
  | bool b => some b
  | _ => none

/-- A natural number below a bound. -/
def asNat? (bound : Nat) : Document → Option Nat
  | integer n => if 0 ≤ n ∧ n.toNat < bound then some n.toNat else none
  | _ => none

/-- A real number; integers are real numbers too. -/
def asFloat? : Document → Option Float
  | integer n => some (Decimal.nearestFloat (n < 0) n.natAbs 1)
  | real x => some x
  | _ => none

/-- A text. -/
def asText? : Document → Option String
  | text s => some s
  | _ => none

/-- A list. -/
def asList? : Document → Option (List Document)
  | list items => some items
  | _ => none

/-- A list of texts. -/
def asTexts? (d : Document) : Option (List String) := do
  (← d.asList?).mapM asText?

/-- What a notation allows beyond the common rules. -/
structure Manner where
  /-- Whether a list may hold more elements than the record has fields. -/
  surplus : Bool
  /-- What may stand behind the name of an alternative when it is written as
  a record with that one field. -/
  emptyPayload : Document → Bool

/-- The fields of a record by name, in the order of `names`: `none` where a
field is missing. -/
def fields? (manner : Manner) (names : List String) : Document → Option (List (Option Document))
  | record fields =>
    names.mapM fun name =>
      match fields.filter fun f => f.1 == name with
      | [] => some none
      | [f] => some (some f.2)
      | _ => none
  | list items =>
    if items.length ≤ names.length ∨ manner.surplus then
      some ((List.range names.length).map fun i => items[i]?)
    else none
  | _ => none

/-- One of several named alternatives. -/
def asChoice? {β : Type} (manner : Manner) (choices : List (String × β)) (d : Document) :
    Option β :=
  match d with
  | text s => choices.lookup s
  | record [(name, payload)] => if manner.emptyPayload payload then choices.lookup name else none
  | _ => none

/-- A field that may be missing. -/
def orDefault {β : Type} (fallback : β) (read : Document → Option β) :
    Option Document → Option β
  | none => some fallback
  | some d => read d

/-- A field that has to be there. -/
def required {β : Type} (read : Document → Option β) (field : Option Document) : Option β :=
  field.bind read

end Document

end MarkovLogic
