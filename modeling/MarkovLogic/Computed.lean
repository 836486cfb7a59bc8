/-
MarkovLogic/Computed.lean

Computed predicates.

The truth of a computed atom is not looked up in evidence; it is computed from
the names of its arguments.  A predicate may also be declared as computed
without a rule for it, and then a clause that uses it cannot be grounded.

Comparison takes two names for numbers when both read as numbers, and for
texts otherwise.
-/
import MarkovLogic.Decimal.Reading
import MarkovLogic.Formula.Printer
import MarkovLogic.Text.Quoted
import Std.Data.HashMap

namespace MarkovLogic

/-- The rule of a computed predicate: whether it holds of its arguments. -/
abbrev Rule := List String → Bool

/-- The computed predicates; `none` stands for a missing rule. -/
structure Computed where
  rules : Std.HashMap Signature (Option Rule)

namespace Computed

/-- The order of two numbers; a NaN counts as equal to everything. -/
def compareFloat (x y : Float) : Ordering :=
  if x < y then .lt else if y < x then .gt else .eq

/-- The order of two names: as numbers if both are, otherwise as texts. -/
def compareNames (a b : String) : Ordering :=
  match Decimal.readFloat? a.toList, Decimal.readFloat? b.toList with
  | some x, some y => compareFloat x y
  | _, _ => compare a b

/-- A rule for two arguments. -/
def binary (holds : String → String → Bool) : Rule
  | [a, b] => holds a b
  | _ => false

/-- Whether the second number is the successor of the first. -/
def isSuccessor (a b : String) : Bool :=
  match Decimal.readInt? a.toList, Decimal.readInt? b.toList with
  | some x, some y => x + 1 == y
  | _, _ => false

/-- The rules that every theory can use. -/
def standardRules : List (String × Rule) := [
  ("equals", binary fun a b => a == b),
  ("notEquals", binary fun a b => a != b),
  ("lessThan", binary fun a b => compareNames a b == .lt),
  ("lessThanEq", binary fun a b => compareNames a b != .gt),
  ("greaterThan", binary fun a b => compareNames a b == .gt),
  ("greaterThanEq", binary fun a b => compareNames a b != .lt),
  ("succ", binary isSuccessor)]

/-- No computed predicates. -/
def empty : Computed :=
  ⟨∅⟩

/-- Gives a predicate its rule, in place of an earlier one. -/
def register (c : Computed) (symbol : String) (arity : Nat) (rule : Rule) : Computed :=
  ⟨c.rules.insert ⟨symbol, arity⟩ (some rule)⟩

/-- Declares a predicate as computed; a rule that it has already is kept. -/
def declare (c : Computed) (signature : Signature) : Computed :=
  ⟨c.rules.insertIfNew signature none⟩

/-- The standard rules. -/
def standard : Computed :=
  standardRules.foldl (fun c (symbol, rule) => c.register symbol 2 rule) empty

instance : Inhabited Computed := ⟨standard⟩

/-- Whether a predicate is computed. -/
def contains (c : Computed) (signature : Signature) : Bool :=
  c.rules.contains signature

/-- The rule of a computed predicate: `some none` if it has none. -/
def rule? (c : Computed) (signature : Signature) : Option (Option Rule) :=
  c.rules[signature]?

/-- The computed predicates in order. -/
def signatures (c : Computed) : List Signature :=
  c.rules.keys.mergeSort fun a b => (compare a b).isLE

/-- Lists the computed predicates for people to read, ordered by their texts. -/
def listing (c : Computed) : String :=
  let names := (c.rules.keys.map Signature.text).mergeSort fun a b => (compare a b).isLE
  "DynamicRegistry \x7b predicates: [" ++ Text.join ", " (names.map Text.quoted) ++ "] \x7d"

end Computed

end MarkovLogic
