/-
MarkovLogic/Clique.lean

Ground clauses and where they come from.

Grounding a clause produces entries: a set of signed atom numbers, a weight,
the clause it comes from and how often, counted negative when the literals
were negated on the way.  Entries over the same set of literals are one ground
clause, a clique, whose weight is what its entries add up to.

A set of literals is kept as a strictly increasing list.
-/
import MarkovLogic.Scalar

namespace MarkovLogic

/-! ### Sets of literals -/

/-- Inserts a literal into an increasing list, unless it is there. -/
def insertLiteral (l : Int) : List Int → List Int
  | [] => [l]
  | m :: ms => if l < m then l :: m :: ms else if l = m then m :: ms else m :: insertLiteral l ms

/-- The literals in increasing order, each once. -/
def literalSet (ls : List Int) : List Int :=
  ls.foldr insertLiteral []

/-- The literal of an atom number: a signed number of 32 bits. -/
def literalOf (id : Nat) : Int :=
  Int.bmod id (Nat.pow 2 32)

/-- The opposite literal, again as a number of 32 bits. -/
def oppositeLiteral (l : Int) : Int :=
  Int.bmod (-l) (Nat.pow 2 32)

/-! ### Entries and cliques -/

/-- One contribution to a ground clause. -/
structure Entry (α : Type) where
  /-- The literals in increasing order, each once. -/
  literals : List Int
  /-- The weight of one occurrence. -/
  weight : α
  /-- The index of the clause it comes from. -/
  clause : Nat
  /-- How often it occurs; negative when the literals are negated. -/
  frequency : Int
deriving Repr, DecidableEq

/-- An entry over literals in any order. -/
def Entry.make {α : Type} (literals : List Int) (weight : α) (clause : Nat) (frequency : Int) :
    Entry α :=
  ⟨literalSet literals, weight, clause, frequency⟩

/-- What an entry adds to the weight of its ground clause. -/
def Entry.contribution {α : Type} [Scalar α] (e : Entry α) : α :=
  Scalar.ofInt e.frequency * e.weight

/-- A ground clause with its accumulated weight. -/
structure Clique (α : Type) where
  literals : List Int
  weight : α
  /-- For each clause it comes from, by index, how often. -/
  dependencies : List (Nat × Int)
deriving Repr, DecidableEq

/-- Whether the weight is infinite. -/
def Clique.isHard {α : Type} [Scalar α] (c : Clique α) : Bool :=
  Scalar.isInfinite c.weight

end MarkovLogic
