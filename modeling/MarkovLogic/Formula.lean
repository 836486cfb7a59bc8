/-
MarkovLogic/Formula.lean

Weighted clauses of first-order logic.

A theory is a list of clauses in conjunctive normal form: each is a weight and
a disjunction of literals, each literal an atom or its negation, each atom a
predicate symbol applied to variables and constants.  A predicate is known by
its symbol and its number of arguments together, its signature, so one symbol
may name several predicates.
-/
import MarkovLogic.Scalar
import Std.Data.TreeMap
import Std.Data.TreeSet

namespace MarkovLogic

/-! ### Predicates -/

/-- A predicate: its symbol and its number of arguments. -/
structure Signature where
  symbol : String
  arity : Nat
deriving Repr, DecidableEq, Hashable, Inhabited

/-- Signatures are ordered by symbol, then by arity. -/
instance : Ord Signature where
  compare := compareLex (compareOn Signature.symbol) (compareOn Signature.arity)

namespace Signature

instance : Std.TransOrd Signature :=
  inferInstanceAs
    (Std.TransCmp (compareLex (compareOn Signature.symbol) (compareOn Signature.arity)))

instance : Std.LawfulEqOrd Signature where
  eq_of_compare {a b} h := by
    have h' : (compare a.symbol b.symbol).then (compare a.arity b.arity) = .eq := h
    obtain ⟨hs, ha⟩ := Ordering.then_eq_eq.1 h'
    cases a
    cases b
    simp_all [Std.LawfulEqCmp.compare_eq_iff_eq]

end Signature

/-! ### Atoms, literals, clauses -/

/-- An argument of an atom. -/
inductive Term where
  | var (name : String)
  | constant (name : String)
deriving Repr, DecidableEq, Inhabited

namespace Term

/-- The name, whatever it names. -/
def name : Term → String
  | var n => n
  | constant n => n

/-- The name of a variable. -/
def varName? : Term → Option String
  | var n => some n
  | constant _ => none

/-- Whether the term is a variable. -/
def isVar : Term → Bool
  | var _ => true
  | constant _ => false

end Term

/-- A predicate applied to terms. -/
structure Atom where
  symbol : String
  terms : List Term
deriving Repr, DecidableEq, Inhabited

namespace Atom

/-- The predicate of the atom. -/
def signature (a : Atom) : Signature :=
  ⟨a.symbol, a.terms.length⟩

/-- The variables, each once, in the order of their first appearance. -/
def vars (a : Atom) : List String :=
  (a.terms.filterMap Term.varName?).eraseDups

/-- Whether no variable occurs. -/
def isGround (a : Atom) : Bool :=
  a.terms.all fun t => !t.isVar

end Atom

/-- An atom or its negation. -/
structure Literal where
  positive : Bool
  atom : Atom
deriving Repr, DecidableEq, Inhabited

/-- The same atom with the other sign. -/
def Literal.negate (l : Literal) : Literal :=
  { l with positive := !l.positive }

/-- A weighted disjunction of literals.  A weight of positive infinity demands
that the disjunction holds, one of negative infinity that it fails. -/
structure Clause (α : Type) where
  weight : α
  literals : List Literal
deriving Repr, DecidableEq, Inhabited

namespace Clause

variable {α : Type}

/-- Whether the weight is infinite. -/
def isHard [Scalar α] (c : Clause α) : Bool :=
  Scalar.isInfinite c.weight

/-- Whether the clause has exactly one literal. -/
def isUnit (c : Clause α) : Bool :=
  c.literals.length == 1

/-- The variables, each once, in the order of their first appearance. -/
def vars (c : Clause α) : List String :=
  (c.literals.flatMap fun l => l.atom.vars).eraseDups

/-- The predicates that occur. -/
def signatures (c : Clause α) : Std.TreeSet Signature compare :=
  Std.TreeSet.ofList (c.literals.map fun l => l.atom.signature) compare

end Clause

end MarkovLogic
