/-
MarkovLogic/Formula/Similarity.lean

Similarity: equality up to the names of variables and the order of literals.

Two atoms are similar when one renaming of variables, one to one, turns the
first into the second.  Two clauses are similar when their literals can be
paired off so that one shared renaming turns each literal of the first into
its partner, with the same sign.  The search pairs the literals of the first
clause one after the other and goes back when a choice leads nowhere.
-/
import MarkovLogic.Formula

namespace MarkovLogic

/-- A one-to-one renaming of variables, as the list of its pairs. -/
abbrev Renaming := List (String × String)

namespace Renaming

/-- Adds the pair `a ↦ b`, unless `a` is renamed to something else or `b` is
the name of something else already. -/
def bind? (r : Renaming) (a b : String) : Option Renaming :=
  match r.find? fun p => p.1 == a || p.2 == b with
  | none => some ((a, b) :: r)
  | some p => if p = (a, b) then some r else none

/-- Extends a renaming so that it turns one term into another. -/
def matchTerm? (r : Renaming) : Term → Term → Option Renaming
  | .var a, .var b => r.bind? a b
  | .constant a, .constant b => if a = b then some r else none
  | _, _ => none

/-- Extends a renaming so that it turns one list of terms into another. -/
def matchTerms? (r : Renaming) : List Term → List Term → Option Renaming
  | [], [] => some r
  | a :: as, b :: bs => (r.matchTerm? a b).bind fun r' => r'.matchTerms? as bs
  | _, _ => none

/-- Extends a renaming so that it turns one atom into another. -/
def matchAtom? (r : Renaming) (a b : Atom) : Option Renaming :=
  if a.symbol = b.symbol then r.matchTerms? a.terms b.terms else none

/-- Extends a renaming so that it turns one literal into another. -/
def matchLiteral? (r : Renaming) (a b : Literal) : Option Renaming :=
  if a.positive = b.positive then r.matchAtom? a.atom b.atom else none

end Renaming

/-- The ways to take one element out of a list: the element and the others. -/
def picks {β : Type} : List β → List (β × List β)
  | [] => []
  | x :: xs => (x, xs) :: (picks xs).map fun (y, ys) => (y, x :: ys)

/-- Whether the literals can be paired off under an extension of `r`. -/
def pairsOff (r : Renaming) : List Literal → List Literal → Bool
  | [], _ => true
  | a :: as, bs => (picks bs).any fun (b, rest) =>
      match r.matchLiteral? a b with
      | none => false
      | some r' => pairsOff r' as rest

/-- Whether a renaming of variables turns one atom into the other. -/
def Atom.isSimilar (a b : Atom) : Bool :=
  (Renaming.matchAtom? [] a b).isSome

/-- Whether a renaming of variables and a reordering of literals turns one
clause into the other; weights do not count. -/
def Clause.isSimilar {α : Type} (a b : Clause α) : Bool :=
  a.literals.length == b.literals.length && pairsOff [] a.literals b.literals

end MarkovLogic
