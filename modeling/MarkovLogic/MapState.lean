/-
MarkovLogic/MapState.lean

The result of inference: the best assignment that was found for a network, a
most probable state given the evidence if it is optimal.
-/
import MarkovLogic.Network

namespace MarkovLogic

/-- The work that inference did. -/
structure Effort (α : Type) where
  flips : Nat
  tries : Nat
  /-- The number of atoms that the relaxation left undecided. -/
  nonIntegral : Nat
  /-- The optimum of the relaxation, if one was solved. -/
  objective : Option α
deriving Repr, DecidableEq

/-- No work yet. -/
def Effort.zero {α : Type} : Effort α := ⟨0, 0, 0, none⟩

/-- An assignment of the atoms of a network, with its cost. -/
structure MapState (α : Type) where
  assignment : Array Bool
  cost : α
  hardViolations : Nat
  effort : Effort α
deriving Repr, DecidableEq

/-- The value of a ground atom, if it is in the network. -/
def MapState.value? {α : Type} [Scalar α] (m : MapState α) (net : Network α) (id : Nat) :
    Option Bool :=
  (net.find? id).map fun a => m.assignment.getD a false

end MarkovLogic
