/-
MarkovLogic/Relaxation/Rounding.lean

Inference by relaxation and rounding.

The relaxation of the network is solved.  Atoms whose value is close to one or
to zero are fixed to that value; what counts as close is a tolerance.  The
others are decided in one of two ways.  Rounding up goes through them in the
reverse order of their variables and sets each to true if that lowers the
cost.  Local search starts with the nearer of zero and one and searches over
these atoms only.

The solver is a parameter.
-/
import MarkovLogic.LocalSearch
import MarkovLogic.Relaxation

namespace MarkovLogic

/-- How undecided atoms are decided. -/
inductive Rounding where
  | roundUp
  | localSearch
deriving Repr, DecidableEq, Inhabited

/-- Why relaxation gives no result. -/
inductive RelaxationError (α : Type) where
  /-- The solver refuses the program. -/
  | solver (error : Linear.SolverError α)
  /-- The solver returns the wrong number of values. -/
  | valueCount (values vars : Nat)
  /-- The solver finds no optimum. -/
  | nonOptimal (status : Linear.Status)
deriving Repr, DecidableEq

namespace Relaxation

/-- How to relax and round. -/
structure Settings (α : Type) where
  rounding : Rounding
  /-- Values within this of one and zero are taken for one and zero. -/
  tolerance : α
  /-- Whether the loss against the annotation is added to the objective. -/
  lossAugmented : Bool
  /-- The largest number of steps of the solver. -/
  maxPivots : Nat
deriving Repr, BEq, DecidableEq

variable {α : Type} [Scalar α]

/-- The undecided atoms with their values, in the order of their variables,
and the state with all other atoms fixed. -/
structure Thresholded (α : Type) where
  state : State α
  fractional : List (Nat × α)

/-- Fixes an atom if its value is close to one or to zero. -/
def threshold (net : Network α) (tolerance : α) (t : Thresholded α) (entry : Nat × α) :
    Thresholded α :=
  let (atom, v) := entry
  if 1 - tolerance < v then { t with state := t.state.fix net atom true }
  else if v < tolerance then { t with state := t.state.fix net atom false }
  else { t with fractional := t.fractional ++ [(atom, v)] }

/-- The atoms with variables and the values of these. -/
def atomValues (r : Relaxation α) (values : List α) : List (Nat × α) :=
  let values := values.toArray
  r.discovery.toList.filterMap fun atom =>
    (r.atomVars.getD atom none).map fun v => (atom, values.getD v 0)

/-- Fixes the atoms that the relaxation decides. -/
def thresholds (net : Network α) (tolerance : α) (entries : List (Nat × α)) : Thresholded α :=
  entries.foldl (threshold net tolerance) ⟨State.start net, []⟩

/-- Decides atoms from the last to the first, each to true if that lowers the
cost. -/
def roundUp (net : Network α) (t : Thresholded α) : State α :=
  t.fractional.reverse.foldl (fun s (atom, _) => s.fix net atom (decide (s.delta atom < 0))) t.state

/-- Sets atoms to the nearer of zero and one. -/
def setNearest (net : Network α) (t : Thresholded α) : State α :=
  t.fractional.foldl (fun s (atom, v) => if 0.5 ≤ v then s.flip net atom else s) t.state

/-- Decides the atoms that the relaxation leaves undecided. -/
def round (ρ : Type) [RandomSource ρ] (net : Network α) (settings : Settings α)
    (searching : LocalSearch.Settings α) (entries : List (Nat × α)) : MapState α :=
  let t := thresholds net settings.tolerance entries
  let result (s : State α) (flips tries : Nat) : MapState α :=
    { assignment := s.values
      cost := s.cost net
      hardViolations := s.hardViolations
      effort := { Effort.zero with flips, tries, nonIntegral := t.fractional.length } }
  match settings.rounding with
  | .roundUp => result (roundUp net t) 0 0
  | .localSearch =>
    let s := setNearest net t
    if t.fractional.isEmpty then result s 0 0
    else
      let source : ρ := RandomSource.ofSeed (UInt64.ofNat searching.seed)
      let p := LocalSearch.search net searching s source
      result p.state p.flips p.tries

/-- The relaxation that the settings ask for; `gold` are the annotated
values. -/
def relax (net : Network α) (settings : Settings α) (gold : Option (Nat → Bool)) : Relaxation α :=
  ofNetwork net (if settings.lossAugmented then gold else none)

/-- Infers by relaxation and rounding; `gold` are the annotated values. -/
def infer (ρ : Type) [RandomSource ρ] (solver : Linear.Solver α) (net : Network α)
    (settings : Settings α) (searching : LocalSearch.Settings α) (gold : Option (Nat → Bool)) :
    Except (RelaxationError α) (MapState α) := do
  let r := relax net settings gold
  let solution ← (solver r.program).mapError .solver
  if solution.status ≠ .optimal then throw (.nonOptimal solution.status)
  let count := r.program.vars.size
  if solution.values.length ≠ count then throw (.valueCount solution.values.length count)
  let result := round ρ net settings searching (r.atomValues solution.values)
  return { result with effort.objective := some solution.objective }

end Relaxation

end MarkovLogic
