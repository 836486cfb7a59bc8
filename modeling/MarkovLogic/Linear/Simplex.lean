/-
MarkovLogic/Linear/Simplex.lean

The bounded simplex method in two phases.

Phase one drives the artificial columns to zero; if that cannot be done, the
program has no feasible point.  Phase two maximizes the objective of the
program, with the artificial columns kept out.

In each step a column with a negative reduced cost enters: the most negative
one, or after a run of steps without progress the first one, which keeps the
method from going round in circles.  The entering column grows until a basic
column falls to zero, a basic column reaches its upper bound, or it reaches its
own upper bound; in the last case it is complemented and no pivot is made.

The number of pivots and bound flips together is limited.  The pivots that take
artificial columns out of the basis at the end of phase one are made whatever is
left of that number; phase two then goes on with the rest, if there is any.
-/
import MarkovLogic.Linear.Tableau

namespace MarkovLogic.Linear

namespace Tableau

variable {α : Type} [Scalar α]

/-! ### One step -/

/-- Whether a column may enter and would raise the objective. -/
def canEnter (tol : Tolerance α) (allowArtificial : Bool) (t : Tableau α) (j : Nat) : Bool :=
  (allowArtificial || t.kindOf j != .artificial) && decide (t.reducedCost j < -tol.pivot)

/-- The column with the most negative reduced cost; of equal ones the first. -/
def steepest? (t : Tableau α) (js : List Nat) : Option Nat :=
  js.foldl (fun best j => match best with
    | none => some j
    | some b => if t.reducedCost j < t.reducedCost b then some j else some b) none

/-- The entering column: the first that may enter if `cautious`, otherwise the
steepest. -/
def entering? (tol : Tolerance α) (allowArtificial cautious : Bool) (t : Tableau α) :
    Option Nat :=
  let js := (List.range t.columns.size).filter (t.canEnter tol allowArtificial)
  if cautious then js.head? else t.steepest? js

/-- A basic column that leaves: its row, how far the entering column grows
until then, and the upper bound if it leaves there. -/
structure Leaving (α : Type) where
  row : Nat
  ratio : α
  atUpper : Option α

/-- How far a row lets the column `c` grow. -/
def limit? (tol : Tolerance α) (t : Tableau α) (c : Nat) (i : Nat) (row : TableauRow α) :
    Option (Leaving α) :=
  let a := row.entries.coeff c
  if tol.pivot < a then some ⟨i, Scalar.atLeastZero (row.value / a), none⟩
  else if a < -tol.pivot then
    match t.upperOf row.basic with
    | none => none
    | some u => some ⟨i, Scalar.atLeastZero ((u - row.value) / -a), some u⟩
  else none

/-- Whether a limit takes the place of the tightest one so far: when it is
tighter, or as tight and its basic column comes first. -/
def tighter (tol : Tolerance α) (t : Tableau α) (new best : Leaving α) : Bool :=
  let basicOf (i : Nat) : Nat := (t.rows[i]?.map TableauRow.basic).getD 0
  decide (new.ratio < best.ratio - tol.pivot) ||
    (decide (new.ratio ≤ best.ratio + tol.pivot) && basicOf new.row < basicOf best.row)

/-- The basic column that leaves when column `c` enters. -/
def leaving? (tol : Tolerance α) (t : Tableau α) (c : Nat) : Option (Leaving α) :=
  t.rows.toList.zipIdx.foldl (fun best (row, i) =>
    match t.limit? tol c i row with
    | none => best
    | some new =>
      match best with
      | none => some new
      | some b => if t.tighter tol new b then some new else some b) none

/-- Whether a growth stays below the own bound of the entering column. -/
def staysBelow (tol : Tolerance α) (ratio : α) (own : Option α) : Bool :=
  match own with
  | none => Scalar.isFinite ratio
  | some u => decide (ratio < u - tol.pivot)

/-- Lets column `c` enter: the tableau after it and how far the column grew,
or `none` if nothing limits it. -/
def enterColumn (tol : Tolerance α) (t : Tableau α) (c : Nat) : Option (Tableau α × α) :=
  let own := t.upperOf c
  match (t.leaving? tol c).filter fun l => staysBelow tol l.ratio own with
  | some l =>
    let outgoing := (t.rows[l.row]?.map TableauRow.basic).getD 0
    let t := t.pivot tol l.row c
    match l.atUpper with
    | none => some (t, l.ratio)
    | some u => some (t.complement outgoing u, l.ratio)
  | none =>
    match own with
    | none => none
    | some u =>
      let t := t.complement c u
      some ({ t with steps := t.steps + 1 }, u)

/-! ### Phases -/

/-- Steps until no column can enter, at most `budget` of them; `stalled`
counts the steps without progress just before. -/
def iterate (tol : Tolerance α) (allowArtificial : Bool) :
    (budget stalled : Nat) → Tableau α → Status × Tableau α
  | 0, _, t => (.iterationLimit, t)
  | budget + 1, stalled, t =>
    match t.entering? tol allowArtificial (decide (t.columns.size < stalled)) with
    | none => (.optimal, t)
    | some c =>
      match t.enterColumn tol c with
      | none => (.unbounded, t)
      | some (t, step) =>
        iterate tol allowArtificial budget (if step ≤ tol.pivot then stalled + 1 else 0) t

/-- Pivots an artificial column out of the basis of a row, if the row has
another column to take its place. -/
def expelArtificial (tol : Tolerance α) (t : Tableau α) (i : Nat) : Tableau α :=
  match t.rows[i]? with
  | none => t
  | some row =>
    if t.kindOf row.basic != .artificial then t
    else
      match row.entries.find? fun (j, a) =>
        t.kindOf j != .artificial && decide (tol.pivot < Scalar.abs a) with
      | none => t
      | some (j, _) => t.pivot tol i j

/-- Looks for a feasible point. -/
def phaseOne (tol : Tolerance α) (maxSteps : Nat) (t : Tableau α) : Status × Tableau α :=
  if !t.columns.any fun c => c.kind == .artificial then (.optimal, t)
  else
    let cost := t.columns.map fun c => if c.kind = .artificial then -1 else 0
    let t := t.price cost
    match t.iterate tol true (maxSteps - t.steps) 0 with
    | (.optimal, t) =>
      if t.objective < -tol.feasibility then (.infeasible, t)
      else (.optimal, (List.range t.rows.size).foldl (expelArtificial tol) t)
    | other => other

/-- Looks for the best feasible point. -/
def phaseTwo (tol : Tolerance α) (p : Program α) (maxSteps : Nat) (t : Tableau α) :
    Status × Tableau α :=
  let t := t.price (p.vars.map Variable.objective)
  t.iterate tol false (maxSteps - t.steps) 0

end Tableau

/-- The solution that a tableau stands for. -/
def solutionOf {α : Type} [Scalar α] (p : Program α) (status : Status) (t : Tableau α) :
    Solution α :=
  let values := t.values p
  ⟨status, values, p.evaluate values⟩

/-- Solves a program with at most so many steps, at least one. -/
def simplex {α : Type} [Scalar α] (tol : Tolerance α) (maxSteps : Nat) : Solver α := fun p => do
  let t ← Tableau.build p
  let budget := max maxSteps 1
  match t.phaseOne tol budget with
  | (.optimal, t) =>
    let (status, t) := t.phaseTwo tol p budget
    return solutionOf p status t
  | (status, t) => return solutionOf p status t

end MarkovLogic.Linear
