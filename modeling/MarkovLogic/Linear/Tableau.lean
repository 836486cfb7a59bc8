/-
MarkovLogic/Linear/Tableau.lean

Simplex tableaux over bounded variables.

Each row of a tableau expresses one basic column by the others.  Columns that
are not basic stand at a bound; one that stands at its upper bound is stored
complemented, as the distance from that bound, so that every column that is
not basic reads as zero.  Bounds never become rows.

To build a tableau each row of the program is brought to a non-negative right
side, preferably as an upper bound on its left side, because then its slack
can be basic.  A row that has to reach a positive number gets a surplus column
and an artificial one, an equation gets an artificial one, and the artificial
columns are basic at first.

The operations are: pricing, which sets the reduced costs for an objective;
pivoting, which exchanges a basic column for another; and complementing a
column.
-/
import MarkovLogic.Linear.Program
import MarkovLogic.Linear.SparseRow

namespace MarkovLogic.Linear

/-- What a column stands for. -/
inductive ColumnKind where
  | structural
  | slack
  | artificial
deriving Repr, DecidableEq, Inhabited

/-- A column of a tableau. -/
structure Column (α : Type) where
  kind : ColumnKind
  upper : Option α
  /-- Whether the column stands for the distance from its upper bound. -/
  flipped : Bool
deriving Repr, DecidableEq

/-- A row of a tableau. -/
structure TableauRow (α : Type) where
  entries : SparseRow α
  /-- The value of the basic column. -/
  value : α
  /-- The basic column. -/
  basic : Nat
deriving Repr, DecidableEq

/-- A tableau. -/
structure Tableau (α : Type) where
  rows : Array (TableauRow α)
  columns : Array (Column α)
  /-- The reduced costs of the columns. -/
  reduced : Array α
  /-- The value of the objective. -/
  objective : α
  /-- The number of pivots and bound flips so far. -/
  steps : Nat
deriving Repr, DecidableEq

/-- Up to which size numbers count as zero. -/
structure Tolerance (α : Type) where
  /-- In reduced costs, pivots and ratios. -/
  pivot : α
  /-- In the sum of the artificial columns. -/
  feasibility : α
  /-- In entries after an elimination. -/
  drop : α
deriving Repr, DecidableEq

/-- The tolerances that make up for rounding. -/
def Tolerance.standard {α : Type} [Scalar α] : Tolerance α :=
  ⟨1e-9, 1e-7, 1e-12⟩

namespace Tableau

variable {α : Type} [Scalar α]

/-! ### Building -/

/-- A row with a non-negative right side. -/
structure NormalRow (α : Type) where
  entries : SparseRow α
  relation : Relation
  value : α

/-- Turns a row around where its right side is negative, and a lower bound
also where it is zero. -/
def normalize (entries : SparseRow α) (relation : Relation) (rhs : α) : NormalRow α :=
  let turned (r : Relation) : NormalRow α := ⟨entries.map fun (j, a) => (j, -a), r, -rhs⟩
  match relation with
  | .atLeast => if rhs ≤ 0 then turned .atMost else ⟨entries, .atLeast, rhs⟩
  | .atMost => if rhs < 0 then turned .atLeast else ⟨entries, .atMost, rhs⟩
  | .equal => if rhs < 0 then turned .equal else ⟨entries, .equal, rhs⟩

/-- Checks the upper bound of a variable. -/
def checkUpper (v : Variable α) : Except (SolverError α) Unit :=
  match v.upper with
  | none => .ok ()
  | some u => if Scalar.isNaN u ∨ u < 0 then .error (.invalidUpper v.name u) else .ok ()

/-- Checks a row and brings it to its normal form. -/
def checkRow (n : Nat) (row : Row α) : Except (SolverError α) (NormalRow α) := do
  match row.terms.find? fun t => n ≤ t.1 with
  | some t => throw (.unknownVariable t.1)
  | none => pure ()
  if !Scalar.isFinite row.rhs || row.terms.any fun t => !Scalar.isFinite t.2 then
    throw .nonFiniteRow
  return normalize (SparseRow.ofTerms row.terms) row.relation row.rhs

/-- Gives the normal rows their slack, surplus and artificial columns;
`slack` and `artificial` are the next columns of these kinds. -/
def placeRows (slack artificial : Nat) : List (NormalRow α) → List (TableauRow α)
  | [] => []
  | r :: rs =>
    match r.relation with
    | .atMost =>
      ⟨r.entries ++ [(slack, 1)], r.value, slack⟩ :: placeRows (slack + 1) artificial rs
    | .atLeast =>
      ⟨r.entries ++ [(slack, -1), (artificial, 1)], r.value, artificial⟩ ::
        placeRows (slack + 1) (artificial + 1) rs
    | .equal =>
      ⟨r.entries ++ [(artificial, 1)], r.value, artificial⟩ ::
        placeRows slack (artificial + 1) rs

/-- The first tableau of a program. -/
def build (p : Program α) : Except (SolverError α) (Tableau α) := do
  p.vars.toList.forM checkUpper
  let n := p.vars.size
  let normal ← p.rows.toList.mapM (checkRow n)
  let slacks := normal.countP fun r => r.relation != .equal
  let artificials := normal.countP fun r => r.relation != .atMost
  let columns := p.vars.map (fun v => ⟨.structural, v.upper, false⟩) ++
    Array.replicate slacks ⟨.slack, none, false⟩ ++
    Array.replicate artificials ⟨.artificial, none, false⟩
  return {
    rows := (placeRows n (n + slacks) normal).toArray
    columns
    reduced := columns.map fun _ => 0
    objective := 0
    steps := 0 }

/-! ### Operations -/

/-- The kind of a column. -/
def kindOf (t : Tableau α) (j : Nat) : ColumnKind :=
  match t.columns[j]? with
  | some c => c.kind
  | none => .artificial

/-- The upper bound of a column. -/
def upperOf (t : Tableau α) (j : Nat) : Option α :=
  t.columns[j]?.bind Column.upper

/-- The reduced cost of a column. -/
def reducedCost (t : Tableau α) (j : Nat) : α :=
  t.reduced.getD j 0

/-- Adds multiples of the entries of a row to the reduced costs. -/
def addToReduced (reduced : Array α) (row : SparseRow α) (change : α → α → α) : Array α :=
  row.foldl (fun z (j, a) => z.modify j fun x => change x a) reduced

/-- Sets the reduced costs for the objective with the given coefficients. -/
def price (t : Tableau α) (cost : Array α) : Tableau α :=
  let effective := t.columns.mapIdx fun j c =>
    if c.flipped then -(cost.getD j 0) else cost.getD j 0
  let atBounds := Scalar.sum <| t.columns.toList.zipIdx.filterMap fun (c, j) =>
    if c.flipped ∧ cost.getD j 0 != 0 then c.upper.map (cost.getD j 0 * ·) else none
  let start : Tableau α := { t with reduced := effective.map fun c => -c, objective := atBounds }
  t.rows.foldl (fun t row =>
    let cb := effective.getD row.basic 0
    if cb == 0 then t
    else { t with
      reduced := addToReduced t.reduced row.entries fun z a => z + cb * a
      objective := t.objective + cb * row.value }) start

/-- Makes column `c` basic in row `r`. -/
def pivot (tol : Tolerance α) (t : Tableau α) (r c : Nat) : Tableau α :=
  match t.rows[r]? with
  | none => t
  | some row =>
    let inv := 1 / row.entries.coeff c
    let entries := row.entries.scale inv
    let value := row.value * inv
    let others := t.rows.mapIdx fun i other =>
      if i = r then ⟨entries, value, c⟩
      else
        let factor := other.entries.coeff c
        if factor == 0 then other
        else { other with
          entries := SparseRow.eliminate tol.drop other.entries factor entries c
          value := other.value - factor * value }
    let factor := t.reducedCost c
    let t := { t with rows := others, steps := t.steps + 1 }
    if factor == 0 then t
    else { t with
      reduced := (addToReduced t.reduced entries fun z a => z - factor * a).setIfInBounds c 0
      objective := t.objective - factor * value }

/-- Replaces column `c` by its distance from the upper bound `u`. -/
def complement (t : Tableau α) (c : Nat) (u : α) : Tableau α :=
  let z := t.reducedCost c
  { t with
    rows := t.rows.map fun row =>
      match row.entries.find? fun e => e.1 == c with
      | none => row
      | some e =>
        { row with entries := row.entries.negateAt c, value := row.value - e.2 * u }
    reduced := t.reduced.setIfInBounds c (-z)
    objective := t.objective - z * u
    columns := t.columns.modify c fun col => { col with flipped := !col.flipped } }

/-- A number cut down to the bounds of a column. -/
def clamp (x : α) (upper : Option α) : α :=
  if x < 0 then 0
  else
    match upper with
    | none => x
    | some u => if u < x then u else x

/-- The values of the variables that a tableau stands for. -/
def values (p : Program α) (t : Tableau α) : List α :=
  let n := p.vars.size
  let stored := t.rows.foldl (fun xs row => xs.setIfInBounds row.basic row.value)
    (Array.replicate n 0)
  (t.columns.toList.take n).zipWith (fun c v =>
    let x := match c.upper with
      | some u => if c.flipped then u - v else v
      | none => v
    clamp x c.upper) stored.toList

end Tableau

end MarkovLogic.Linear
