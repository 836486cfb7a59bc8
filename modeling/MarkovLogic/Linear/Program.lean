/-
MarkovLogic/Linear/Program.lean

Linear programs over bounded variables.

A program asks for the largest value of a linear objective under linear
constraints, the rows, where each variable lies between zero and an upper
bound.  A variable without a bound has `none` for it.
-/
import MarkovLogic.Scalar

namespace MarkovLogic.Linear

/-- How a row compares its sides. -/
inductive Relation where
  | atMost
  | atLeast
  | equal
deriving Repr, DecidableEq, Inhabited

/-- Writes a relation. -/
def Relation.text : Relation → String
  | .atMost => "<="
  | .atLeast => ">="
  | .equal => "="

/-- A linear constraint: a sum of multiples of variables compared with a
number.  A variable may occur in several terms. -/
structure Row (α : Type) where
  terms : List (Nat × α)
  relation : Relation
  rhs : α
deriving Repr, DecidableEq

/-- A variable with its bound and its coefficient in the objective. -/
structure Variable (α : Type) where
  name : String
  upper : Option α
  objective : α
deriving Repr, DecidableEq

/-- A linear program. -/
structure Program (α : Type) where
  vars : Array (Variable α)
  /-- A constant added to the objective. -/
  offset : α
  rows : Array (Row α)
deriving Repr, DecidableEq

namespace Program

variable {α : Type} [Scalar α]

/-- No variables and no rows. -/
def empty : Program α :=
  ⟨#[], 0, #[]⟩

/-- Adds a variable at the end. -/
def addVariable (p : Program α) (name : String) (upper : Option α) : Program α :=
  { p with vars := p.vars.push ⟨name, upper, 0⟩ }

/-- Adds a multiple of a variable to the objective. -/
def addObjective (p : Program α) (v : Nat) (c : α) : Program α :=
  { p with vars := p.vars.modify v fun x => { x with objective := x.objective + c } }

/-- Adds a constant to the objective. -/
def addOffset (p : Program α) (c : α) : Program α :=
  { p with offset := p.offset + c }

/-- Adds a row at the end. -/
def addRow (p : Program α) (row : Row α) : Program α :=
  { p with rows := p.rows.push row }

/-- The objective at a point; coordinates that are not given are left out. -/
def evaluate (p : Program α) (values : List α) : α :=
  p.offset + Scalar.sum (p.vars.toList.zipWith (fun v x => v.objective * x) values)

/-- Whether a coordinate respects its bounds up to a tolerance. -/
def withinBounds (tolerance : α) (x : α) (upper : Option α) : Bool :=
  decide (-tolerance ≤ x) && match upper with
    | none => true
    | some u => decide (x ≤ u + tolerance)

/-- The left side of a row at a point. -/
def Row.value (row : Row α) (values : Array α) : α :=
  Scalar.sum (row.terms.map fun (v, c) => c * values.getD v 0)

/-- Whether a point satisfies a row up to a tolerance. -/
def Row.isSatisfied (tolerance : α) (row : Row α) (values : Array α) : Bool :=
  let lhs := Row.value row values
  match row.relation with
  | .atMost => decide (lhs ≤ row.rhs + tolerance)
  | .atLeast => decide (row.rhs - tolerance ≤ lhs)
  | .equal => decide (Scalar.abs (lhs - row.rhs) ≤ tolerance)

/-- Whether a point satisfies all bounds and rows up to a tolerance. -/
def isFeasible (p : Program α) (values : List α) (tolerance : α) : Bool :=
  (values.zip p.vars.toList).all (fun (x, v) => withinBounds tolerance x v.upper) &&
    p.rows.all fun row => Row.isSatisfied tolerance row values.toArray

end Program

/-- How solving a program ended. -/
inductive Status where
  | optimal
  | infeasible
  | unbounded
  | iterationLimit
deriving Repr, DecidableEq, Inhabited

/-- Writes a status. -/
def Status.text : Status → String
  | .optimal => "optimal"
  | .infeasible => "infeasible"
  | .unbounded => "unbounded"
  | .iterationLimit => "iteration limit"

/-- The outcome of solving a program. -/
structure Solution (α : Type) where
  status : Status
  /-- One value for each variable, of use when the status is optimal. -/
  values : List α
  /-- The objective at these values. -/
  objective : α
deriving Repr, DecidableEq

/-- Why a program cannot be solved at all. -/
inductive SolverError (α : Type) where
  /-- The upper bound of a variable is negative or not a number. -/
  | invalidUpper (name : String) (bound : α)
  /-- A row mentions a variable that is not there. -/
  | unknownVariable (v : Nat)
  /-- A number in a row is not finite. -/
  | nonFiniteRow
deriving Repr, DecidableEq

/-- A method for solving linear programs. -/
abbrev Solver (α : Type) := Program α → Except (SolverError α) (Solution α)

end MarkovLogic.Linear
