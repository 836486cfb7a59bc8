/-
MarkovLogic/Linear/SparseRow.lean

Sparse rows: the entries of a row that are not zero, by increasing column.

Subtracting a multiple of one row from another merges the two lists.  Entries
that come out below a threshold are dropped, and the column that is cleared is
dropped whatever comes out.
-/
import MarkovLogic.Scalar

namespace MarkovLogic.Linear

/-- Columns with their coefficients, by increasing column. -/
abbrev SparseRow (α : Type) := List (Nat × α)

namespace SparseRow

variable {α : Type} [Scalar α]

/-- The coefficient of a column; zero if there is no entry. -/
def coeff (row : SparseRow α) (column : Nat) : α :=
  match row.find? fun e => e.1 == column with
  | some e => e.2
  | none => 0

/-- Multiplies all coefficients. -/
def scale (c : α) (row : SparseRow α) : SparseRow α :=
  row.map fun (j, a) => (j, a * c)

/-- Changes the sign of the coefficient of one column. -/
def negateAt (column : Nat) (row : SparseRow α) : SparseRow α :=
  row.map fun (j, a) => if j = column then (j, -a) else (j, a)

/-- Whether an entry survives the elimination of a column. -/
def survives (threshold : α) (cleared : Nat) (e : Nat × α) : Bool :=
  e.1 != cleared && decide (threshold < Scalar.abs e.2)

/-- The entries of `row - factor * pivot`, by increasing column. -/
def subtract (factor : α) : SparseRow α → SparseRow α → SparseRow α
  | [], pivot => pivot.map fun (j, b) => (j, -factor * b)
  | (i, a) :: row, [] => (i, a) :: row
  | (i, a) :: row, (j, b) :: pivot =>
    if i = j then (i, a - factor * b) :: subtract factor row pivot
    else if i < j then (i, a) :: subtract factor row ((j, b) :: pivot)
    else (j, -factor * b) :: subtract factor ((i, a) :: row) pivot
termination_by row pivot => row.length + pivot.length

/-- The row `row - factor * pivot` without the column `cleared` and without
entries up to the threshold. -/
def eliminate (threshold : α) (row : SparseRow α) (factor : α) (pivot : SparseRow α)
    (cleared : Nat) : SparseRow α :=
  (subtract factor row pivot).filter (survives threshold cleared)

/-- Adds a term to a row. -/
def addTerm (row : SparseRow α) (term : Nat × α) : SparseRow α :=
  match row with
  | [] => [term]
  | (j, a) :: rest =>
    if term.1 < j then term :: (j, a) :: rest
    else if term.1 = j then (j, a + term.2) :: rest
    else (j, a) :: addTerm rest term

/-- The row of a list of terms: the terms of each variable are added up in
their order, and what comes out as zero is dropped. -/
def ofTerms (terms : List (Nat × α)) : SparseRow α :=
  (terms.foldl addTerm []).filter fun e => e.2 != 0

end SparseRow

end MarkovLogic.Linear
