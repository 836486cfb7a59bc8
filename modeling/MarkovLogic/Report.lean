/-
MarkovLogic/Report.lean

Reports: the values of the atoms that were asked about, and a summary of the
run.

A report is written as lines, one for each atom, or as a document in JSON
notation with the summary in front.  The document can be read back.
-/
import MarkovLogic.Document.Json

namespace MarkovLogic

/-- The value of one atom. -/
structure AtomRecord where
  /-- The number of the ground atom. -/
  id : Nat
  signature : String
  predicate : String
  args : List String
  value : Bool
  /-- Whether the value comes from the evidence. -/
  evidence : Bool
deriving Repr, DecidableEq, Inhabited

/-- The time that the phases of a run took, in milliseconds. -/
structure Timings where
  grounding : Nat
  relaxing : Nat
  solving : Nat
  rounding : Nat
deriving Repr, DecidableEq, Inhabited

/-- No time at all: runs are not timed by the library itself. -/
def Timings.zero : Timings := ⟨0, 0, 0, 0⟩

/-- The time that inference took, as a number of 64 bits. -/
def Timings.inference (t : Timings) : Nat :=
  (t.relaxing + t.solving + t.rounding) % Nat.pow 2 64

/-- What a run did. -/
structure RunSummary (α : Type) where
  method : String
  groundAtoms : Nat
  groundClauses : Nat
  hardClauses : Nat
  groundingRounds : Nat
  /-- The number of atoms that the relaxation left undecided. -/
  nonIntegral : Nat
  cost : α
  hardViolations : Nat
  /-- The optimum of the relaxation, if one was solved. -/
  objective : Option α
  timings : Timings
deriving Repr, DecidableEq

/-- A report of a run. -/
structure Report (α : Type) where
  summary : RunSummary α
  atoms : List AtomRecord
deriving Repr, DecidableEq

/-! ### Lines -/

/-- The line of an atom: the atom and `1` if it is true. -/
def AtomRecord.text (a : AtomRecord) : String :=
  a.predicate ++ "(" ++ Text.join "," a.args ++ ") " ++ (if a.value then "1" else "0")

/-- The atoms, one a line. -/
def AtomRecord.lines (atoms : List AtomRecord) : String :=
  String.join (atoms.map fun a => a.text ++ "\n")

/-- The summary over several lines, the last of which is not ended. -/
def RunSummary.text (s : RunSummary Float) : String :=
  let relaxed := match s.objective with
    | none => []
    | some objective => [
      "  lp objective:    " ++ Decimal.fixedPlaces 4 objective,
      "  non-integral:    " ++ toString s.nonIntegral]
  Text.join "\n" ([
    "markov-map " ++ s.method,
    "  ground atoms:    " ++ toString s.groundAtoms,
    "  ground clauses:  " ++ toString s.groundClauses ++ " (" ++ toString s.hardClauses ++ " hard)",
    "  grounding:       " ++ toString s.groundingRounds ++ " rounds, " ++
      toString s.timings.grounding ++ " ms"] ++
    relaxed ++ [
    "  solve:           " ++ toString s.timings.inference ++ " ms",
    "  cost:            " ++ Decimal.fixedPlaces 4 s.cost ++ " (" ++ toString s.hardViolations ++
      " hard violations)"])

/-! ### Documents -/

/-- A count in a document. -/
def countDocument (n : Nat) : Document :=
  .integer n

/-- The document of an atom. -/
def AtomRecord.toDocument (a : AtomRecord) : Document :=
  .record [
    ("id", countDocument a.id),
    ("signature", .text a.signature),
    ("predicate", .text a.predicate),
    ("args", .list (a.args.map .text)),
    ("value", .bool a.value),
    ("evidence", .bool a.evidence)]

/-- The document of a summary. -/
def RunSummary.toDocument (s : RunSummary Float) : Document :=
  .record [
    ("method", .text s.method),
    ("ground_atoms", countDocument s.groundAtoms),
    ("ground_clauses", countDocument s.groundClauses),
    ("hard_clauses", countDocument s.hardClauses),
    ("grounding_rounds", countDocument s.groundingRounds),
    ("non_integral", countDocument s.nonIntegral),
    ("cost", .real s.cost),
    ("hard_violations", countDocument s.hardViolations),
    ("lp_objective", s.objective.elim .null .real),
    ("grounding_ms", countDocument s.timings.grounding),
    ("translation_ms", countDocument s.timings.relaxing),
    ("solve_ms", countDocument s.timings.solving),
    ("rounding_ms", countDocument s.timings.rounding)]

namespace Report

/-- The document of a report. -/
def toDocument (r : Report Float) : Document :=
  .record [("summary", r.summary.toDocument), ("atoms", .list (r.atoms.map AtomRecord.toDocument))]

/-- The report in JSON notation. -/
def json (r : Report Float) : String :=
  Document.Json.pretty 0 r.toDocument ++ "\n"

/-! ### Reading -/

open Document (required)

/-- A count, which has 64 bits. -/
def countOfDocument? : Document → Option Nat :=
  Document.asNat? (Nat.pow 2 64)

/-- Takes a value that may be `null` from a document. -/
def optionalOfDocument? {β : Type} (read : Document → Option β) : Document → Option (Option β)
  | .null => some none
  | d => (read d).map some

/-- Takes an atom from a document. -/
def atomOfDocument? (d : Document) : Option AtomRecord := do
  match ← d.fields? Document.Json.manner
    ["id", "signature", "predicate", "args", "value", "evidence"] with
  | [id, signature, predicate, args, value, evidence] =>
    return {
      id := ← required (Document.asNat? (Nat.pow 2 32)) id
      signature := ← required Document.asText? signature
      predicate := ← required Document.asText? predicate
      args := ← required Document.asTexts? args
      value := ← required Document.asBool? value
      evidence := ← required Document.asBool? evidence }
  | _ => none

/-- Takes a summary from a document; only the optimum of the relaxation may
be missing. -/
def summaryOfDocument? (d : Document) : Option (RunSummary Float) := do
  match ← d.fields? Document.Json.manner
    ["method", "ground_atoms", "ground_clauses", "hard_clauses", "grounding_rounds",
      "non_integral", "cost", "hard_violations", "lp_objective", "grounding_ms",
      "translation_ms", "solve_ms", "rounding_ms"] with
  | [method, groundAtoms, groundClauses, hardClauses, groundingRounds, nonIntegral, cost,
      hardViolations, objective, grounding, relaxing, solving, rounding] =>
    let timings : Timings := {
      grounding := ← required countOfDocument? grounding
      relaxing := ← required countOfDocument? relaxing
      solving := ← required countOfDocument? solving
      rounding := ← required countOfDocument? rounding }
    return {
      method := ← required Document.asText? method
      groundAtoms := ← required countOfDocument? groundAtoms
      groundClauses := ← required countOfDocument? groundClauses
      hardClauses := ← required countOfDocument? hardClauses
      groundingRounds := ← required countOfDocument? groundingRounds
      nonIntegral := ← required countOfDocument? nonIntegral
      cost := ← required Document.asFloat? cost
      hardViolations := ← required countOfDocument? hardViolations
      objective := ← Document.orDefault none (optionalOfDocument? Document.asFloat?) objective
      timings }
  | _ => none

/-- Takes a report from a document. -/
def ofDocument? (d : Document) : Option (Report Float) := do
  match ← d.fields? Document.Json.manner ["summary", "atoms"] with
  | [summary, atoms] =>
    let atoms ← required Document.asList? atoms
    return ⟨← required summaryOfDocument? summary, ← atoms.mapM atomOfDocument?⟩
  | _ => none

end Report

end MarkovLogic
