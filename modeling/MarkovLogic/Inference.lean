/-
MarkovLogic/Inference.lean

From a model to the values of the atoms that are asked about.

The model is grounded, the network is handed to the configured method, and its
assignment is read back as answers: one for each ground atom of each predicate
that is asked about, in the order of their numbers.  An atom that the evidence
decides has the value of the evidence; every other one has its value in the
assignment.

The source of randomness and the solver of linear programs are parameters.
-/
import MarkovLogic.Clique.Key
import MarkovLogic.Error
import MarkovLogic.Grounding.Rounds
import MarkovLogic.Linear.Simplex
import MarkovLogic.Report

namespace MarkovLogic

/-- The value of one ground atom. -/
structure Answer where
  id : Nat
  signature : Signature
  args : List String
  value : Bool
  /-- Whether the value comes from the evidence. -/
  observed : Bool
deriving Repr, DecidableEq

/-- The record of an answer in a report. -/
def Answer.toRecord (a : Answer) : AtomRecord :=
  ⟨a.id, a.signature.text, a.signature.symbol, a.args, a.value, a.observed⟩

/-- What a run comes to. -/
structure Outcome (α : Type) where
  method : Method
  network : Network α
  grounding : Grounding.Summary
  result : MapState α
  answers : List Answer

namespace Inference

variable {α : Type} [Scalar α]

/-! ### Grounding -/

/-- The settings that a configuration gives for grounding. -/
def groundingSettings (c : GroundingConfig) : Grounding.Settings where
  options := c.options
  partitions := max c.partitions 1
  maxRounds := c.maxRounds
  key := CliqueKey.ofLiterals

/-- Grounds a model as configured. -/
def ground (config : Config α) (m : Model α) :
    Except (Error α) (Network α × Grounding.Summary) :=
  (Grounding.run m (groundingSettings config.grounding)).mapError .grounding

/-! ### Inferring -/

/-- The values that the ground atoms should have, if annotations are given. -/
def goldOf (m : Model α) : Option (Nat → Bool) :=
  m.annotation.map fun _ id => (m.annotated? id).getD false

/-- Infers an assignment of a network by the configured method. -/
def assign (ρ : Type) [RandomSource ρ] (solver : Nat → Linear.Solver α)
    (config : InferenceConfig α) (gold : Option (Nat → Bool)) (net : Network α) :
    Except (Error α) (MapState α) :=
  match config.method with
  | .localSearch => .ok (LocalSearch.run ρ net config.search)
  | .relaxation =>
    (Relaxation.infer ρ (solver config.relaxation.maxPivots) net config.relaxation config.search
      gold).mapError .relaxation

/-- The answer about a ground atom, if the number is one's. -/
def answer? (m : Model α) (net : Network α) (result : MapState α) (id : Nat) : Option Answer :=
  match m.base.decode id with
  | .error _ => none
  | .ok (signature, args) =>
    match (m.truth id).toBool? with
    | some value => some ⟨id, signature, args, value, true⟩
    | none => some ⟨id, signature, args, (result.value? net id).getD false, false⟩

/-- The answers about all atoms that are asked about. -/
def answers (m : Model α) (net : Network α) (result : MapState α) : List Answer :=
  match m.base.queryRange with
  | none => []
  | some (first, last) =>
    (List.range' first (last + 1 - first)).filterMap (answer? m net result)

/-- Grounds a model, infers, and reads back the answers. -/
def run (ρ : Type) [RandomSource ρ] (solver : Nat → Linear.Solver α) (config : Config α)
    (m : Model α) : Except (Error α) (Outcome α) := do
  let (network, grounding) ← ground config m
  let result ← assign ρ solver config.inference (goldOf m) network
  return {
    method := config.inference.method
    network, grounding, result
    answers := answers m network result }

end Inference

namespace Outcome

variable {α : Type} [Scalar α]

/-- The value of an atom that was asked about. -/
def value? (o : Outcome α) (symbol : String) (args : List String) : Option Bool :=
  (o.answers.find? fun a => a.signature.symbol == symbol && a.args == args).map Answer.value

/-- The records of all answers. -/
def records (o : Outcome α) : List AtomRecord :=
  o.answers.map Answer.toRecord

/-- The summary of the run. -/
def summary (o : Outcome α) : RunSummary α where
  method := o.method.text
  groundAtoms := o.network.atomCount
  groundClauses := o.network.constraints.size
  hardClauses := o.network.hardCount
  groundingRounds := o.grounding.rounds
  nonIntegral := o.result.effort.nonIntegral
  cost := o.result.cost
  hardViolations := o.result.hardViolations
  objective := o.result.effort.objective
  timings := .zero

/-- The report of the run. -/
def report (o : Outcome α) : Report α :=
  ⟨o.summary, o.records⟩

end Outcome

end MarkovLogic
