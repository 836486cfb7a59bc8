/-
MarkovLogic/Error.lean

Everything that can go wrong, with the code and the text under which it is
reported.

Each part of the library has its own type of errors.  They are joined here,
and here alone they are put into words.
-/
import MarkovLogic.Config
import MarkovLogic.Grounding.Template
import MarkovLogic.Problem

namespace MarkovLogic

/-- Why a run failed. -/
inductive Error (α : Type) where
  | problem (error : ProblemError)
  | numbering (error : Herbrand.NumberingError)
  | grounding (error : Grounding.GroundingError)
  | relaxation (error : RelaxationError α)
  | config (error : ConfigError α)
deriving Repr, DecidableEq

/-! ### Codes -/

/-- The code of a numbering error. -/
def Herbrand.NumberingError.code : Herbrand.NumberingError → String
  | .overflow .. => "mln::identity::overflow"
  | .unknownId _ => "mln::identity::unknown_id"
  | .unknownSignature _ => "mln::identity::unknown_signature"

/-- The code of an error in the declarations. -/
def KnowledgeError.code : KnowledgeError → String
  | .unknownSignature .. => "mln::kb::unknown_signature"
  | .conflictingAssumption _ => "mln::kb::conflicting_world_assumption"
  | .unknownType .. => "mln::kb::unknown_type"
  | .unknownConstant .. => "mln::kb::unknown_constant"
  | .arityMismatch .. => "mln::kb::arity_mismatch"
  | .nanWeight _ => "mln::kb::nan_weight"
  | .numbering e => e.code

/-- The code of an error in a problem file. -/
def ProblemError.code : ProblemError → String
  | .unreadable _ => "mln::problem::read"
  | .malformedFile _ => "mln::problem::parse"
  | .invalidWeight _ => "mln::problem::parse"
  | .malformedAtom _ => "mln::problem::atom"
  | .knowledge e => e.code

/-- The code of an error in grounding. -/
def Grounding.GroundingError.code : Grounding.GroundingError → String
  | .nanWeight _ => "mln::ground::nan_weight"
  | .unsupported _ => "mln::ground::unsupported_dynamic"
  | .untyped .. => "mln::ground::untyped_variable"

/-- The code of an error in relaxation. -/
def RelaxationError.code {α : Type} : RelaxationError α → String
  | .solver _ => "mln::infer::solver"
  | .valueCount .. => "mln::infer::solver"
  | .nonOptimal _ => "mln::infer::non_optimal"

/-- The code of an error in a configuration. -/
def ConfigError.code {α : Type} : ConfigError α → String
  | .unreadable _ => "mln::config::read"
  | .malformedFile _ => "mln::config::parse"
  | .unwritable _ => "mln::config::write"
  | .noise _ => "mln::config::invalid"
  | .noSearch => "mln::config::invalid"
  | .tolerance _ => "mln::config::invalid"
  | .noRounds => "mln::config::invalid"

/-- The code of an error. -/
def Error.code {α : Type} : Error α → String
  | .problem e => e.code
  | .numbering e => e.code
  | .grounding e => e.code
  | .relaxation e => e.code
  | .config e => e.code

/-! ### Texts -/

/-- A natural number in a message. -/
def countText (n : Nat) : String :=
  toString n

/-- A real number in a message. -/
def numberText (x : Float) : String :=
  Decimal.Layout.message.print x

/-- The word for what a predicate was named for. -/
def Role.text : Role → String
  | .query => "query"
  | .closedWorld => "closed-world"
  | .openWorld => "open-world"
  | .evidence => "evidence"
  | .clause => "clause"

/-- The text of a numbering error. -/
def Herbrand.NumberingError.message : Herbrand.NumberingError → String
  | .overflow signature start required =>
    "ground atom id space overflow: " ++ signature.text ++ " needs " ++ countText required ++
      " ids past " ++ countText start
  | .unknownId id => "atom id " ++ countText id ++ " does not belong to any predicate interval"
  | .unknownSignature signature => "no identity registered for " ++ signature.text

/-- The text of an error in the declarations. -/
def KnowledgeError.message : KnowledgeError → String
  | .unknownSignature role signature =>
    role.text ++ " atom signature " ++ signature.text ++ " is not declared in the knowledge base"
  | .conflictingAssumption signature =>
    "predicate " ++ signature.text ++ " is declared both closed-world and open-world"
  | .unknownType typeName signature =>
    "argument type \"" ++ typeName ++ "\" of " ++ signature.text ++ " has no constant domain"
  | .unknownConstant constant typeName =>
    "constant \"" ++ constant ++ "\" is not in the domain of type \"" ++ typeName ++ "\""
  | .arityMismatch declared actual =>
    declared.text ++ " expects " ++ countText declared.arity ++ " argument(s), got " ++
      countText actual
  | .nanWeight literals =>
    "clause " ++ Clause.text ⟨0.0 / 0.0, literals⟩ ++ " has a NaN weight"
  | .numbering e => e.message

/-- The text of an error in a problem file. -/
def ProblemError.message : ProblemError → String
  | .unreadable path => "failed to read problem file: " ++ path
  | .malformedFile path => "failed to parse problem file: " ++ path
  | .invalidWeight text =>
    "failed to parse problem file: <clause weight>: invalid weight \"" ++ text ++ "\""
  | .malformedAtom text => "malformed atom \"" ++ text ++ "\""
  | .knowledge e => e.message

/-- The text of an error in grounding. -/
def Grounding.GroundingError.message : Grounding.GroundingError → String
  | .nanWeight clause => "clause #" ++ countText clause ++ " has a NaN weight"
  | .unsupported signature =>
    "dynamic atom " ++ signature.text ++ " is not supported yet: no evaluator is registered"
  | .untyped name clause =>
    "variable " ++ name ++ " of clause #" ++ countText clause ++
      " never appears in a typed predicate"

/-- The text of the refusal of a program. -/
def Linear.SolverError.message : Linear.SolverError Float → String
  | .invalidUpper name bound =>
    "variable " ++ name ++ " has invalid upper bound " ++ numberText bound
  | .unknownVariable v => "row references unknown variable " ++ countText v
  | .nonFiniteRow => "non-finite coefficient in constraint row"

/-- The text of an error in relaxation. -/
def RelaxationError.message : RelaxationError Float → String
  | .solver e => "LP solver failed: " ++ e.message
  | .valueCount values vars =>
    "LP solver failed: solver returned " ++ countText values ++ " values for " ++
      countText vars ++ " variables"
  | .nonOptimal status => "LP solver returned non-optimal status: " ++ status.text

/-- The text of an error in a configuration. -/
def ConfigError.message : ConfigError Float → String
  | .unreadable path => "failed to read config: " ++ path
  | .malformedFile path => "failed to parse config: " ++ path
  | .unwritable path => "failed to write config: " ++ path
  | .noise value =>
    "invalid configuration: maxwalksat.noise must be in [0, 1], got " ++ numberText value
  | .noSearch =>
    "invalid configuration: maxwalksat.chains and maxwalksat.max_tries must be at least 1"
  | .tolerance value =>
    "invalid configuration: ilp.integrality_tolerance must be in (0, 0.5), got " ++
      numberText value
  | .noRounds => "invalid configuration: grounding.max_rounds must be at least 1"

/-- The text of an error. -/
def Error.message : Error Float → String
  | .problem e => e.message
  | .numbering e => e.message
  | .grounding e => e.message
  | .relaxation e => e.message
  | .config e => e.message

end MarkovLogic
