/-
MarkovLogic/Config.lean

Configurations: how a model is grounded, and by which method and with which
settings its atoms are inferred.

Every setting has a default.  A configuration is checked before it is used:
`Config.check` refuses settings that no run can work with, and of several bad
settings it names the first one in a fixed order.
-/
import MarkovLogic.Grounding.Harvest
import MarkovLogic.Relaxation.Rounding
import MarkovLogic.Text.Blank

namespace MarkovLogic

/-! ### Methods -/

/-- How atoms are inferred. -/
inductive Method where
  | localSearch
  | relaxation
deriving Repr, DecidableEq, Inhabited

namespace Method

/-- The name of a method. -/
def text : Method → String
  | localSearch => "maxwalksat"
  | relaxation => "ilp"

/-- Reads the name or the short name of a method in small or capital letters.
What is refused is returned in small letters. -/
def read (text : String) : Except String Method :=
  match Text.toAsciiLower text with
  | "maxwalksat" => .ok localSearch
  | "mws" => .ok localSearch
  | "ilp" => .ok relaxation
  | "lp" => .ok relaxation
  | other => .error other

/-- What is said about a name that is no method's. -/
def refusal (name : String) : String :=
  "unknown inference method \"" ++ name ++ "\""

end Method

/-! ### Settings -/

/-- How a model is grounded. -/
structure GroundingConfig where
  options : Grounding.Options
  /-- The number of partitions of the register; zero leaves it open. -/
  partitions : Nat
  /-- The largest number of rounds. -/
  maxRounds : Nat
deriving Repr, BEq, DecidableEq

/-- How atoms are inferred. -/
structure InferenceConfig (α : Type) where
  method : Method
  search : LocalSearch.Settings α
  relaxation : Relaxation.Settings α
deriving Repr, BEq, DecidableEq

/-- A configuration. -/
structure Config (α : Type) where
  grounding : GroundingConfig
  inference : InferenceConfig α
deriving Repr, BEq, DecidableEq

/-! ### Defaults -/

/-- Clauses are grounded as they stand. -/
def GroundingConfig.default : GroundingConfig :=
  ⟨⟨false, false⟩, 0, 64⟩

variable {α : Type} [Scalar α]

/-- One try of a single chain from the state where all atoms are false. -/
def LocalSearch.Settings.default : LocalSearch.Settings α where
  maxFlips := 100000
  maxTries := 1
  targetCost := 0
  noise := 0.5
  tabuLength := 5
  chains := 1
  seed := 24301
  init := .allFalse

/-- Rounding up. -/
def Relaxation.Settings.default : Relaxation.Settings α where
  rounding := .roundUp
  tolerance := 0.01
  lossAugmented := false
  maxPivots := 1000000

/-- Local search. -/
def InferenceConfig.default : InferenceConfig α :=
  ⟨.localSearch, .default, .default⟩

/-- The configuration when nothing is configured. -/
def Config.default : Config α :=
  ⟨.default, .default⟩

instance : Inhabited (Config α) := ⟨.default⟩

/-! ### Checking -/

/-- Why a configuration cannot be used. -/
inductive ConfigError (α : Type) where
  /-- The file cannot be read. -/
  | unreadable (path : String)
  /-- The file has not the shape of a configuration. -/
  | malformedFile (path : String)
  /-- The file cannot be written. -/
  | unwritable (path : String)
  /-- The noise is no probability. -/
  | noise (value : α)
  /-- There are no chains or no tries. -/
  | noSearch
  /-- The tolerance does not keep one and zero apart. -/
  | tolerance (value : α)
  /-- There are no rounds. -/
  | noRounds
deriving Repr, DecidableEq

/-- Refuses settings that no run can work with. -/
def Config.check (c : Config α) : Except (ConfigError α) Unit :=
  let search := c.inference.search
  let tolerance := c.inference.relaxation.tolerance
  if ¬(0 ≤ search.noise ∧ search.noise ≤ 1) then .error (.noise search.noise)
  else if search.chains = 0 ∨ search.maxTries = 0 then .error .noSearch
  else if ¬(0 < tolerance ∧ tolerance < 0.5) then .error (.tolerance tolerance)
  else if c.grounding.maxRounds = 0 then .error .noRounds
  else .ok ()

end MarkovLogic
