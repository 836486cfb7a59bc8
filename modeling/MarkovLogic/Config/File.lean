/-
MarkovLogic/Config/File.lean

Configuration files.

A configuration is a document with two parts, `grounding` and `inference`,
and inside the latter one part for each method.  What is missing has its
default.  Files are in TOML notation; the writer gives every setting, and
refuses numbers that the notation cannot hold.
-/
import MarkovLogic.Config
import MarkovLogic.Document.Toml
import MarkovLogic.Decimal.Layout

namespace MarkovLogic

open Document (orDefault)

/-! ### Names of alternatives -/

/-- The methods by their names. -/
def Method.choices : List (String × Method) :=
  [("maxwalksat", .localSearch), ("ilp", .relaxation)]

/-- The initial states by their names. -/
def InitialState.choices : List (String × InitialState) :=
  [("all_false", .allFalse), ("random", .random)]

/-- The name of an initial state. -/
def InitialState.text : InitialState → String
  | .allFalse => "all_false"
  | .random => "random"

/-- The ways of rounding by their names. -/
def Rounding.choices : List (String × Rounding) :=
  [("round_up", .roundUp), ("local_search", .localSearch)]

/-- The name of a way of rounding. -/
def Rounding.text : Rounding → String
  | .roundUp => "round_up"
  | .localSearch => "local_search"

/-! ### Reading -/

/-- A count or a seed, which has 64 bits. -/
def wordOfDocument? : Document → Option Nat :=
  Document.asNat? (Nat.pow 2 64)

/-- The number of tries, which has 32 bits. -/
def triesOfDocument? : Document → Option Nat :=
  Document.asNat? (Nat.pow 2 32)

/-- Takes the grounding part from a document. -/
def GroundingConfig.ofDocument? (manner : Document.Manner) (d : Document) :
    Option GroundingConfig := do
  let dflt := GroundingConfig.default
  match ← d.fields? manner
    ["eliminate_negative_weights", "eliminate_negated_unit", "partitions", "max_rounds"] with
  | [splitNegative, flipNegatedUnit, partitions, maxRounds] =>
    let splitNegative ← orDefault dflt.options.splitNegative Document.asBool? splitNegative
    let flipNegatedUnit ← orDefault dflt.options.flipNegatedUnit Document.asBool? flipNegatedUnit
    return {
      options := ⟨splitNegative, flipNegatedUnit⟩
      partitions := ← orDefault dflt.partitions wordOfDocument? partitions
      maxRounds := ← orDefault dflt.maxRounds wordOfDocument? maxRounds }
  | _ => none

/-- Takes the settings of local search from a document. -/
def LocalSearch.Settings.ofDocument? (manner : Document.Manner) (d : Document) :
    Option (LocalSearch.Settings Float) := do
  let dflt : LocalSearch.Settings Float := .default
  match ← d.fields? manner
    ["max_flips", "max_tries", "target_cost", "noise", "tabu_length", "chains", "seed", "init"] with
  | [maxFlips, maxTries, targetCost, noise, tabuLength, chains, seed, init] =>
    return {
      maxFlips := ← orDefault dflt.maxFlips wordOfDocument? maxFlips
      maxTries := ← orDefault dflt.maxTries triesOfDocument? maxTries
      targetCost := ← orDefault dflt.targetCost Document.asFloat? targetCost
      noise := ← orDefault dflt.noise Document.asFloat? noise
      tabuLength := ← orDefault dflt.tabuLength wordOfDocument? tabuLength
      chains := ← orDefault dflt.chains wordOfDocument? chains
      seed := ← orDefault dflt.seed wordOfDocument? seed
      init := ← orDefault dflt.init (Document.asChoice? manner InitialState.choices) init }
  | _ => none

/-- Takes the settings of relaxation from a document. -/
def Relaxation.Settings.ofDocument? (manner : Document.Manner) (d : Document) :
    Option (Relaxation.Settings Float) := do
  let dflt : Relaxation.Settings Float := .default
  match ← d.fields? manner
    ["rounding", "integrality_tolerance", "loss_augmented", "max_pivots"] with
  | [rounding, tolerance, lossAugmented, maxPivots] =>
    return {
      rounding := ← orDefault dflt.rounding (Document.asChoice? manner Rounding.choices) rounding
      tolerance := ← orDefault dflt.tolerance Document.asFloat? tolerance
      lossAugmented := ← orDefault dflt.lossAugmented Document.asBool? lossAugmented
      maxPivots := ← orDefault dflt.maxPivots wordOfDocument? maxPivots }
  | _ => none

/-- Takes the inference part from a document. -/
def InferenceConfig.ofDocument? (manner : Document.Manner) (d : Document) :
    Option (InferenceConfig Float) := do
  match ← d.fields? manner ["method", "maxwalksat", "ilp"] with
  | [method, search, relaxation] =>
    return {
      method := ← orDefault .localSearch (Document.asChoice? manner Method.choices) method
      search := ← orDefault .default (LocalSearch.Settings.ofDocument? manner) search
      relaxation := ← orDefault .default (Relaxation.Settings.ofDocument? manner) relaxation }
  | _ => none

namespace Config

/-- Takes a configuration from a document. -/
def ofDocument? (manner : Document.Manner) (d : Document) : Option (Config Float) := do
  match ← d.fields? manner ["grounding", "inference"] with
  | [grounding, inference] =>
    return {
      grounding := ← orDefault .default (GroundingConfig.ofDocument? manner) grounding
      inference := ← orDefault .default (InferenceConfig.ofDocument? manner) inference }
  | _ => none

/-- Reads and checks the text of the file at `path`. -/
def parse (path text : String) : Except (ConfigError Float) (Config Float) := do
  match (Document.Toml.read? text).bind (ofDocument? Document.Toml.manner) with
  | none => throw (.malformedFile path)
  | some config =>
    config.check
    return config

/-! ### Writing -/

/-- A setting on its line. -/
def settingLine (name value : String) : String :=
  name ++ " = " ++ value ++ "\n"

/-- A truth value. -/
def boolText (value : Bool) : String :=
  if value then "true" else "false"

/-- A natural number, if it has at most 63 bits. -/
def natText? (value : Nat) : Option String :=
  if value < Nat.pow 2 63 then some (toString value) else none

/-- A name in quotes. -/
def nameText (name : String) : String :=
  "\"" ++ name ++ "\""

/-- A real number. -/
def realText (x : Float) : String :=
  Decimal.Layout.setting.print x

/-- The lines of the grounding part. -/
def groundingText? (g : GroundingConfig) : Option String := do
  return "[grounding]\n" ++
    settingLine "eliminate_negative_weights" (boolText g.options.splitNegative) ++
    settingLine "eliminate_negated_unit" (boolText g.options.flipNegatedUnit) ++
    settingLine "partitions" (← natText? g.partitions) ++
    settingLine "max_rounds" (← natText? g.maxRounds)

/-- The lines of the settings of local search. -/
def searchText? (s : LocalSearch.Settings Float) : Option String := do
  return "[inference.maxwalksat]\n" ++
    settingLine "max_flips" (← natText? s.maxFlips) ++
    settingLine "max_tries" (← natText? s.maxTries) ++
    settingLine "target_cost" (realText s.targetCost) ++
    settingLine "noise" (realText s.noise) ++
    settingLine "tabu_length" (← natText? s.tabuLength) ++
    settingLine "chains" (← natText? s.chains) ++
    settingLine "seed" (← natText? s.seed) ++
    settingLine "init" (nameText s.init.text)

/-- The lines of the settings of relaxation. -/
def relaxationText? (r : Relaxation.Settings Float) : Option String := do
  return "[inference.ilp]\n" ++
    settingLine "rounding" (nameText r.rounding.text) ++
    settingLine "integrality_tolerance" (realText r.tolerance) ++
    settingLine "loss_augmented" (boolText r.lossAugmented) ++
    settingLine "max_pivots" (← natText? r.maxPivots)

/-- The text of a configuration file. -/
def text? (c : Config Float) : Option String := do
  let method := "[inference]\n" ++ settingLine "method" (nameText c.inference.method.text)
  return Text.join "\n" [← groundingText? c.grounding, method, ← searchText? c.inference.search,
    ← relaxationText? c.inference.relaxation]

end Config

end MarkovLogic
