/-
MarkovLogic/CommandLine.lean

The program: what it answers to a command.

A command reads at most two files, the configuration and the problem, and
writes at most one, after everything else is done.  So the answer is a
function of the texts of the files that are read (`respond`): it is an error,
or a text for standard output together with a file that is to be written.
Who runs the program on real files has to do no more than read, call and
write.
-/
import MarkovLogic.CommandLine.Help
import MarkovLogic.Config.File
import MarkovLogic.Inference
import MarkovLogic.Random.ChaCha

namespace MarkovLogic.CommandLine

/-- Why a command fails. -/
inductive Failure where
  /-- The run fails. -/
  | run (error : Error Float)
  /-- The results cannot be written. -/
  | output (path : String)
  /-- The configuration cannot be put down. -/
  | settings

/-- The code of a failure, if it has one. -/
def Failure.code? : Failure → Option String
  | .run e => some e.code
  | .output _ => none
  | .settings => none

/-- The text of a failure. -/
def Failure.message : Failure → String
  | .run e => e.message
  | .output path => "cannot write " ++ path
  | .settings => "a number of the configuration is too large"

/-- A file to write. -/
structure Delivery where
  path : String
  text : String
  /-- Whether missing directories are made. -/
  makeParents : Bool
  /-- What has failed when the file cannot be written. -/
  failure : Failure

/-- What a command answers: a text for standard output, then a file. -/
structure Response where
  stdout : String
  delivery : Option Delivery

/-! ### Reading files -/

/-- The configuration of a command. -/
def loadConfig (files : String → Option String) :
    Option String → Except (Error Float) (Config Float)
  | none => .ok .default
  | some path =>
    match files path with
    | none => .error (.config (.unreadable path))
    | some text => (Config.parse path text).mapError .config

/-- The problem in a file. -/
def loadProblem (files : String → Option String) (path : String) : Except ProblemError Problem :=
  match files path with
  | none => .error (.unreadable path)
  | some text => Problem.parse path text

/-- The model in a problem file. -/
def loadModel (files : String → Option String) (path : String) :
    Except (Error Float) (Model Float) :=
  (do (← loadProblem files path).toModel : Except ProblemError (Model Float)).mapError .problem

/-! ### Tasks -/

/-- The solver of the program, by the largest number of steps. -/
def solver : Nat → Linear.Solver Float :=
  Linear.simplex Linear.Tolerance.standard

/-- The lines about a grounding run. -/
def groundText (path : String) (net : Network Float) (s : Grounding.Summary) : String :=
  let count (n : Nat) : String := toString n
  "Grounded " ++ path ++ "\n" ++
  "  rounds:          " ++ count s.rounds ++ (if s.truncated then " (truncated)" else "") ++ "\n" ++
  "  interest atoms:  " ++ count s.interestAtoms ++ "\n" ++
  "  ground atoms:    " ++ count net.atomCount ++ "\n" ++
  "  ground clauses:  " ++ count net.constraints.size ++ " (" ++ count net.hardCount ++
    " hard)\n" ++
  "  substitutions:   " ++ count s.counts.substitutions ++ "\n" ++
  "  pruned:          " ++ count s.counts.tautologies ++ " tautologies, " ++
    count s.counts.absent ++ " absent, " ++ count s.counts.falsified ++ " falsified, " ++
    count s.counts.filtered ++ " filtered\n" ++
  "  elapsed:         " ++ count Timings.zero.grounding ++ " ms\n"

/-- Infers and reports. -/
def respondInfer (files : String → Option String) (config : Config Float) (problem : String)
    (method : Option Method) (output : Option String) (json : Bool) :
    Except (Error Float) Response := do
  let chosen := method.getD config.inference.method
  let config := { config with inference.method := chosen }
  config.check.mapError .config
  let model ← loadModel files problem
  let outcome ← Inference.run ChaCha solver config model
  let text := if json then outcome.report.json else AtomRecord.lines outcome.records
  match output with
  | none => return ⟨text, none⟩
  | some path => return ⟨"", some ⟨path, text, false, .output path⟩⟩

/-- Grounds and counts. -/
def respondGround (files : String → Option String) (config : Config Float) (problem : String) :
    Except (Error Float) Response := do
  config.check.mapError .config
  let model ← loadModel files problem
  let (net, summary) ← Inference.ground config model
  return ⟨groundText problem net summary, none⟩

/-- Shows the configuration. -/
def respondConfig (config : Config Float) (save : Option String) : Except Failure Response := do
  config.check.mapError fun e => .run (.config e)
  match config.text? with
  | none => throw .settings
  | some text =>
    return ⟨text, save.map fun path => ⟨path, text, true, .run (.config (.unwritable path))⟩⟩

/-- The answer to a command, where `files` gives the texts of files. -/
def respond (files : String → Option String) (command : Command) : Except Failure Response := do
  let config ← (loadConfig files command.config).mapError .run
  match command.task with
  | .infer problem method output json =>
    (respondInfer files config problem method output json).mapError .run
  | .ground problem => (respondGround files config problem).mapError .run
  | .config save => respondConfig config save

/-- The files that a command reads. -/
def Command.reads (command : Command) : List String :=
  command.config.toList ++
    match command.task with
    | .infer problem _ _ _ => [problem]
    | .ground problem => [problem]
    | .config _ => []

/-! ### Exit codes -/

/-- How the program ends. -/
structure Exit where
  status : Nat
  stdout : String
  failure : Option Failure

namespace Exit

/-- The end of a program that does what it was asked to. -/
def success (stdout : String) : Exit :=
  ⟨0, stdout, none⟩

/-- The end of a program that fails after it has written something. -/
def failed (stdout : String) (failure : Failure) : Exit :=
  ⟨1, stdout, some failure⟩

/-- The end of a program whose arguments make no command, or only ask for
help or for the version. -/
def ofStop : Stop → Exit
  | .help topic => success topic.text
  | .version => success versionText
  | .misuse => ⟨2, "", none⟩

end Exit

end MarkovLogic.CommandLine
