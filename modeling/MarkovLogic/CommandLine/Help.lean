/-
MarkovLogic/CommandLine/Help.lean

What the program says about itself.
-/
import MarkovLogic.CommandLine.Arguments

namespace MarkovLogic.CommandLine

/-- The name and the version of the program. -/
def versionText : String :=
  "markov-map 0.1.0\n"

/-- An option and what it is for, the text starting in the given column. -/
def optionLine (column : Nat) (option purpose : String) : String :=
  option ++ String.ofList (List.replicate (column - option.length) ' ') ++ purpose ++ "\n"

/-- The option for the configuration file. -/
def configLine (column : Nat) : String :=
  optionLine column "      --config <CONFIG>"
    "Engine configuration file (TOML). Defaults apply when omitted"

/-- The option for the problem file. -/
def problemLine (column : Nat) : String :=
  optionLine column "      --problem <PROBLEM>" "Problem file (JSON)"

/-- The option for help. -/
def helpLine (column : Nat) : String :=
  optionLine column "  -h, --help" "Print help"

/-- A page of help: what it is about, how it is used, and its sections. -/
def page (about usage : String) (sections : List (String × String)) : String :=
  about ++ "\n\nUsage: markov-map " ++ usage ++ "\n" ++
    String.join (sections.map fun (title, lines) => "\n" ++ title ++ ":\n" ++ lines)

/-- The help on a topic. -/
def Topic.text : Topic → String
  | .program => page "MAP inference for Markov Logic Networks" "[OPTIONS] <COMMAND>" [
      ("Commands",
        optionLine 10 "  infer" "Ground a problem and run MAP inference" ++
        optionLine 10 "  ground" "Ground a problem and report network statistics" ++
        optionLine 10 "  config" "Print the effective configuration as TOML" ++
        optionLine 10 "  help" "Print this message or the help of the given subcommand(s)"),
      ("Options",
        configLine 25 ++ helpLine 25 ++ optionLine 25 "  -V, --version" "Print version")]
  | .infer => page "Ground a problem and run MAP inference" "infer [OPTIONS] --problem <PROBLEM>" [
      ("Options",
        configLine 27 ++ problemLine 27 ++
        optionLine 27 "      --method <METHOD>"
          "Override the configured inference method (maxwalksat, ilp)" ++
        optionLine 27 "      --output <OUTPUT>" "Write results here instead of stdout" ++
        optionLine 27 "      --json"
          "Emit a JSON document with a run summary instead of text lines" ++
        helpLine 27)]
  | .ground =>
    page "Ground a problem and report network statistics" "ground [OPTIONS] --problem <PROBLEM>" [
      ("Options", configLine 27 ++ problemLine 27 ++ helpLine 27)]
  | .config => page "Print the effective configuration as TOML" "config [OPTIONS]" [
      ("Options",
        configLine 25 ++ optionLine 25 "      --save <SAVE>" "Also write it to this path" ++
        helpLine 25)]
  | .help => page "Print this message or the help of the given subcommand(s)" "help [COMMAND]..." [
      ("Arguments", optionLine 16 "  [COMMAND]..." "Print help for the subcommand(s)")]

end MarkovLogic.CommandLine
