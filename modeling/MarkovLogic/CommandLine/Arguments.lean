/-
MarkovLogic/CommandLine/Arguments.lean

The arguments of the program.

The program has three commands, each with options of its own, and one option,
the configuration file, that may stand before or after the command.  The value
of an option is the next argument or follows an equals sign; a value that
starts with a dash needs the equals sign.  An option is given at most once on
each side of the command, and of the two places for the configuration file the
one behind the command counts.

Arguments are read from left to right.  The first thing that cannot be read,
or a demand for help or for the version, ends the reading.
-/
import MarkovLogic.Config
import MarkovLogic.Text.Blank

namespace MarkovLogic.CommandLine

/-- What the program is asked to do. -/
inductive Task where
  /-- Infer and report, into a file if one is given. -/
  | infer (problem : String) (method : Option Method) (output : Option String) (json : Bool)
  /-- Ground and count. -/
  | ground (problem : String)
  /-- Show the configuration, and write it to a file if one is given. -/
  | config (save : Option String)
deriving Repr, DecidableEq

/-- A task with the configuration file to use. -/
structure Command where
  config : Option String
  task : Task
deriving Repr, DecidableEq

/-- What help can be asked about. -/
inductive Topic where
  | program
  | infer
  | ground
  | config
  | help
deriving Repr, DecidableEq

/-- Why reading ended early. -/
inductive Stop where
  | help (topic : Topic)
  | version
  /-- The arguments make no command. -/
  | misuse
deriving Repr, DecidableEq

/-! ### Options -/

/-- The options. -/
inductive Flag where
  | config
  | problem
  | method
  | output
  | json
  | save
deriving Repr, DecidableEq

/-- The values of the options so far. -/
structure Given where
  config : Option String
  problem : Option String
  method : Option Method
  output : Option String
  json : Bool
  save : Option String
deriving Repr, DecidableEq

namespace Given

/-- No options. -/
def none : Given :=
  ⟨.none, .none, .none, .none, false, .none⟩

/-- A file name for an option that has none yet; it may not be empty. -/
def path (old : Option String) (value : String) : Except Stop (Option String) :=
  if old.isSome ∨ value.isEmpty then .error .misuse else .ok (some value)

/-- Takes in the value of an option. -/
def put (g : Given) (flag : Flag) (value : String) : Except Stop Given := do
  match flag with
  | .config => return { g with config := ← path g.config value }
  | .problem => return { g with problem := ← path g.problem value }
  | .output => return { g with output := ← path g.output value }
  | .save => return { g with save := ← path g.save value }
  | .method =>
    match g.method, Method.read value with
    | .none, .ok method => return { g with method := some method }
    | _, _ => throw .misuse
  | .json => throw .misuse

/-- Takes in an option without a value. -/
def turnOn (g : Given) : Except Stop Given :=
  if g.json then .error .misuse else .ok { g with json := true }

end Given

/-- The options that a command has, by their names. -/
def Topic.flags : Topic → List (String × Flag)
  | .program => [("config", .config)]
  | .infer => [("config", .config), ("problem", .problem), ("method", .method),
      ("output", .output), ("json", .json)]
  | .ground => [("config", .config), ("problem", .problem)]
  | .config => [("config", .config), ("save", .save)]
  | .help => []

/-- The commands by their names. -/
def Topic.commands : List (String × Topic) :=
  [("infer", .infer), ("ground", .ground), ("config", .config), ("help", .help)]

/-! ### Reading -/

/-- The shapes of an argument. -/
inductive Shape where
  /-- Two dashes and a name, with what follows an equals sign. -/
  | long (name : String) (value : Option String)
  /-- One dash and a letter. -/
  | short (letter : Char)
  /-- Two dashes alone. -/
  | separator
  /-- Anything else. -/
  | word
deriving Repr, DecidableEq

/-- The shape of an argument. -/
def Shape.of (arg : String) : Shape :=
  match arg.toList with
  | ['-', '-'] => .separator
  | '-' :: '-' :: cs =>
    match Text.cutFirst '=' cs with
    | some (name, value) => .long (String.ofList name) (some (String.ofList value))
    | none => .long (String.ofList cs) none
  | '-' :: c :: _ => .short c
  | _ => .word

/-- What an option that is not one of the command's own asks for. -/
def demand (topic : Topic) (isHelp isVersion : Bool) : Stop :=
  if isHelp then .help topic
  else if isVersion ∧ topic = .program then .version
  else .misuse

/-- Reads options up to the end or up to the first word.  The word and what
follows it are returned. -/
def readOptions (topic : Topic) : List String → Given → Except Stop (Given × List String)
  | [], g => .ok (g, [])
  | arg :: rest, g =>
    match Shape.of arg with
    | .separator => if rest.isEmpty then .ok (g, []) else .error .misuse
    | .word => .ok (g, arg :: rest)
    | .short letter => .error (demand topic (letter == 'h') (letter == 'V'))
    | .long name value =>
      match topic.flags.lookup name, value, rest with
      | none, value, _ =>
        .error (demand topic (name == "help" && value.isNone) (name == "version" && value.isNone))
      | some .json, none, rest => do readOptions topic rest (← g.turnOn)
      | some flag, some value, rest => do readOptions topic rest (← g.put flag value)
      | some flag, none, value :: rest =>
        if Shape.of value = .word then do readOptions topic rest (← g.put flag value)
        else .error .misuse
      | some _, none, [] => .error .misuse

/-- Reads the options of a command, behind which no word may stand. -/
def readCommand (topic : Topic) (args : List String) : Except Stop Given := do
  match ← readOptions topic args .none with
  | (g, []) => return g
  | _ => throw .misuse

/-- Reads the words behind the command `help`. -/
def readHelp : List String → Stop
  | [] => .help .program
  | [name] =>
    match Topic.commands.lookup name with
    | some topic => .help topic
    | none => .misuse
  | _ => .misuse

/-- The task that the options of a command describe. -/
def taskOf (topic : Topic) (g : Given) : Except Stop Task :=
  match topic, g.problem with
  | .infer, some problem => .ok (.infer problem g.method g.output g.json)
  | .ground, some problem => .ok (.ground problem)
  | .config, _ => .ok (.config g.save)
  | _, _ => .error .misuse

/-- Reads the arguments of the program. -/
def read (args : List String) : Except Stop Command := do
  match ← readOptions .program args .none with
  | (_, []) => throw .misuse
  | (outer, name :: rest) =>
    match Topic.commands.lookup name with
    | none => throw .misuse
    | some .help => throw (readHelp rest)
    | some topic =>
      let inner ← readCommand topic rest
      return ⟨inner.config <|> outer.config, ← taskOf topic inner⟩

end MarkovLogic.CommandLine
