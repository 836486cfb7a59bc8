/-
MarkovLogic/Main.lean

The program on real files.
-/
import MarkovLogic.CommandLine

namespace MarkovLogic.CommandLine

/-- The text of a file, if it can be read. -/
def readFile? (path : String) : IO (Option String) := do
  match ← (IO.FS.readFile path).toBaseIO with
  | .ok text => return some text
  | .error _ => return none

/-- The directory in which a path lies, if the path names one. -/
def parentOf? (path : String) : Option String :=
  (Text.cutLast '/' path.toList).map fun (parent, _) => String.ofList parent

/-- Makes the directories on the way to a file. -/
def makeParentsOf (path : String) : IO Unit := do
  match parentOf? path with
  | none => return
  | some "" => return
  | some parent => IO.FS.createDirAll parent

/-- Writes a file as it is asked for; whether this worked. -/
def deliver (delivery : Delivery) : IO Bool := do
  let work : IO Unit := do
    if delivery.makeParents then makeParentsOf delivery.path
    IO.FS.writeFile delivery.path delivery.text
  match ← work.toBaseIO with
  | .ok () => return true
  | .error _ => return false

/-- Reads the files that a command needs and answers it. -/
def runCommand (command : Command) : IO Exit := do
  let texts ← command.reads.mapM fun path => do return (path, ← readFile? path)
  match respond (fun path => (texts.lookup path).join) command with
  | .error failure => return .failed "" failure
  | .ok response =>
    match response.delivery with
    | none => return .success response.stdout
    | some delivery =>
      if ← deliver delivery then return .success response.stdout
      else return .failed response.stdout delivery.failure

/-- Prints what the program answers, an error on standard error. -/
def Exit.print (exit : Exit) : IO Unit := do
  IO.print exit.stdout
  match exit.failure with
  | none => return
  | some failure =>
    match failure.code? with
    | none => IO.eprintln failure.message
    | some code => IO.eprintln (code ++ ": " ++ failure.message)

/-- The whole program. -/
def program (args : List String) : IO Exit :=
  match read args with
  | .error stop => return .ofStop stop
  | .ok command => runCommand command

end MarkovLogic.CommandLine

/-- Runs the program. -/
def main (args : List String) : IO UInt32 := do
  let exit ← MarkovLogic.CommandLine.program args
  exit.print
  return UInt32.ofNat exit.status
