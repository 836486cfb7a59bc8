/-
MarkovLogic/CommandLine/Disk.lean

The program on files in memory.

A disk is a tree of directories and texts, held as the list of its files and
of its directories, each by the names on the way to it.  A name of a file is
looked up from the root: an empty step and a single dot stay where they are,
two dots lead back, and every step needs a directory to start from.
`Disk.execute` is the whole program as a function of its arguments and the
disk.
-/
import MarkovLogic.CommandLine

namespace MarkovLogic.CommandLine

/-- The names on the way from the root. -/
abbrev Route := List String

/-- Files in memory. -/
structure Disk where
  files : List (Route × String)
  /-- Directories, besides those on the way to a file. -/
  directories : List Route
deriving Repr, DecidableEq, Inhabited

namespace Disk

/-- The steps of a path. -/
def steps (path : String) : Route :=
  (Text.splitOn '/' path.toList).map String.ofList

/-- Whether a directory is there. -/
def isDirectory (d : Disk) (route : Route) : Bool :=
  route.isEmpty || d.directories.contains route ||
    d.files.any fun (file, _) => route.isPrefixOf file && route.length < file.length

/-- Follows steps from a directory; the last one may lead to nothing. -/
def follow? (d : Disk) : Route → List String → Option Route
  | here, [] => some here
  | here, step :: steps =>
    if !d.isDirectory here then none
    else if step = "" ∨ step = "." then follow? d here steps
    else if step = ".." then if here.isEmpty then none else follow? d here.dropLast steps
    else follow? d (here ++ [step]) steps

/-- Where a path leads.  Paths are relative. -/
def locate? (d : Disk) (path : String) : Option Route :=
  if path.startsWith "/" then none else d.follow? [] (steps path)

/-- The text of a file. -/
def read? (d : Disk) (path : String) : Option String := do
  d.files.lookup (← d.locate? path)

/-- Writes a file into a directory that is there. -/
def write? (d : Disk) (path text : String) : Option Disk := do
  let route ← d.locate? path
  guard (!d.isDirectory route)
  return { d with files := (route, text) :: d.files.filter fun (file, _) => file != route }

/-- Makes a directory, if nothing else is in its place. -/
def makeDirectory? (d : Disk) (route : Route) : Option Disk :=
  if d.isDirectory route then some d
  else if (d.files.lookup route).isSome then none
  else some { d with directories := route :: d.directories }

/-- Follows steps and makes the directories that are missing. -/
def makeDirectories? (d : Disk) : Route → List String → Option Disk
  | _, [] => some d
  | here, step :: steps =>
    if step = "" ∨ step = "." then makeDirectories? d here steps
    else if step = ".." then if here.isEmpty then none else makeDirectories? d here.dropLast steps
    else do makeDirectories? (← d.makeDirectory? (here ++ [step])) (here ++ [step]) steps

/-- The steps to the directory of a path. -/
def parentSteps (path : String) : Route :=
  ((steps path).filter fun step => step != "" && step != ".").dropLast

/-- Makes the directories on the way to a file. -/
def makeParents? (d : Disk) (path : String) : Option Disk :=
  if path.startsWith "/" then none else d.makeDirectories? [] (parentSteps path)

/-- Writes a file as it is asked for. -/
def deliver? (d : Disk) (delivery : Delivery) : Option Disk := do
  let d ← if delivery.makeParents then d.makeParents? delivery.path else some d
  d.write? delivery.path delivery.text

/-- Runs a command. -/
def run (d : Disk) (command : Command) : Exit × Disk :=
  match respond d.read? command with
  | .error failure => (.failed "" failure, d)
  | .ok ⟨stdout, none⟩ => (.success stdout, d)
  | .ok ⟨stdout, some delivery⟩ =>
    match d.deliver? delivery with
    | none => (.failed stdout delivery.failure, d)
    | some d => (.success stdout, d)

/-- Runs the program. -/
def execute (d : Disk) (args : List String) : Exit × Disk :=
  match read args with
  | .error stop => (.ofStop stop, d)
  | .ok command => d.run command

end Disk

end MarkovLogic.CommandLine
