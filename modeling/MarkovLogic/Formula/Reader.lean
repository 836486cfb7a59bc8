/-
MarkovLogic/Formula/Reader.lean

Reading formulas.

A literal is an optional `!`, a name, and optionally a list of terms in
parentheses; blanks may stand around every part.  A name holds no blank, no
parenthesis and no comma; a term holds no blank and no parenthesis.  A term
that begins with a lowercase letter is a variable, every other term is a
constant.  A signature is a name and an arity on the two sides of the last
slash.
-/
import MarkovLogic.Decimal.Reading
import MarkovLogic.Formula
import MarkovLogic.Text.Blank
import MarkovLogic.Text.Lowercase

namespace MarkovLogic

open Text

/-- Reads a term from a text without blanks around it. -/
def Term.ofChars? (cs : List Char) : Option Term :=
  match cs with
  | [] => none
  | c :: _ =>
    if cs.any fun d => isBlank d || d == '(' || d == ')' then none
    else if isLowercase c then some (.var (String.ofList cs))
    else some (.constant (String.ofList cs))

/-- Reads the terms between the parentheses; a blank text is the empty list. -/
def Term.listOfChars? (cs : List Char) : Option (List Term) :=
  if (trim cs).isEmpty then some []
  else (splitOn ',' cs).mapM fun piece => Term.ofChars? (trim piece)

/-- Whether a text is the name of a predicate. -/
def isPredicateName (cs : List Char) : Bool :=
  !cs.isEmpty && cs.all fun c => !(isBlank c || c == ')' || c == ',')

/-- Reads an atom from a text without blanks around it. -/
def Atom.ofChars? (cs : List Char) : Option Atom := do
  let (name, terms) ← match cutFirst '(' cs with
    | none => some (cs, [])
    | some (name, rest) => do
      let inner ← dropSuffixChar ')' rest
      let terms ← Term.listOfChars? inner
      some (name, terms)
  let name := trim name
  if isPredicateName name then some ⟨String.ofList name, terms⟩ else none

/-- Reads a literal. -/
def Literal.ofChars? (cs : List Char) : Option Literal :=
  match trim cs with
  | '!' :: rest => (Atom.ofChars? (trimStart rest)).map fun a => ⟨false, a⟩
  | rest => (Atom.ofChars? rest).map fun a => ⟨true, a⟩

/-- Reads a literal. -/
def Literal.read? (text : String) : Option Literal :=
  Literal.ofChars? text.toList

/-- Reads a signature. -/
def Signature.ofChars? (cs : List Char) : Option Signature := do
  let (name, arity) ← cutLast '/' (trim cs)
  let arity ← Decimal.readNat? (trim arity)
  let name := trim name
  if name.isEmpty then none else some ⟨String.ofList name, arity⟩

/-- Reads a signature. -/
def Signature.read? (text : String) : Option Signature :=
  Signature.ofChars? text.toList

end MarkovLogic
