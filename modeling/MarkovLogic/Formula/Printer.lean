/-
MarkovLogic/Formula/Printer.lean

The written form of formulas.

An atom is its symbol followed by its arguments in parentheses, separated by
commas and without blanks; a negated literal has `!` in front; a signature is
`symbol/arity`.  A clause is its weight followed by its literals joined by
` v `.  A clause that has to hold ends in a full stop instead of carrying a
weight, and one that has to fail begins with `-inf`.
-/
import MarkovLogic.Decimal.Layout
import MarkovLogic.Formula
import MarkovLogic.Text.Blank

namespace MarkovLogic

/-- Writes `symbol/arity`. -/
def Signature.text (s : Signature) : String :=
  s.symbol ++ "/" ++ toString s.arity

/-- Writes `Symbol(t1,t2)`; an atom without arguments keeps its parentheses. -/
def Atom.text (a : Atom) : String :=
  a.symbol ++ "(" ++ Text.join "," (a.terms.map Term.name) ++ ")"

/-- Writes a literal. -/
def Literal.text (l : Literal) : String :=
  (if l.positive then "" else "!") ++ l.atom.text

/-- Writes a clause. -/
def Clause.text (c : Clause Float) : String :=
  let literals := Text.join " v " (c.literals.map Literal.text)
  if c.isHard then
    if c.weight < 0 then "-inf " ++ literals else literals ++ "."
  else Decimal.Layout.message.print c.weight ++ " " ++ literals

end MarkovLogic
