/-
MarkovLogic/Grounding/Template.lean

Clauses prepared for grounding.

Before its variables run through their domains, a clause is prepared once.
Each literal is resolved to the evidence about its predicate or to the rule
that computes it.  The literals are put in order, closed worlds first, then
computed predicates, then open worlds, and each variable becomes a digit of an
odometer: the variable that appears first is the most significant digit.  A
variable takes its domain from the first argument where it stands for a
constant of some type; a variable that stands in computed atoms only has no
domain, and its clause cannot be grounded.

Every literal knows its pivot, the least significant digit that it depends on,
and the literals with the most significant pivots are asked first: when one of
them decides the clause, all combinations that agree from its pivot on are
decided with it.
-/
import MarkovLogic.Clique
import MarkovLogic.Model

namespace MarkovLogic.Grounding

/-- Why a clause cannot be grounded. -/
inductive GroundingError where
  /-- The weight of the clause is not a number. -/
  | nanWeight (clause : Nat)
  /-- The predicate is neither declared nor computed by a rule. -/
  | unsupported (signature : Signature)
  /-- The variable has no domain. -/
  | untyped (name : String) (clause : Nat)
deriving Repr, DecidableEq

/-! ### Resolving literals -/

/-- Where the truth of an atom comes from. -/
inductive Source where
  | stored (evidence : Evidence)
  | computed (rule : Rule)

/-- A literal with the source of its truth. -/
structure Resolved where
  literal : Literal
  source : Source

/-- Finds the source of a literal.  A declared predicate is looked up even if
there is a rule for it. -/
def resolve {α : Type} (m : Model α) (l : Literal) : Except GroundingError Resolved :=
  let signature := l.atom.signature
  match m.evidenceOf? signature with
  | some e => .ok ⟨l, .stored e⟩
  | none =>
    match m.kb.computed.rule? signature with
    | some (some rule) => .ok ⟨l, .computed rule⟩
    | _ => .error (.unsupported signature)

namespace Resolved

/-- Closed worlds come before computed predicates, and these before open
worlds. -/
def rank (r : Resolved) : Nat :=
  match r.source with
  | .stored e => if e.assumption = .closed then 0 else 2
  | .computed _ => 1

/-- Literals are asked by rank, then by their number of arguments. -/
def before (a b : Resolved) : Bool :=
  a.rank < b.rank ||
    (a.rank == b.rank && a.literal.atom.terms.length ≤ b.literal.atom.terms.length)

/-- The arguments with the domains they range over; a computed atom has no
domains. -/
def typedTerms (r : Resolved) : List (Term × Domain) :=
  match r.source with
  | .stored e => r.literal.atom.terms.zip e.block.domains
  | .computed _ => []

end Resolved

/-! ### Digits -/

/-- A variable with its domain: one digit of the odometer. -/
structure Digit where
  name : String
  domain : Domain

/-- The variables, the most significant digit first. -/
def variablesOf (rs : List Resolved) : List String :=
  (rs.flatMap fun r => r.literal.atom.vars).eraseDups

/-- The domain of a variable: that of the first argument where it stands. -/
def domainOf? (rs : List Resolved) (name : String) : Option Domain :=
  (rs.flatMap Resolved.typedTerms).findSome? fun (t, d) => if t = .var name then some d else none

/-- The digits, the least significant first. -/
def digitsOf (clause : Nat) (rs : List Resolved) : Except GroundingError (List Digit) :=
  (variablesOf rs).reverse.mapM fun name =>
    match domainOf? rs name with
    | some domain => .ok ⟨name, domain⟩
    | none => .error (.untyped name clause)

/-- The position of the digit of a variable. -/
def positionOf (digits : List Digit) (name : String) : Nat :=
  digits.findIdx fun d => d.name == name

/-! ### Prepared literals -/

/-- An argument of an atom that is looked up, as a position in its domain. -/
inductive IndexSlot where
  /-- The value of a digit; `places` gives for each value its position in the
  domain of the argument, which may differ from the domain of the variable. -/
  | digit (position : Nat) (places : Array (Option Nat))
  /-- A constant; `none` if it is not in the domain. -/
  | fixed (index : Option Nat)

/-- An argument of an atom that is computed, as a name. -/
inductive NameSlot where
  /-- The name that the value of a digit stands for. -/
  | digit (position : Nat) (domain : Domain)
  /-- A constant. -/
  | fixed (name : String)

/-- How the truth of a literal's atom is found out. -/
inductive Test where
  | lookUp (evidence : Evidence) (arguments : List IndexSlot)
  | compute (rule : Rule) (arguments : List NameSlot)

/-- A prepared literal. -/
structure Probe where
  positive : Bool
  test : Test
  /-- The least significant digit that the literal depends on; the number of
  digits if it depends on none. -/
  pivot : Nat

/-- The argument of an atom that is looked up. -/
def indexSlot (digits : List Digit) (t : Term) (domain : Domain) : IndexSlot :=
  match t with
  | .constant c => .fixed (domain.find? c)
  | .var v =>
    let position := positionOf digits v
    match digits[position]? with
    | some d => .digit position (d.domain.names.map domain.find?)
    | none => .fixed none

/-- The argument of an atom that is computed. -/
def nameSlot (digits : List Digit) (t : Term) : NameSlot :=
  match t with
  | .constant c => .fixed c
  | .var v =>
    let position := positionOf digits v
    match digits[position]? with
    | some d => .digit position d.domain
    | none => .digit position .empty

/-- The least significant digit among the variables of an atom. -/
def pivotOf (digits : List Digit) (a : Atom) : Nat :=
  (a.vars.map (positionOf digits)).foldl min digits.length

/-- Prepares a literal. -/
def probe (digits : List Digit) (r : Resolved) : Probe where
  positive := r.literal.positive
  test := match r.source with
    | .stored e => .lookUp e (r.typedTerms.map fun (t, d) => indexSlot digits t d)
    | .computed rule => .compute rule (r.literal.atom.terms.map (nameSlot digits))
  pivot := pivotOf digits r.literal.atom

/-! ### Templates -/

/-- A clause prepared for grounding. -/
structure Template (α : Type) where
  /-- The index of the clause. -/
  clause : Nat
  weight : α
  /-- The variables with their domains, the least significant digit first. -/
  digits : List Digit
  /-- The literals in the order in which they are asked. -/
  probes : List Probe

namespace Template

variable {α : Type} [Scalar α]

/-- Prepares a clause of a model. -/
def make (m : Model α) (index : Nat) (c : Clause α) : Except GroundingError (Template α) := do
  if Scalar.isNaN c.weight then throw (.nanWeight index)
  let resolved ← c.literals.mapM (resolve m)
  let ordered := resolved.mergeSort Resolved.before
  let digits ← digitsOf index ordered
  let probes := (ordered.map (probe digits)).mergeSort fun a b => b.pivot ≤ a.pivot
  return ⟨index, c.weight, digits, probes⟩

/-- The variables, the most significant first. -/
def vars (t : Template α) : List String :=
  (t.digits.map Digit.name).reverse

/-- The sizes of the domains, the least significant digit first. -/
def radices (t : Template α) : List Nat :=
  t.digits.map fun d => d.domain.size

/-- The number of substitutions. -/
def space (t : Template α) : Nat :=
  t.radices.foldl (· * ·) 1

end Template

end MarkovLogic.Grounding
