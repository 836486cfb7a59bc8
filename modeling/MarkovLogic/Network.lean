/-
MarkovLogic/Network.lean

Ground networks: the atoms and constraints that inference works on.

A constraint is a disjunction of literals over the atoms of the network.  It is
hard or soft.  A hard constraint has to hold.  A soft one of positive weight
should hold, and one of negative weight should fail; the absolute value of the
weight is the price of the opposite.  Each violated hard constraint is priced
at more than all soft weights together, so that of two assignments the one
that violates fewer hard constraints is the cheaper one.

Atoms are numbered densely, in the order in which the constraints mention
them, and each atom lists the constraints where it occurs.
-/
import MarkovLogic.Clique
import Std.Data.HashMap

namespace MarkovLogic

/-- How much a constraint matters. -/
inductive Strength (α : Type) where
  | hard
  | soft (weight : α)
deriving Repr, DecidableEq

/-- A literal over an atom of the network. -/
structure NetLiteral where
  atom : Nat
  positive : Bool
deriving Repr, DecidableEq, Inhabited

/-- A constraint of the network. -/
structure Constraint (α : Type) where
  key : UInt64
  strength : Strength α
  /-- The literals as signed atom numbers. -/
  literals : List Int
  /-- The same literals over the atoms of the network. -/
  lits : List NetLiteral
  /-- The clauses it comes from, with frequencies. -/
  dependencies : List (Nat × Int)
deriving Repr, DecidableEq

/-- An atom of the network with the constraints where it occurs. -/
structure Node where
  /-- The number of the ground atom. -/
  id : Nat
  /-- The constraints with the atom as a positive literal. -/
  positive : Array Nat
  /-- The constraints with the atom as a negative literal. -/
  negative : Array Nat
deriving Repr, DecidableEq, Inhabited

/-- A ground network. -/
structure Network (α : Type) where
  constraints : Array (Constraint α)
  nodes : Array Node
  /-- The place of each ground atom among the nodes. -/
  index : Std.HashMap Nat Nat
  /-- The first and the last number of an atom that is asked about. -/
  queryRange : Option (Nat × Nat)
  /-- The price of a violated hard constraint. -/
  hardWeight : α
  /-- The length of the longest constraint. -/
  maxLiterals : Nat

/-! ### Constraints -/

namespace Constraint

variable {α : Type}

/-- Whether the constraint is hard. -/
def isHard (c : Constraint α) : Bool :=
  match c.strength with
  | .hard => true
  | .soft _ => false

/-- Whether the constraint has exactly one literal. -/
def isUnit (c : Constraint α) : Bool :=
  c.lits.length == 1

/-- Whether the constraint should hold rather than fail. -/
def isPositive [Scalar α] (c : Constraint α) : Bool :=
  match c.strength with
  | .hard => true
  | .soft w => decide (0 < w)

/-- Whether the constraint costs something when so many of its literals are
true. -/
def isViolated [Scalar α] (c : Constraint α) (trueLiterals : Nat) : Bool :=
  decide (1 ≤ trueLiterals) != c.isPositive

/-- The number of literals that an assignment makes true. -/
def countTrue (c : Constraint α) (assignment : Array Bool) : Nat :=
  c.lits.countP fun l => assignment.getD l.atom false == l.positive

end Constraint

namespace Node

/-- The number of occurrences. -/
def degree (n : Node) : Nat :=
  n.positive.size + n.negative.size

/-- The constraints where the atom occurs, the positive occurrences first. -/
def occurrences (n : Node) : List Nat :=
  n.positive.toList ++ n.negative.toList

end Node

namespace Network

variable {α : Type} [Scalar α]

/-! ### Assembly -/

/-- A network without constraints and atoms; the price of hard constraints is
still to be set. -/
def blank (queryRange : Option (Nat × Nat)) : Network α :=
  ⟨#[], #[], ∅, queryRange, 0, 0⟩

/-- The place of a ground atom, at the end if it is new. -/
def intern (net : Network α) (id : Nat) : Nat × Network α :=
  match net.index[id]? with
  | some place => (place, net)
  | none =>
    let place := net.nodes.size
    (place, { net with nodes := net.nodes.push ⟨id, #[], #[]⟩, index := net.index.insert id place })

/-- Enters one literal of the constraint with the given index. -/
def addLiteral (constraint : Nat) (net : Network α) (l : Int) : NetLiteral × Network α :=
  let (place, net) := net.intern l.natAbs
  let positive := decide (0 < l)
  let enter (n : Node) : Node :=
    if positive then { n with positive := n.positive.push constraint }
    else { n with negative := n.negative.push constraint }
  (⟨place, positive⟩, { net with nodes := net.nodes.modify place enter })

/-- Enters the literals of the constraint with the given index. -/
def addLiterals (constraint : Nat) : List Int → Network α → List NetLiteral × Network α
  | [], net => ([], net)
  | l :: ls, net =>
    let (lit, net) := addLiteral constraint net l
    let (lits, net) := addLiterals constraint ls net
    (lit :: lits, net)

/-- The strength of a constraint with a given weight. -/
def strengthOf (weight : α) : Strength α :=
  if Scalar.isInfinite weight then .hard else .soft weight

/-- Enters a clique, unless its weight came out as zero or it has no
literals. -/
def addClique (net : Network α) (entry : UInt64 × Clique α) : Network α :=
  let (key, clique) := entry
  if clique.weight == 0 || clique.literals.isEmpty then net
  else
    let (lits, net) := addLiterals net.constraints.size clique.literals net
    let constraint : Constraint α :=
      ⟨key, strengthOf clique.weight, clique.literals, lits, clique.dependencies⟩
    { net with
      constraints := net.constraints.push constraint
      maxLiterals := max net.maxLiterals lits.length }

/-- The sum of the soft weights without their signs. -/
def softTotal (constraints : List (Constraint α)) : α :=
  constraints.foldl (fun acc c => match c.strength with
    | .hard => acc
    | .soft w => acc + Scalar.abs w) 0

/-- Assembles a network from cliques and from atoms that are in it in any
case. -/
def assemble (cliques : List (UInt64 × Clique α)) (extra : List Nat)
    (queryRange : Option (Nat × Nat)) : Network α :=
  let net := cliques.foldl addClique (blank queryRange)
  let net := extra.foldl (fun net id => (net.intern id).2) net
  { net with hardWeight := softTotal net.constraints.toList + 1 }

/-! ### Costs -/

/-- The number of atoms. -/
def atomCount (net : Network α) : Nat :=
  net.nodes.size

/-- The number of hard constraints. -/
def hardCount (net : Network α) : Nat :=
  net.constraints.countP Constraint.isHard

/-- The place of a ground atom. -/
def find? (net : Network α) (id : Nat) : Option Nat :=
  net.index[id]?

/-- The price of violating a constraint. -/
def price (net : Network α) (c : Constraint α) : α :=
  match c.strength with
  | .hard => net.hardWeight
  | .soft w => Scalar.abs w

/-- The cost of an assignment: the prices of the constraints it violates. -/
def evaluate (net : Network α) (assignment : Array Bool) : α :=
  Scalar.sum <| (net.constraints.toList.filter fun c => c.isViolated (c.countTrue assignment)).map
    net.price

/-- The number of hard constraints that an assignment violates. -/
def hardViolations (net : Network α) (assignment : Array Bool) : Nat :=
  net.constraints.countP fun c => c.isHard && c.countTrue assignment == 0

end Network

end MarkovLogic
