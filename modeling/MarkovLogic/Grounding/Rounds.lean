/-
MarkovLogic/Grounding/Rounds.lean

Grounding a model, round by round.

At first only the unknown atoms that are asked about are of interest.  Each
round grounds the clauses that mention a predicate with atoms of interest and
keeps the ground clauses that touch such an atom; the other atoms of these
become of interest too.  The first round that brings no new atom is the last,
and its ground clauses make up the network.  A bound on the number of rounds
can cut the expansion short.
-/
import MarkovLogic.Clique.Register
import MarkovLogic.Grounding.Harvest
import MarkovLogic.Network

namespace MarkovLogic.Grounding

/-- What a grounding run did. -/
structure Summary where
  rounds : Nat
  /-- The counts of the last round. -/
  counts : Counts
  /-- The number of atoms of interest. -/
  interestAtoms : Nat
  /-- Whether the bound on the rounds cut the expansion short. -/
  truncated : Bool
deriving Repr, DecidableEq

/-- How a model is grounded. -/
structure Settings where
  options : Options
  /-- The number of partitions of the register. -/
  partitions : Nat
  /-- The largest number of rounds, at least one. -/
  maxRounds : Nat
  /-- The key function of the register. -/
  key : List Int → UInt64

variable {α : Type} [Scalar α]

/-- Prepares every clause of a model. -/
def templates (m : Model α) : Except GroundingError (List (Template α)) :=
  m.clauses.toList.zipIdx.mapM fun (c, i) => Template.make m i c

/-- Whether a clause mentions one of the given predicates. -/
def isRelevant (m : Model α) (signatures : SignatureSet) (t : Template α) : Bool :=
  match m.clauses[t.clause]? with
  | none => false
  | some c => c.literals.any fun l => signatures.contains l.atom.signature

/-- What one round brings in. -/
structure Round (α : Type) where
  register : Register α
  counts : Counts
  /-- The atoms that were not of interest before. -/
  discovered : Std.HashSet Nat

/-- Adds the harvest of one clause to a round. -/
def Round.add (interest : Std.HashSet Nat) (r : Round α) (h : Harvest α) : Round α where
  register := r.register.insertAll h.entries.toList
  counts := r.counts.add h.counts
  discovered := r.discovered.insertMany (h.atoms.toList.filter fun id => !interest.contains id)

/-- Grounds the given clauses once. -/
def Round.run (settings : Settings) (ts : List (Template α)) (interest : Std.HashSet Nat) :
    Round α :=
  ts.foldl (fun r t => r.add interest (harvest t settings.options interest.contains))
    ⟨.empty settings.key settings.partitions, .zero, ∅⟩

/-- The predicates of the given atoms. -/
def signaturesOf (m : Model α) (ids : List Nat) : List Signature :=
  ids.filterMap fun id => (m.base.owner? id).map Herbrand.Block.signature

/-- The result of the rounds: the last register, the number of rounds, its
counts, the atoms of interest, and whether the expansion was cut short. -/
structure Expansion (α : Type) where
  register : Register α
  rounds : Nat
  counts : Counts
  interest : Std.HashSet Nat
  truncated : Bool

/-- Runs rounds until no new atom is found; `left` more rounds may follow the
next one. -/
def expand (m : Model α) (settings : Settings) (ts : List (Template α)) :
    (left rounds : Nat) → Std.HashSet Nat → SignatureSet → Expansion α
  | left, rounds, interest, signatures =>
    let round := Round.run settings (ts.filter (isRelevant m signatures)) interest
    if round.discovered.isEmpty then
      ⟨round.register, rounds + 1, round.counts, interest, false⟩
    else
      let discovered := round.discovered.toList
      let interest' := interest.insertMany discovered
      match left with
      | 0 => ⟨round.register, rounds + 1, round.counts, interest', true⟩
      | left + 1 =>
        expand m settings ts left (rounds + 1) interest'
          (signatures.insertMany (signaturesOf m discovered))

/-- Grounds a model. -/
def run (m : Model α) (settings : Settings) :
    Except GroundingError (Network α × Summary) := do
  let ts ← templates m
  let queried := m.unknownQueryAtoms
  let e := expand m settings ts (settings.maxRounds - 1) 0 (Std.HashSet.ofList queried) m.query
  let net := Network.assemble e.register.cliques queried m.base.queryRange
  return (net, ⟨e.rounds, e.counts, e.interest.size, e.truncated⟩)

end MarkovLogic.Grounding
