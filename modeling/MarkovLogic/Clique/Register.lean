/-
MarkovLogic/Clique/Register.lean

The register of ground clauses.

A register collects entries into cliques.  It is split into partitions: the
key of a set of literals, taken modulo the number of partitions, says where
the set is filed, and within a partition sets are filed under their key.  Two
sets with the same key stay apart.  For each set the entries of one clause are
added up in the order in which they arrive, and the sums of the clauses are
added up in the order of the clauses when the weight is read.  The very first
entry over a set is stored as it is, while the first entries of further
clauses are added to zero.  So the result depends neither on how the entries
of different clauses interleave nor on the number of partitions, even where
addition is not associative, as long as adding to zero changes nothing.

The key function is a parameter of the register.
-/
import MarkovLogic.Clique
import MarkovLogic.Clique.Key
import Std.Data.HashMap

namespace MarkovLogic

/-- What the entries of one clause add up to. -/
structure Share (α : Type) where
  clause : Nat
  frequency : Int
  total : α
deriving Repr, DecidableEq

/-- The share of a single entry. -/
def Share.ofEntry {α : Type} [Scalar α] (e : Entry α) : Share α :=
  ⟨e.clause, e.frequency, e.contribution⟩

/-- A clique in the making: its literals and the shares of its clauses, by
increasing index. -/
structure Tally (α : Type) where
  literals : List Int
  shares : List (Share α)
deriving Repr, DecidableEq

namespace Tally

variable {α : Type} [Scalar α]

/-- Adds an entry to the share of its clause, which starts from zero. -/
def addShare (e : Entry α) : List (Share α) → List (Share α)
  | [] => [⟨e.clause, 0 + e.frequency, 0 + e.contribution⟩]
  | s :: ss =>
    if e.clause < s.clause then ⟨e.clause, 0 + e.frequency, 0 + e.contribution⟩ :: s :: ss
    else if e.clause = s.clause then
      ⟨s.clause, s.frequency + e.frequency, s.total + e.contribution⟩ :: ss
    else s :: addShare e ss

/-- Files an entry among the tallies under one key.  The first entry over its
literals is stored and not added to anything. -/
def file (e : Entry α) : List (Tally α) → List (Tally α)
  | [] => [⟨e.literals, [.ofEntry e]⟩]
  | t :: ts =>
    if t.literals = e.literals then { t with shares := addShare e t.shares } :: ts
    else t :: file e ts

/-- The clique that the tally stands for. -/
def toClique (t : Tally α) : Clique α where
  literals := t.literals
  weight := Scalar.sum (t.shares.map Share.total)
  dependencies := t.shares.map fun s => (s.clause, s.frequency)

end Tally

/-- The register of ground clauses. -/
structure Register (α : Type) where
  /-- The key of a set of literals. -/
  key : List Int → UInt64
  /-- The partitions, each with its tallies by key. -/
  partitions : Array (Std.HashMap UInt64 (List (Tally α)))

namespace Register

variable {α : Type}

/-- An empty register with the given number of partitions, at least one. -/
def empty (key : List Int → UInt64) (partitions : Nat) : Register α :=
  ⟨key, Array.replicate (max partitions 1) ∅⟩

/-- The partition that a key belongs to. -/
def partitionOf (r : Register α) (key : UInt64) : Nat :=
  key.toNat % r.partitions.size

/-- Adds an entry. -/
def insert [Scalar α] (r : Register α) (e : Entry α) : Register α :=
  let key := r.key e.literals
  { r with partitions := r.partitions.modify (r.partitionOf key) fun slots =>
      slots.insert key (Tally.file e (slots.getD key [])) }

/-- Adds entries one after the other. -/
def insertAll [Scalar α] (r : Register α) (es : List (Entry α)) : Register α :=
  es.foldl insert r

/-- The tallies with their keys, in no particular order. -/
def tallies (r : Register α) : List (UInt64 × Tally α) :=
  r.partitions.toList.flatMap fun slots =>
    slots.toList.flatMap fun (key, ts) => ts.map fun t => (key, t)

/-- The number of ground clauses. -/
def size (r : Register α) : Nat :=
  r.partitions.foldl (fun n slots => slots.fold (fun n _ ts => n + ts.length) n) 0

/-- Whether there is no ground clause. -/
def isEmpty (r : Register α) : Bool :=
  r.partitions.all fun slots => slots.isEmpty

/-- The clique over the given literals, in any order. -/
def find? [Scalar α] (r : Register α) (literals : List Int) : Option (Clique α) :=
  let literals := literalSet literals
  let key := r.key literals
  let slots := r.partitions.getD (r.partitionOf key) ∅
  ((slots.getD key []).find? fun t => t.literals = literals).map Tally.toClique

/-- The order of cliques: by key, then by their literals. -/
def order (a b : UInt64 × Clique α) : Ordering :=
  (compare a.1 b.1).then (compare a.2.literals b.2.literals)

/-- The cliques with their keys, in order. -/
def cliques [Scalar α] (r : Register α) : List (UInt64 × Clique α) :=
  (r.tallies.map fun (key, t) => (key, t.toClique)).mergeSort fun a b => (order a b).isLE

/-- Describes the register for people to read. -/
def listing (r : Register α) : String :=
  "CliqueRegistry \x7b partitions: " ++ toString r.partitions.size ++ ", cliques: " ++
    toString r.size ++ " \x7d"

end Register

end MarkovLogic
