/-
MarkovLogic/Herbrand/Base.lean

Numbering all ground atoms.

The ground atoms of a schema are numbered from `1` on, predicate by predicate,
each predicate taking one block of consecutive numbers.  The predicates that
are asked about come first, so that their atoms are exactly an initial
segment; within the two groups the order is that of the signatures.  The
number `0` is no atom's, so an atom and its negation can be written as a
number and its negative.
-/
import MarkovLogic.Herbrand.Block

namespace MarkovLogic.Herbrand

/-- The numbering of all ground atoms of a schema. -/
structure Base where
  /-- The blocks in the order of their numbers. -/
  blocks : List Block
  /-- The first number that is not in use. -/
  next : Nat
  /-- The first and the last number of an atom that is asked about. -/
  queryRange : Option (Nat × Nat)

namespace Base

/-- Appends the blocks of the given predicates one after the other. -/
def layOut (start : Nat) : List (Signature × List Domain) → Except NumberingError (List Block × Nat)
  | [] => .ok ([], start)
  | (signature, domains) :: rest => do
    let block ← Block.make signature start domains
    let (blocks, next) ← layOut block.stop rest
    return (block :: blocks, next)

/-- Numbers the atoms of a schema, those of the predicates in `isQuery`
first. -/
def build (schema : List (Signature × List Domain)) (isQuery : Signature → Bool) :
    Except NumberingError Base := do
  let (queried, queryEnd) ← layOut 1 (schema.filter fun p => isQuery p.1)
  let (others, next) ← layOut queryEnd (schema.filter fun p => !isQuery p.1)
  let queryRange := if 1 < queryEnd then some (1, queryEnd - 1) else none
  return ⟨queried ++ others, next, queryRange⟩

/-- The number of ground atoms. -/
def atomCount (b : Base) : Nat :=
  b.next - 1

/-- The block of a predicate. -/
def find? (b : Base) (signature : Signature) : Option Block :=
  b.blocks.find? fun block => block.signature == signature

/-- The block of a predicate, or the reason why there is none. -/
def get (b : Base) (signature : Signature) : Except NumberingError Block :=
  match b.find? signature with
  | some block => .ok block
  | none => .error (.unknownSignature signature)

/-- The number of an atom. -/
def encode? (b : Base) (signature : Signature) (constants : List String) : Option Nat := do
  (← b.find? signature).encode? constants

/-- The block that a number belongs to. -/
def owner? (b : Base) (id : Nat) : Option Block :=
  b.blocks.find? fun block => block.contains id

/-- The block that a number belongs to, or the reason why there is none. -/
def owner (b : Base) (id : Nat) : Except NumberingError Block :=
  match b.owner? id with
  | some block => .ok block
  | none => .error (.unknownId id)

/-- The atom with a given number. -/
def decode (b : Base) (id : Nat) : Except NumberingError (Signature × List String) := do
  let block ← b.owner id
  match block.decode? id with
  | some constants => return (block.signature, constants)
  | none => throw (.unknownId id)

/-- Whether a number is that of an atom that is asked about. -/
def isQueryAtom (b : Base) (id : Nat) : Bool :=
  match b.queryRange with
  | some (first, last) => first ≤ id && id ≤ last
  | none => false

/-- The blocks in the order of their signatures. -/
def bySignature (b : Base) : List Block :=
  b.blocks.mergeSort fun x y => (compare x.signature y.signature).isLE

end Base

end MarkovLogic.Herbrand
