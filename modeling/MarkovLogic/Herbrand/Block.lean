/-
MarkovLogic/Herbrand/Block.lean

Numbering the ground atoms of one predicate.

The ground atoms of a predicate with argument domains of sizes `n₁, …, nₖ`
are the tuples of positions `(i₁, …, iₖ)` with each `iⱼ < nⱼ`.  Read as digits
of a mixed-radix number, the last argument turning fastest, they are numbered
from `0` to `n₁ ⋯ nₖ - 1` without gaps (`rank?`, `unrank`).  A block adds the
first number of the predicate to these.

Numbers of ground atoms are used as signed literals of 32 bits, so a block is
refused when it reaches past the largest of them (`Block.make`).
-/
import MarkovLogic.Domain
import MarkovLogic.Formula

namespace MarkovLogic.Herbrand

/-! ### Tuples of positions -/

/-- The number of tuples over argument domains of the given sizes. -/
def volume : List Nat → Nat
  | [] => 1
  | n :: ns => n * volume ns

/-- The number of a tuple among all tuples, if each position is in range. -/
def rank? : List Nat → List Nat → Option Nat
  | [], [] => some 0
  | n :: ns, i :: is => if i < n then (rank? ns is).map (i * volume ns + ·) else none
  | _, _ => none

/-- The tuple with a given number. -/
def unrank : List Nat → Nat → List Nat
  | [], _ => []
  | _ :: ns, r => r / volume ns :: unrank ns (r % volume ns)

/-! ### Blocks -/

/-- Why the ground atoms cannot be numbered, or an atom or a number is not
known to the numbering. -/
inductive NumberingError where
  /-- The atoms of the predicate reach past the largest number: where they
  would begin and how many numbers the rightmost arguments need at least. -/
  | overflow (signature : Signature) (start required : Nat)
  /-- No atom has this number. -/
  | unknownId (id : Nat)
  /-- No atom of this predicate is numbered. -/
  | unknownSignature (signature : Signature)
deriving Repr, DecidableEq

/-- The numbers of one predicate's ground atoms: consecutive, from `start` on. -/
structure Block where
  signature : Signature
  start : Nat
  domains : List Domain

namespace Block

/-- The sizes of the argument domains. -/
def sizes (b : Block) : List Nat :=
  b.domains.map Domain.size

/-- The number of ground atoms. -/
def size (b : Block) : Nat :=
  volume b.sizes

/-- One past the last number. -/
def stop (b : Block) : Nat :=
  b.start + b.size

/-- Whether a number belongs to the block. -/
def contains (b : Block) (id : Nat) : Bool :=
  b.start ≤ id && id < b.stop

/-- The number of the atom whose arguments stand at the given positions. -/
def encodeIndices? (b : Block) (indices : List Nat) : Option Nat :=
  (rank? b.sizes indices).map (b.start + ·)

/-- The number of the atom with the given arguments. -/
def encode? (b : Block) (constants : List String) : Option Nat := do
  guard (constants.length = b.domains.length)
  let indices ← (b.domains.zip constants).mapM fun (d, c) => d.find? c
  b.encodeIndices? indices

/-- The argument positions of the atom with the given number. -/
def decodeIndices? (b : Block) (id : Nat) : Option (List Nat) :=
  if b.contains id then some (unrank b.sizes (id - b.start)) else none

/-- The arguments of the atom with the given number. -/
def decode? (b : Block) (id : Nat) : Option (List String) := do
  let indices ← b.decodeIndices? id
  (b.domains.zip indices).mapM fun (d, i) => d.name? i

/-- The largest number of a ground atom: a signed literal has 32 bits. -/
def maxId : Nat := Nat.pow 2 31 - 1

/-- The largest product that is computed; larger ones are cut down to it. -/
def maxProduct : Nat := Nat.pow 2 64 - 1

/-- Multiplies up the sizes from the last argument to the first, as long as
the block stays below the largest number.  The product before a step and
`start` are numbers of 32 bits, the former at most `maxId`, so a sum of 64 bits
cannot overflow unless a single domain has more than `2 ^ 33` constants, and
is written here as the sum that it is. -/
def checkedSize (signature : Signature) (start : Nat) : List Nat → Except NumberingError Nat
  | [] => .ok 1
  | n :: ns => do
    let inner ← checkedSize signature start ns
    let required := min (inner * n) maxProduct
    if start + required > maxId then .error (.overflow signature start required)
    else .ok required

/-- The block of a predicate from a given number on. -/
def make (signature : Signature) (start : Nat) (domains : List Domain) :
    Except NumberingError Block := do
  let _ ← checkedSize signature start (domains.map Domain.size)
  return ⟨signature, start, domains⟩

end Block

end MarkovLogic.Herbrand
