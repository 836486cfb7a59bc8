/-
MarkovLogic/Random/ChaCha.lean

The stream of random words that the programs use.

It is the key stream of ChaCha with twelve rounds: blocks of sixteen words,
each computed from a key of eight words and the number of the block.  The key
is spread out of a seed of 64 bits by a permuted congruential generator.
-/
import MarkovLogic.Random

namespace MarkovLogic

/-- A place in the stream: the key, the number of the next block, and what is
left of the current block. -/
structure ChaCha where
  key : List UInt32
  counter : Nat
  left : List UInt32

namespace ChaCha

/-- Rotation of 32 bits to the left. -/
def rotateLeft (x n : UInt32) : UInt32 :=
  (x <<< n) ||| (x >>> (32 - n))

/-- The quarter round on the words at four places. -/
def quarterRound (s : Array UInt32) (a b c d : Nat) : Array UInt32 :=
  let va := s.getD a 0
  let vb := s.getD b 0
  let vc := s.getD c 0
  let vd := s.getD d 0
  let va := va + vb
  let vd := rotateLeft (vd ^^^ va) 16
  let vc := vc + vd
  let vb := rotateLeft (vb ^^^ vc) 12
  let va := va + vb
  let vd := rotateLeft (vd ^^^ va) 8
  let vc := vc + vd
  let vb := rotateLeft (vb ^^^ vc) 7
  (((s.setIfInBounds a va).setIfInBounds b vb).setIfInBounds c vc).setIfInBounds d vd

/-- One round over the columns and one over the diagonals. -/
def doubleRound (s : Array UInt32) : Array UInt32 :=
  let s := quarterRound s 0 4 8 12
  let s := quarterRound s 1 5 9 13
  let s := quarterRound s 2 6 10 14
  let s := quarterRound s 3 7 11 15
  let s := quarterRound s 0 5 10 15
  let s := quarterRound s 1 6 11 12
  let s := quarterRound s 2 7 8 13
  quarterRound s 3 4 9 14

/-- The words before the rounds: the constants, the key, the number of the
block in two words, and two words zero. -/
def initialWords (key : List UInt32) (counter : Nat) : List UInt32 :=
  [0x61707865, 0x3320646e, 0x79622d32, 0x6b206574] ++ key ++
    [UInt32.ofNat counter, UInt32.ofNat (counter / Nat.pow 2 32), 0, 0]

/-- A block of the stream. -/
def block (key : List UInt32) (counter : Nat) : List UInt32 :=
  let words := initialWords key counter
  let mixed := (List.range 6).foldl (fun s _ => doubleRound s) words.toArray
  mixed.toList.zipWith (· + ·) words

/-- The words of the key from a seed. -/
def expandSeed : Nat → UInt64 → List UInt32
  | 0, _ => []
  | n + 1, s =>
    let s := s * 6364136223846793005 + 11634580027462260723
    let x := (((s >>> 18) ^^^ s) >>> 27).toUInt32
    let turn := (s >>> 59).toUInt32
    ((x >>> turn) ||| (x <<< ((32 - turn) &&& 31))) :: expandSeed n s

/-- The beginning of the stream of a seed. -/
def ofSeed (seed : UInt64) : ChaCha :=
  ⟨expandSeed 8 seed, 0, []⟩

/-- The next word. -/
def next (c : ChaCha) : UInt32 × ChaCha :=
  match c.left with
  | word :: rest => (word, { c with left := rest })
  | [] =>
    let words := block c.key c.counter
    (words.headD 0, { c with counter := c.counter + 1, left := words.drop 1 })

instance : RandomSource ChaCha := ⟨ofSeed, next⟩

end ChaCha

end MarkovLogic
