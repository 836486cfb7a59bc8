/-
MarkovLogic/Clique/Key.lean

Keys of ground clauses.

The key of a set of literals is a hash of 64 bits of its content, never zero.
It is SipHash with one round for each block and three rounds at the end, under
the key zero, of the number of literals in 8 bytes followed by each literal in
4 bytes, all with the lowest byte first.
-/
import MarkovLogic.Text.Blank

namespace MarkovLogic.CliqueKey

/-- The state of the hash. -/
structure SipState where
  v0 : UInt64
  v1 : UInt64
  v2 : UInt64
  v3 : UInt64

/-- Rotation of 64 bits to the left. -/
def rotateLeft (x : UInt64) (n : UInt64) : UInt64 :=
  (x <<< n) ||| (x >>> (64 - n))

/-- The state before the first block. -/
def SipState.start : SipState :=
  ⟨0x736f6d6570736575, 0x646f72616e646f6d, 0x6c7967656e657261, 0x7465646279746573⟩

/-- One round. -/
def SipState.round (s : SipState) : SipState :=
  let v0 := s.v0 + s.v1
  let v1 := rotateLeft s.v1 13 ^^^ v0
  let v0 := rotateLeft v0 32
  let v2 := s.v2 + s.v3
  let v3 := rotateLeft s.v3 16 ^^^ v2
  let v0 := v0 + v3
  let v3 := rotateLeft v3 21 ^^^ v0
  let v2 := v2 + v1
  let v1 := rotateLeft v1 17 ^^^ v2
  let v2 := rotateLeft v2 32
  ⟨v0, v1, v2, v3⟩

/-- Takes in one block of 8 bytes. -/
def SipState.block (s : SipState) (m : UInt64) : SipState :=
  let s := { s with v3 := s.v3 ^^^ m }.round
  { s with v0 := s.v0 ^^^ m }

/-- The hash after the last block. -/
def SipState.finish (s : SipState) : UInt64 :=
  let s := { s with v2 := s.v2 ^^^ 0xff }.round.round.round
  s.v0 ^^^ s.v1 ^^^ s.v2 ^^^ s.v3

/-- The 32 bits of a literal. -/
def literalWord (l : Int) : UInt64 :=
  UInt64.ofNat (l % (Nat.pow 2 32 : Nat)).toNat

/-- Takes in the literals, two to a block; the last block holds the number of
bytes in its top byte. -/
def hashLiterals (length : UInt64) (s : SipState) : List Int → SipState
  | [] => s.block (length <<< 56)
  | [l] => s.block ((length <<< 56) ||| literalWord l)
  | l :: m :: rest =>
    hashLiterals length (s.block (literalWord l ||| (literalWord m <<< 32))) rest

/-- The key of a set of literals. -/
def ofLiterals (ls : List Int) : UInt64 :=
  let count := UInt64.ofNat ls.length
  let hash := (hashLiterals (8 + 4 * count) (SipState.start.block count) ls).finish
  if hash == 0 then 1 else hash

/-- Writes a key. -/
def text (key : UInt64) : String :=
  "clique:" ++ Text.hexDigits 16 key.toNat

end MarkovLogic.CliqueKey
