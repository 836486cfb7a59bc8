/-
MarkovLogic/Random.lean

Random choices.

A source of randomness is a stream of words of 32 bits that a seed determines.
Everything random in the library is drawn from such a stream by the two
functions here: a biased coin and a choice among finitely many things.  Which
stream it is does not matter to them; the stream of the programs is that of
`Random/ChaCha`.
-/
import MarkovLogic.Scalar

namespace MarkovLogic

/-- A stream of random words. -/
class RandomSource (ρ : Type) where
  /-- The stream of a seed. -/
  ofSeed : UInt64 → ρ
  /-- The next word and the rest of the stream. -/
  next : ρ → UInt32 × ρ

namespace Random

variable {ρ : Type} [RandomSource ρ]

/-- Two words as a number below `2 ^ 64`, the first word as the lower half. -/
def nextWide (r : ρ) : Nat × ρ :=
  let (low, r) := RandomSource.next r
  let (high, r) := RandomSource.next r
  (low.toNat + high.toNat * Nat.pow 2 32, r)

/-- A coin that shows `true` with probability `p`.  A coin that cannot show
anything else draws nothing. -/
def coin {α : Type} [Scalar α] (p : α) (r : ρ) : Bool × ρ :=
  if p == 1 then (true, r)
  else
    let (n, r) := nextWide r
    (decide (n < Scalar.truncate (p * Scalar.ofNat (Nat.pow 2 64))), r)

/-- The largest lower half of a product that is accepted in a choice among `n`
things: `n` shifted to the top of 32 bits, less one. -/
def acceptance (n : Nat) : Nat :=
  n * Nat.pow 2 (31 - n.log2) - 1

/-- Draws until a word is accepted: the upper half of its product with `n` is
the choice.  At least half of all words are accepted; should that many in a
row be refused, the last one counts. -/
def drawIndex (n : Nat) : Nat → ρ → Nat × ρ
  | 0, r =>
    let (word, r) := RandomSource.next r
    (word.toNat * n / Nat.pow 2 32, r)
  | attempts + 1, r =>
    let (word, r') := RandomSource.next r
    let product := word.toNat * n
    if product % Nat.pow 2 32 ≤ acceptance n then (product / Nat.pow 2 32, r')
    else drawIndex n attempts r'

/-- How many words a choice may refuse. -/
def maxRefusals : Nat := 4096

/-- Chooses an element of a list, each with the same probability.  From an
empty list nothing is chosen and nothing is drawn. -/
def choose {β : Type} (xs : Array β) (r : ρ) : Option β × ρ :=
  if xs.isEmpty then (none, r)
  else
    let (i, r) := drawIndex xs.size maxRefusals r
    (xs[i]?, r)

end Random

end MarkovLogic
