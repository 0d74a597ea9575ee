import PhraseGrammar.Random.Uniform

/-!
# Words from the ChaCha12 block function

A key of eight 32-bit words and a block counter give a block of sixteen words. Two words in a
row make one 64-bit word, the first one as its low half.

* `ChaCha.Key.ofSeed`: the key that a 64-bit seed stands for;
* `ChaCha.block`: the block function with six double rounds;
* `ChaCha.stream`: the blocks in order as a stream of 64-bit words.
-/

namespace PhraseGrammar.ChaCha

/-- A key. -/
abbrev Key := Vector UInt32 8

/-- A block. -/
abbrev Block := Vector UInt32 16

/-! ### Keys -/

/-- The next state of the linear congruential generator that spreads a seed. -/
def spread (state : UInt64) : UInt64 := state * 6364136223846793005 + 11634580027462260723

/-- The output that belongs to a state: its xor-shifted bits, turned right by its top five. -/
def permute (state : UInt64) : UInt32 :=
  let x := (((state >>> 18) ^^^ state) >>> 27).toUInt32
  let turn := (state >>> 59).toUInt32
  (x >>> turn) ||| (x <<< ((32 - turn) % 32))

/-- The states that follow a seed, so many of them. -/
def states : Nat → UInt64 → List UInt64
  | 0, _ => []
  | n + 1, state => spread state :: states n (spread state)

/-- The key of a seed: eight outputs in a row. -/
def Key.ofSeed (seed : UInt64) : Key :=
  let words := (states 8 seed).map permute
  Vector.ofFn fun i => words.getD i 0

/-! ### Blocks -/

/-- Turns a word left. -/
def turnLeft (x : UInt32) (bits : UInt32) : UInt32 := (x <<< bits) ||| (x >>> (32 - bits))

/-- One quarter round on the words at four places. -/
def quarterRound (a b c d : Fin 16) (s : Block) : Block :=
  let s := s.set a (s[a] + s[b])
  let s := s.set d (turnLeft (s[d] ^^^ s[a]) 16)
  let s := s.set c (s[c] + s[d])
  let s := s.set b (turnLeft (s[b] ^^^ s[c]) 12)
  let s := s.set a (s[a] + s[b])
  let s := s.set d (turnLeft (s[d] ^^^ s[a]) 8)
  let s := s.set c (s[c] + s[d])
  s.set b (turnLeft (s[b] ^^^ s[c]) 7)

/-- A round on the columns, then one on the diagonals. -/
def doubleRound (s : Block) : Block :=
  let s := quarterRound 3 7 11 15 (quarterRound 2 6 10 14 (quarterRound 1 5 9 13
    (quarterRound 0 4 8 12 s)))
  quarterRound 3 4 9 14 (quarterRound 2 7 8 13 (quarterRound 1 6 11 12
    (quarterRound 0 5 10 15 s)))

/-- So many double rounds. -/
def doubleRounds : Nat → Block → Block
  | 0, s => s
  | n + 1, s => doubleRounds n (doubleRound s)

/-- What a block starts from: four constants, the key, the counter and two zero words. -/
def initial (key : Key) (counter : UInt64) : Block :=
  #v[0x61707865, 0x3320646e, 0x79622d32, 0x6b206574,
    key[0], key[1], key[2], key[3], key[4], key[5], key[6], key[7],
    counter.toUInt32, (counter >>> 32).toUInt32, 0, 0]

/-- The block with the given counter. -/
def block (key : Key) (counter : UInt64) : Block :=
  let start := initial key counter
  Vector.zipWith (· + ·) (doubleRounds 6 start) start

/-! ### Words -/

/-- The 64-bit word at a position: eight words to a block, the low half first. -/
def word (key : Key) (position : Nat) : UInt64 :=
  let b := block key (UInt64.ofNat (position / 8))
  let low := b.toList.getD (2 * (position % 8)) 0
  let high := b.toList.getD (2 * (position % 8) + 1) 0
  low.toUInt64 ||| (high.toUInt64 <<< 32)

/-- The stream of a key. The counter returns to 0 after `2 ^ 64` blocks. -/
def stream (key : Key) : WordStream where
  word := word key
  period := 8 * UInt64.size

end PhraseGrammar.ChaCha
