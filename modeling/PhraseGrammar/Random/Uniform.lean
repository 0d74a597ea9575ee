import PhraseGrammar.Text.Numeral

/-!
# Uniform draws from a stream of words

A 64-bit word `v` is turned into an index below `count` by the product `v * count`: its high half
is the index, and its low half decides whether the word is accepted. The accepted words are
those with a low half inside a zone, chosen so that every index has as many words as any other.

* `Uniform.zone`, `Uniform.index?`: the zone, and the index that a word gives;
* `WordStream`: words by position, and the number of words after which they repeat themselves;
* `WordStream.draw`: the index from the first accepted word, and the position after that word.
-/

namespace PhraseGrammar

namespace Uniform

/-- How many of the 64 bits of a word are zero before the first one of `n`. -/
def leadingZeros (n : Nat) : Nat := 63 - n.log2

/-- The largest low half that is accepted. -/
def zone (count : Nat) : Nat := (count <<< leadingZeros count) - 1

/-- The index below `count` that a word gives, if the word is accepted. -/
def index? (count word : Nat) : Option Nat :=
  if word * count % Numeral.wordCount ≤ zone count then some (word * count / Numeral.wordCount)
  else none

end Uniform

/-- An endless stream of words. From any position on, `period` words show all that follows: when
none of them is accepted, none ever is. -/
structure WordStream where
  word : Nat → UInt64
  period : Nat

namespace WordStream

/-- The words of a list, over and over. -/
def cycle (words : Array UInt64) : WordStream where
  word k := words.getD (k % words.size) 0
  period := words.size

/-- Draws from at most so many words, the first one at `position`. -/
def drawWithin (w : WordStream) (count : Nat) : (words position : Nat) → Option (Nat × Nat)
  | 0, _ => none
  | words + 1, position =>
    match Uniform.index? count (w.word position).toNat with
    | some index => some (index, position + 1)
    | none => drawWithin w count words (position + 1)

/-- Draws an index below `count` with the words from `position` on, and gives the position of the
next word. There is no index when every word is refused. -/
def draw (w : WordStream) (count position : Nat) : Option (Nat × Nat) :=
  w.drawWithin count w.period position

end WordStream

end PhraseGrammar
