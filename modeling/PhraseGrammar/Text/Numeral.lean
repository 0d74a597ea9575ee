/-!
# Decimal numerals

A numeral is read digit by digit into a machine word. A number that does not fit into the word is
refused, however the numeral goes on; leading zeros never count.

* `Numeral.read?`: the number that a numeral stands for, in words of which there are `size`;
* `Numeral.word?`: the same for 64-bit words.
-/

namespace PhraseGrammar.Numeral

/-- How many 64-bit words there are. -/
def wordCount : Nat := UInt64.size

/-- The digits of a numeral: what follows the sign, if there is one. -/
def digits : List Char → List Char
  | '+' :: rest => rest
  | text => text

/-- The number that a digit stands for. -/
def digit (c : Char) : Nat := c.toNat - '0'.toNat

/-- A number, if it is one of the `size` words. -/
def fit? (size n : Nat) : Option Nat := if n < size then some n else none

/-- The number that results when digits are written behind those of `n`, one by one. Every product
and every sum on the way has to be a word. -/
def extend? (size : Nat) : Nat → List Char → Option Nat
  | n, [] => some n
  | n, c :: rest =>
    if c.isDigit then do
      let shifted ← fit? size (n * 10)
      let sum ← fit? size (shifted + digit c)
      extend? size sum rest
    else none

/-- The number that a numeral stands for: one `+` or none, then at least one ASCII digit and
nothing else. -/
def read? (size : Nat) (text : List Char) : Option Nat :=
  if (digits text).isEmpty then none else extend? size 0 (digits text)

/-- The number that a numeral stands for, when it is a 64-bit word. -/
def word? (text : List Char) : Option Nat := read? wordCount text

theorem digits_of_sign (rest : List Char) : digits ('+' :: rest) = rest := rfl

end PhraseGrammar.Numeral
