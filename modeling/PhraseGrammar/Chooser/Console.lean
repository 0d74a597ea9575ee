import PhraseGrammar.Chooser
import PhraseGrammar.Text.Blank
import PhraseGrammar.Text.Numeral

/-!
# Choosing at the console

The alternatives are listed with numbers from 1 on, and a line of input holds the number of the
one that is taken.

* `Selection.parse`: the index that an answer names;
* `Console.menu`: the list of alternatives and the prompt behind it;
* `Console.takeLine`: the first line of the input, with its line feed, and what follows it;
* `Chooser.console`: each question takes one line, whether its answer is valid or not.
-/

namespace PhraseGrammar

/-- The index of the option that an answer names. The whole answer is the numeral of a 64-bit word
between 1 and the number of options. -/
def Selection.parse (answer : String) (count : Nat) : Except GenerateError Nat :=
  match Numeral.word? answer.toList with
  | some n => if 1 ≤ n ∧ n ≤ count then .ok (n - 1) else .error (.invalidSelection answer)
  | none => .error (.invalidSelection answer)

namespace Console

/-- The lines that show options numbered from `number` on. -/
def options (number : Nat) : List Form → String
  | [] => ""
  | a :: rest => number.repr ++ ") " ++ Form.text a ++ "\n" ++ options (number + 1) rest

/-- The question for one of the alternatives. -/
def menu (alternatives : List Form) : String :=
  "Choose an option:\n" ++ options 1 alternatives ++
    "[1-" ++ alternatives.length.repr ++ "] >"

/-- The byte that ends a line. -/
def lineFeed : UInt8 := 10

/-- Whether a byte belongs to the line that is being read. -/
def inLine (b : UInt8) : Bool := b ≠ lineFeed

/-- The first line of the input, up to and with its line feed, and the rest of the input. -/
def takeLine (input : List UInt8) : List UInt8 × List UInt8 :=
  let after := input.dropWhile inLine
  (input.takeWhile inLine ++ after.take 1, after.drop 1)

/-- The answer that a line gives to a question with so many options. -/
def answer (line : List UInt8) (count : Nat) : Except GenerateError Nat :=
  match String.fromUTF8? ⟨line.toArray⟩ with
  | some text => Selection.parse (String.ofList (trim text.toList)) count
  | none => .error (.console .invalidText)

end Console

/-- Asks at the console. The state is the input that has not been read. -/
def Chooser.console : Chooser (List UInt8) where
  prompt := Console.menu
  answer alternatives input :=
    let (line, rest) := Console.takeLine input
    some (Console.answer line alternatives.length, rest)

end PhraseGrammar
