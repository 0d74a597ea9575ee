import PhraseGrammar.Symbol

/-!
# The trace of a derivation

What is written while a sentence is derived. Every symbol is one character wide, so the marks
below a form stand under the symbols they mean.

* `Trace.form`: a line of dashes and the form;
* `Trace.heading`: the form with arrows under the span that is replaced;
* `Trace.choice`: the alternative that takes the place of the span;
* `Trace.final`: the sentence in a frame.
-/

namespace PhraseGrammar.Trace

/-- How many characters a separating line has. -/
def width : Nat := 46

/-- A character, so many times. -/
def times (n : Nat) (c : Char) : String := String.ofList (List.replicate n c)

/-- A form below a separating line. -/
def form (f : Form) : String := times width '-' ++ "\n" ++ Form.text f ++ "\n"

/-- A form with arrows under the span of the given start and length. -/
def heading (f : Form) (start length : Nat) : String :=
  form f ++ times start ' ' ++ times length '↑' ++ "\n"

/-- Bars under the span, and the alternative that was chosen for it, with its empty-word marks. -/
def choice (start length : Nat) (chosen : Form) : String :=
  times start ' ' ++ times length '|' ++ "__will be replaced by '" ++ Form.text chosen ++ "'\n\n"

/-- The sentence at the end. -/
def final (sentence : Form) : String :=
  "Final State:\n" ++ times width '=' ++ "\n" ++ Form.text sentence ++ "\n" ++
    times width '=' ++ "\n"

end PhraseGrammar.Trace
