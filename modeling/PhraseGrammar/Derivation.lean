import PhraseGrammar.Grammar

/-!
# Derivations

* `Step`: one replacement;
* `Derivation`: a sentence and the steps that lead to it from the start symbol;
* `Form.splice`: a form with a span replaced.
-/

namespace PhraseGrammar

/-- One replacement: the index of the rule, the span and what took its place. -/
structure Step where
  rule : Nat
  start : Nat
  length : Nat
  replacement : Form
  deriving DecidableEq

/-- A sentence and how it came about. -/
structure Derivation where
  sentence : Form
  steps : List Step
  deriving DecidableEq

/-- The form with `replacement` in place of the span of `length` symbols from `start` on. -/
def Form.splice (f : Form) (start length : Nat) (replacement : Form) : Form :=
  f.take start ++ replacement ++ f.drop (start + length)

/-- The form after a step. -/
def Step.apply (s : Step) (f : Form) : Form := Form.splice f s.start s.length s.replacement

@[simp] theorem Form.splice_append (left span right replacement : Form) :
    Form.splice (left ++ span ++ right) left.length span.length replacement =
      left ++ replacement ++ right := by
  simp [Form.splice, List.drop_append]

end PhraseGrammar
