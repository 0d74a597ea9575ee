import PhraseGrammar.Session
import PhraseGrammar.Symbol

/-!
# Choosers

A chooser settles which alternative of a rule is taken.

* `Chooser`: what is written before the answer, and the answer, an index from 0 on;
* `Chooser.pick`: asks for one of the given alternatives;
* `Chooser.script`: answers prepared in advance.
-/

namespace PhraseGrammar

/-- A chooser with state `σ`. An answer is an index or a cause of failure; `none` stands for an
answer that never comes. -/
structure Chooser (σ : Type) where
  prompt : List Form → String
  answer : List Form → σ → Option (Except GenerateError Nat × σ)

namespace Chooser

variable {σ : Type}

/-- Writes the prompt, then asks for the answer. Nothing is asked when the prompt could not be
written. -/
def pick (c : Chooser σ) (alternatives : List Form) : Action σ Nat := do
  Action.write (c.prompt alternatives)
  Action.ask (c.answer alternatives)

/-- Gives the indices of a list in turn, unseen by anyone and unchecked. When they are used up,
no selection is valid any more. -/
def script : Chooser (List Nat) where
  prompt _ := ""
  answer _
    | [] => some (.error (.invalidSelection ""), [])
    | index :: rest => some (.ok index, rest)

/-- Either the chooser gives an answer, or the prompt could not be written. -/
theorem pick_eq_some {c : Chooser σ} {alternatives : List Form} {s t : Session σ}
    {result : Except GenerateError Nat} (h : c.pick alternatives s = some (result, t)) :
    c.answer alternatives s.chooser = some (result, t.chooser) ∨
      (t.chooser = s.chooser ∧ ∃ fault, result = .error (.console fault)) := by
  rcases Action.bind_eq_some.1 h with ⟨_, u, hwrite, hask⟩ | ⟨cause, hwrite, rfl⟩
  · have hanswer := Action.ask_eq_some hask
    rw [(Action.write_eq_some hwrite).1] at hanswer
    exact .inl hanswer
  · obtain ⟨hchooser, hfault⟩ := Action.write_eq_some hwrite
    obtain ⟨fault, rfl⟩ := hfault cause rfl
    exact .inr ⟨hchooser, fault, rfl⟩

end Chooser

end PhraseGrammar
