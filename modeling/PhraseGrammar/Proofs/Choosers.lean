import PhraseGrammar.Chooser.Random
import PhraseGrammar.Proofs.Numerals

/-!
# What choosers answer

* `Chooser.InRange`: a chooser whose answers are indices of the alternatives that it was shown.
  The console (`inRange_console`) and the random chooser (`inRange_random`) are of this kind;
* `Console.skip`: the input that is left when lines have been read. The console fails only for
  the line that it has just read (`answer_console_eq_error`);
* the random chooser does not fail when there is an alternative (`answer_random_eq_error`).
-/

namespace PhraseGrammar

/-- Every index that the chooser answers with is the index of an alternative. -/
def Chooser.InRange {σ : Type} (c : Chooser σ) : Prop :=
  ∀ alternatives before index after,
    c.answer alternatives before = some (.ok index, after) → index < alternatives.length

/-! ### At the console -/

namespace Selection

variable {answer : String} {count : Nat}

theorem lt_of_parse {index : Nat} (h : parse answer count = .ok index) : index < count :=
  (parse_eq_ok_iff.1 h).2.2

theorem parse_eq_error {cause : GenerateError} (h : parse answer count = .error cause) :
    cause = .invalidSelection answer := by
  rcases parse_cases answer count with ⟨index, hok⟩ | herror
  · cases h.symm.trans hok
  · cases h.symm.trans herror
    rfl

end Selection

namespace Console

variable {line : List UInt8} {count : Nat}

/-- The input that is left when so many lines have been read. -/
def skip : Nat → List UInt8 → List UInt8
  | 0, input => input
  | n + 1, input => (takeLine (skip n input)).2

theorem lt_of_answer {index : Nat} (h : answer line count = .ok index) : index < count := by
  unfold answer at h
  split at h
  · exact Selection.lt_of_parse h
  · cases h

/-- A line that does not settle the choice is not text, or it is shown without the blanks around
it. -/
theorem answer_eq_error {cause : GenerateError} (h : answer line count = .error cause) :
    cause = .console .invalidText ∨
      ∃ text, String.fromUTF8? ⟨line.toArray⟩ = some text ∧
        cause = .invalidSelection (String.ofList (trim text.toList)) := by
  unfold answer at h
  split at h
  · next text htext => exact .inr ⟨text, htext, Selection.parse_eq_error h⟩
  · cases h
    exact .inl rfl

end Console

namespace Chooser

theorem answer_console (alternatives : List Form) (input : List UInt8) :
    console.answer alternatives input =
      some (Console.answer (Console.takeLine input).1 alternatives.length,
        (Console.takeLine input).2) := rfl

theorem inRange_console : console.InRange := by
  intro alternatives before index after h
  rw [answer_console, Option.some.injEq, Prod.mk.injEq] at h
  exact Console.lt_of_answer h.1

theorem answer_console_eq_error {alternatives : List Form} {before after : List UInt8}
    {cause : GenerateError} (h : console.answer alternatives before = some (.error cause, after)) :
    cause = .console .invalidText ∨
      ∃ line text, Console.takeLine before = (line, after) ∧
        String.fromUTF8? ⟨line.toArray⟩ = some text ∧
        cause = .invalidSelection (String.ofList (trim text.toList)) := by
  rw [answer_console, Option.some.injEq, Prod.mk.injEq] at h
  obtain ⟨hanswer, rfl⟩ := h
  rcases Console.answer_eq_error hanswer with rfl | ⟨text, htext, rfl⟩
  · exact .inl rfl
  · exact .inr ⟨_, text, rfl, htext, rfl⟩

end Chooser

/-! ### At random -/

/-- The high half of the product of a word and `count` is less than `count`. -/
theorem Uniform.lt_of_index? {count word index : Nat} (hcount : 0 < count)
    (hword : word < Numeral.wordCount) (h : index? count word = some index) : index < count := by
  unfold index? at h
  split at h
  · cases h
    apply Nat.div_lt_of_lt_mul
    exact Nat.mul_lt_mul_of_pos_right hword hcount
  · cases h

theorem WordStream.lt_of_drawWithin {w : WordStream} {count : Nat} (hcount : 0 < count)
    {words position index next : Nat}
    (h : w.drawWithin count words position = some (index, next)) : index < count := by
  induction words generalizing position with
  | zero => cases h
  | succ words ih =>
    unfold drawWithin at h
    split at h
    · next accepted =>
      cases h
      exact Uniform.lt_of_index? hcount (UInt64.toNat_lt_size _) accepted
    · exact ih h

namespace Chooser

variable {w : WordStream}

theorem inRange_random : (random w).InRange := by
  intro alternatives before index after h
  by_cases hempty : alternatives = []
  · simp [random, hempty] at h
  · have hdraw : w.draw alternatives.length before = some (index, after) := by
      simpa [random, hempty] using h
    exact WordStream.lt_of_drawWithin (List.length_pos_iff.2 hempty) hdraw

theorem answer_random_eq_error {alternatives : List Form} {before after : Nat}
    {cause : GenerateError}
    (h : (random w).answer alternatives before = some (.error cause, after)) :
    alternatives = [] := by
  by_cases hempty : alternatives = []
  · exact hempty
  · simp [random, hempty] at h

end Chooser

end PhraseGrammar
