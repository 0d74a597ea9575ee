import PhraseGrammar.Derivation
import PhraseGrammar.Text.Numeral
import PhraseGrammar.Proofs.Occurrence

/-!
# Checked operations on words and forms

Forms are held in memory, where places and lengths are 64-bit words. Here the search for the next
site is done step by step as it is done there, and every step is checked: a difference that falls
below zero, a sum that is no word, and a span that leaves the form are faults, for which `none`
stands.

* `Checked.add`, `Checked.sub`, `Checked.slice`, `Checked.splice`: the operations;
* `Checked.findMatch`, `Checked.site`: the searches. No fault is met in them wherever they begin,
  and they find what `Rule.findMatch` and `Grammar.site?` find (`findMatch_eq`, `site_eq`).
-/

namespace PhraseGrammar

/-- All places of the form, and its length, are words. -/
def Form.InMemory (f : Form) : Prop := f.length < Numeral.wordCount

namespace Checked

/-! ### The operations -/

/-- The sum of two words. -/
def add (a b : Nat) : Option Nat := Numeral.fit? Numeral.wordCount (a + b)

/-- The difference of two words. -/
def sub (a b : Nat) : Option Nat := if b ≤ a then some (a - b) else none

/-- The symbols from place `start` on and before place `stop`. -/
def slice (form : Form) (start stop : Nat) : Option Form :=
  if start ≤ stop ∧ stop ≤ form.length then some ((form.drop start).take (stop - start)) else none

/-- The form with `replacement` in place of the symbols from place `start` on and before place
`stop`. -/
def splice (form : Form) (start stop : Nat) (replacement : Form) : Option Form :=
  if start ≤ stop ∧ stop ≤ form.length then some (form.take start ++ replacement ++ form.drop stop)
  else none

theorem add_eq_some {a b : Nat} (h : a + b < Numeral.wordCount) : add a b = some (a + b) := if_pos h

theorem add_eq_none {a b : Nat} (h : Numeral.wordCount ≤ a + b) : add a b = none :=
  if_neg (Nat.not_lt.2 h)

theorem sub_eq_some {a b : Nat} (h : b ≤ a) : sub a b = some (a - b) := if_pos h

section Span

variable {form : Form} {start length : Nat} (h : start + length ≤ form.length)
include h

/-- The end of a span within a form is a word. -/
theorem add_of_span (hform : form.InMemory) : add start length = some (start + length) :=
  add_eq_some (Nat.lt_of_le_of_lt h hform)

theorem slice_of_span :
    slice form start (start + length) = some ((form.drop start).take length) := by
  rw [slice, if_pos ⟨Nat.le_add_right start length, h⟩, Nat.add_sub_cancel_left]

theorem splice_of_span (replacement : Form) :
    splice form start (start + length) replacement =
      some (Form.splice form start length replacement) :=
  if_pos ⟨Nat.le_add_right start length, h⟩

end Span

/-! ### Searches in lists -/

/-- A search in which the test gives an answer everywhere. -/
theorem findM?_eq_some {α : Type} {test : α → Option Bool} {p : α → Bool} {xs : List α}
    (h : ∀ x ∈ xs, test x = some (p x)) : xs.findM? test = some (xs.find? p) := by
  induction xs with
  | nil => rfl
  | cons x xs ih =>
    rw [List.forall_mem_cons] at h
    rw [List.findM?, h.1, ih h.2, List.find?]
    cases p x <;> rfl

theorem findSomeM?_eq_some {α β : Type} {test : α → Option (Option β)} {f : α → Option β}
    {xs : List α} (h : ∀ x ∈ xs, test x = some (f x)) :
    xs.findSomeM? test = some (xs.findSome? f) := by
  induction xs with
  | nil => rfl
  | cons x xs ih =>
    rw [List.forall_mem_cons] at h
    rw [List.findSomeM?, h.1, ih h.2, List.findSome?]
    cases f x <;> rfl

/-! ### The searches of the engine -/

/-- The leftmost place at or after `offset` where the pattern of the rule stands: the spans that
begin there and later are compared with the pattern, up to the last one of its length. -/
def findMatch (r : Rule) (form : Form) (offset : Nat) : Option (Option Nat) :=
  if r.pattern = [] ∨ form.length < r.pattern.length then some none
  else do
    let last ← sub form.length r.pattern.length
    (List.range' offset (last + 1 - offset)).findM? fun i => do
      let stop ← add i r.pattern.length
      let span ← slice form i stop
      return decide (span = r.pattern)

/-- The first production that stands at or after `cursor`, at its leftmost place from there on. -/
def site (g : Grammar) (form : Form) (cursor : Nat) : Option (Option Site) :=
  g.productions.findSomeM? fun (rule, index) =>
    (·.map fun start => ⟨index, rule, start⟩) <$> findMatch rule form cursor

/-- The spans that are compared with the pattern, when there is room for it. -/
theorem find?_eq_findMatch {r : Rule} (hne : r.pattern ≠ []) {form : Form}
    (hle : r.pattern.length ≤ form.length) (offset : Nat) :
    (List.range' offset (form.length - r.pattern.length + 1 - offset)).find?
        (fun i => decide ((form.drop i).take r.pattern.length = r.pattern)) =
      r.findMatch form offset := by
  apply Option.ext
  intro i
  rw [List.find?_range'_eq_some, Rule.findMatch_eq_some_iff]
  simp only [decide_eq_true_eq, Bool.not_eq_true', decide_eq_false_iff_not,
    ← Rule.occursAt_iff_take hne, List.mem_range'_1]
  constructor
  · rintro ⟨hocc, ⟨hoffset, -⟩, hbefore⟩
    exact ⟨hoffset, hocc, hbefore⟩
  · rintro ⟨hoffset, hocc, hbefore⟩
    have hroom := hocc.add_length_le
    exact ⟨hocc, ⟨hoffset, by omega⟩, hbefore⟩

/-- **The search for a pattern meets no fault**, wherever it begins. -/
theorem findMatch_eq (r : Rule) {form : Form} (hform : form.InMemory) (offset : Nat) :
    findMatch r form offset = some (r.findMatch form offset) := by
  unfold findMatch
  split_ifs with hnone
  · -- there is no place for the pattern
    have hocc : ¬ r.OccursFrom form offset := by
      rintro ⟨i, -, hi⟩
      rcases hnone with hempty | hlong
      · exact hi.1 hempty
      · have hroom := hi.add_length_le
        omega
    rw [Rule.findMatch_eq_none_iff.2 hocc]
  · obtain ⟨hne, hle⟩ := not_or.1 hnone
    rw [Nat.not_lt] at hle
    rw [sub_eq_some hle, Option.bind_eq_bind, Option.bind_some, findM?_eq_some,
      find?_eq_findMatch hne hle]
    intro i hi
    rw [List.mem_range'_1] at hi
    -- the last span of the length of the pattern still lies within the form
    have hspan : i + r.pattern.length ≤ form.length := by omega
    rw [add_of_span hspan hform, Option.bind_eq_bind, Option.bind_some, slice_of_span hspan]
    rfl

/-- **The search for the next site meets no fault**, wherever the cursor stands. -/
theorem site_eq (g : Grammar) {form : Form} (hform : form.InMemory) (cursor : Nat) :
    site g form cursor = some (g.site? form cursor) := by
  rw [site, findSomeM?_eq_some]
  · rfl
  · rintro ⟨rule, index⟩ -
    simp only [findMatch_eq rule hform]
    rfl

end Checked

end PhraseGrammar
