import Mathlib.Data.Nat.Digits.Defs
import Mathlib.Tactic.Ring
import PhraseGrammar.Chooser.Console

/-!
# Numerals and their values

The number that a numeral denotes is said by the places of its digits, with as many digits as there
may be. Reading a numeral into words gives this number whenever it is a word: it is not less than
any number met on the way, so nothing is refused too early (`extend?_eq_some_iff`), and nothing is
lost.

* `Numeral.Denotes`: a text denotes a number;
* `Numeral.read?_eq_some_iff`, `Numeral.word?_eq_some_iff`: reading gives the number denoted, if it
  is a word;
* `Numeral.denotes_padded`: leading zeros count for nothing;
* `Selection.parse_eq_ok_iff`: which answers name an option.
-/

namespace PhraseGrammar

namespace Numeral

/-- The number that digits denote. The last digit counts for itself, and every other one ten times
as much as at the place behind it. -/
def value (ds : List Char) : Nat := Nat.ofDigits 10 (ds.reverse.map digit)

/-- The text denotes the number: one `+` or none, then at least one digit and nothing else. -/
def Denotes (text : List Char) (n : Nat) : Prop :=
  ∃ sign ds, text = sign ++ ds ∧ (sign = [] ∨ sign = ['+']) ∧ ds ≠ [] ∧
    (∀ c ∈ ds, c.isDigit = true) ∧ value ds = n

/-! ### Digits -/

theorem value_cons (c : Char) (ds : List Char) :
    value (c :: ds) = digit c * 10 ^ ds.length + value ds := by
  rw [value, List.map_reverse, List.map_cons, Nat.ofDigits_reverse_cons, List.length_map, value,
    List.map_reverse]
  ring

/-- The value of digits that are written behind those of another number. -/
theorem ofDigitChars_eq (ds : List Char) (n : Nat) :
    Nat.ofDigitChars 10 ds n = n * 10 ^ ds.length + value ds := by
  induction ds generalizing n with
  | nil => simp [value]
  | cons c ds ih =>
    rw [Nat.ofDigitChars_cons, ih, value_cons, List.length_cons, pow_succ]
    show (10 * n + digit c) * 10 ^ ds.length + value ds = _
    ring

theorem value_eq_ofDigitChars (ds : List Char) : value ds = Nat.ofDigitChars 10 ds 0 := by
  rw [ofDigitChars_eq, Nat.zero_mul, Nat.zero_add]

/-- No digits make the number in front of them less. -/
theorem le_ofDigitChars (ds : List Char) (n : Nat) : n ≤ Nat.ofDigitChars 10 ds n := by
  rw [ofDigitChars_eq]
  have hle : n ≤ n * 10 ^ ds.length := Nat.le_mul_of_pos_right n (Nat.pow_pos (by decide))
  omega

/-! ### Reading into words -/

variable {size n m : Nat}

theorem fit?_eq_some_iff : fit? size n = some m ↔ n = m ∧ n < size := by
  unfold fit?
  split_ifs with h <;> simp [h]

/-- Digits are read up to the end exactly if the number they come to is a word. The numbers on the
way are words then, since they are not greater. -/
theorem extend?_eq_some_iff {ds : List Char} (hn : n < size) :
    extend? size n ds = some m ↔
      (∀ c ∈ ds, c.isDigit = true) ∧ Nat.ofDigitChars 10 ds n = m ∧ m < size := by
  induction ds generalizing n with
  | nil =>
    simp only [extend?, Nat.ofDigitChars_nil, Option.some.injEq, List.not_mem_nil, false_imp_iff,
      implies_true, true_and]
    constructor
    · rintro rfl
      exact ⟨rfl, hn⟩
    · exact And.left
  | cons c ds ih =>
    have hcons : Nat.ofDigitChars 10 (c :: ds) n = Nat.ofDigitChars 10 ds (n * 10 + digit c) := by
      rw [Nat.ofDigitChars_cons, Nat.mul_comm]
      rfl
    rw [hcons, List.forall_mem_cons]
    by_cases hc : c.isDigit = true
    · simp only [extend?, hc, if_true, true_and, Option.bind_eq_bind, Option.bind_eq_some_iff,
        fit?_eq_some_iff]
      constructor
      · rintro ⟨_, ⟨rfl, -⟩, _, ⟨rfl, hsum⟩, hrest⟩
        exact (ih hsum).1 hrest
      · rintro ⟨hds, hm, hlt⟩
        have hle := le_ofDigitChars ds (n * 10 + digit c)
        rw [hm] at hle
        have hsum : n * 10 + digit c < size := by omega
        have hshifted : n * 10 < size := by omega
        exact ⟨_, ⟨rfl, hshifted⟩, _, ⟨rfl, hsum⟩, (ih hsum).2 ⟨hds, hm, hlt⟩⟩
    · simp [extend?, hc]

/-- What follows the sign, if there is one. -/
theorem exists_sign (text : List Char) :
    ∃ sign, text = sign ++ digits text ∧ (sign = [] ∨ sign = ['+']) := by
  unfold digits
  split
  · exact ⟨['+'], rfl, .inr rfl⟩
  · exact ⟨[], rfl, .inl rfl⟩

theorem digits_append {sign ds : List Char} (hsign : sign = [] ∨ sign = ['+'])
    (hds : ∀ c ∈ ds, c.isDigit = true) : digits (sign ++ ds) = ds := by
  rcases hsign with rfl | rfl
  · rw [List.nil_append]
    unfold digits
    split
    · next rest =>
      cases hds '+' List.mem_cons_self
    · rfl
  · exact digits_of_sign ds

/-- **A numeral is read exactly if the number it denotes is a word**, and this number is what is
read. -/
theorem read?_eq_some_iff (hsize : 0 < size) {text : List Char} :
    read? size text = some n ↔ Denotes text n ∧ n < size := by
  unfold read?
  constructor
  · intro h
    split_ifs at h with hempty
    obtain ⟨hds, hvalue, hlt⟩ := (extend?_eq_some_iff hsize).1 h
    obtain ⟨sign, htext, hsign⟩ := exists_sign text
    refine ⟨⟨sign, digits text, htext, hsign, ?_, hds, ?_⟩, hlt⟩
    · simpa using hempty
    · rw [value_eq_ofDigitChars, hvalue]
  · rintro ⟨⟨sign, ds, rfl, hsign, hne, hds, rfl⟩, hlt⟩
    rw [digits_append hsign hds, if_neg (by simpa using hne)]
    exact (extend?_eq_some_iff hsize).2 ⟨hds, (value_eq_ofDigitChars ds).symm, hlt⟩

/-- **A numeral is read into a 64-bit word exactly if it denotes one.** -/
theorem word?_eq_some_iff {text : List Char} :
    word? text = some n ↔ Denotes text n ∧ n < wordCount :=
  read?_eq_some_iff (by decide)

/-! ### Numerals as they are written -/

/-- The numeral of a number, with so many zeros in front. -/
def padded (zeros n : Nat) : List Char := List.replicate zeros '0' ++ Nat.toDigits 10 n

theorem isDigit_of_mem_padded {zeros : Nat} {c : Char} (h : c ∈ padded zeros n) :
    c.isDigit = true := by
  rcases List.mem_append.1 h with h | h
  · rw [List.eq_of_mem_replicate h]
    rfl
  · exact Nat.isDigit_of_mem_toDigits (by decide) (by decide) h

theorem padded_ne_nil (zeros n : Nat) : padded zeros n ≠ [] := by
  simp [padded, Nat.toDigits_ne_nil]

theorem denotes_padded (zeros n : Nat) : Denotes (padded zeros n) n := by
  refine ⟨[], padded zeros n, rfl, .inl rfl, padded_ne_nil zeros n,
    fun c hc => isDigit_of_mem_padded hc, ?_⟩
  rw [value_eq_ofDigitChars, padded, Nat.ofDigitChars_append, Nat.ofDigitChars_replicate_zero,
    Nat.mul_zero, Nat.ofDigitChars_ten_toDigits]

theorem denotes_repr (n : Nat) : Denotes n.repr.toList n := by
  rw [Nat.repr_eq_ofList_toDigits, String.toList_ofList]
  exact denotes_padded 0 n

end Numeral

/-! ### Answers -/

namespace Selection

variable {answer : String} {count : Nat}

/-- An answer names an option exactly if it denotes a word from 1 to the number of options. -/
theorem parse_eq_ok_iff {index : Nat} :
    parse answer count = .ok index ↔
      Numeral.Denotes answer.toList (index + 1) ∧ index + 1 < Numeral.wordCount ∧
        index < count := by
  unfold parse
  cases hread : Numeral.word? answer.toList with
  | none =>
    constructor
    · rintro ⟨⟩
    · rintro ⟨hdenotes, hword, -⟩
      rw [Numeral.word?_eq_some_iff.2 ⟨hdenotes, hword⟩] at hread
      cases hread
  | some n =>
    obtain ⟨hdenotes, hword⟩ := Numeral.word?_eq_some_iff.1 hread
    constructor
    · intro h
      dsimp only at h
      split_ifs at h with hrange
      cases h
      rw [Nat.sub_add_cancel hrange.1]
      exact ⟨hdenotes, hword, by omega⟩
    · rintro ⟨hindex, hlt, hcount⟩
      rw [Numeral.word?_eq_some_iff.2 ⟨hindex, hlt⟩] at hread
      obtain rfl := Option.some.inj hread
      exact if_pos ⟨Nat.le_add_left 1 index, hcount⟩

theorem parse_cases (answer : String) (count : Nat) :
    (∃ index, parse answer count = .ok index) ∨
      parse answer count = .error (.invalidSelection answer) := by
  unfold parse
  split
  · split
    · exact .inl ⟨_, rfl⟩
    · exact .inr rfl
  · exact .inr rfl

end Selection

end PhraseGrammar
