import PhraseGrammar.Proofs.InputLines

/-!
# Answers that name options

An answer names an option exactly if it is a numeral of its number. How many digits there are does
not matter, and no number is taken for another one.

* `Numeral.Denotes.unique`: a text denotes one number at most.

Main statement: `Selection.parse_exact`.
-/

namespace PhraseGrammar

theorem Numeral.Denotes.unique {text : List Char} {m n : Nat} (hm : Denotes text m)
    (hn : Denotes text n) : m = n := by
  -- words that hold both numbers
  have hsize : 0 < m + n + 1 := Nat.succ_pos _
  have hreadm : read? (m + n + 1) text = some m := (read?_eq_some_iff hsize).2 ⟨hm, by omega⟩
  have hreadn : read? (m + n + 1) text = some n := (read?_eq_some_iff hsize).2 ⟨hn, by omega⟩
  exact Option.some.inj (hreadm.symm.trans hreadn)

namespace Selection

theorem parse_eq_error_of_forall {answer : String} {count : Nat}
    (h : ∀ index, Numeral.Denotes answer.toList (index + 1) → index + 1 < Numeral.wordCount →
      count ≤ index) :
    parse answer count = .error (.invalidSelection answer) := by
  rcases parse_cases answer count with ⟨index, hok⟩ | herror
  · obtain ⟨hdenotes, hword, hlt⟩ := parse_eq_ok_iff.1 hok
    have hle := h index hdenotes hword
    omega
  · exact herror

/-- **Exactly the numerals of the options name them**, if a 64-bit word counts the options, as it
does for lists in memory. An answer names the option with index `i` if and only if it denotes
`i + 1` and there is such an option; every other answer is refused, and shown as it is. A number
that is no 64-bit word is refused, however many options there are. The numerals in front of the
alternatives at the console name these alternatives. -/
theorem parse_exact (answer : String) (count : Nat) :
    (count < UInt64.size → ∀ index, parse answer count = .ok index ↔
        Numeral.Denotes answer.toList (index + 1) ∧ index < count) ∧
      ((¬ ∃ index, Numeral.Denotes answer.toList (index + 1) ∧ index < count) →
        parse answer count = .error (.invalidSelection answer)) ∧
      (∀ n, UInt64.size ≤ n → Numeral.Denotes answer.toList n →
        parse answer count = .error (.invalidSelection answer)) ∧
      ∀ alternatives,
        Console.menu alternatives =
          unlines ("Choose an option:" ::
              alternatives.mapIdx fun i a => (1 + i).repr ++ ") " ++ Form.text a) ++
            "[1-" ++ alternatives.length.repr ++ "] >" ∧
          (alternatives.length < UInt64.size →
            ∀ i < alternatives.length, parse (1 + i).repr alternatives.length = .ok i) := by
  refine ⟨?_, ?_, ?_, ?_⟩
  · intro hcount index
    rw [parse_eq_ok_iff]
    refine and_congr_right fun _ => and_iff_right_of_imp fun hlt => ?_
    exact Nat.lt_of_le_of_lt hlt hcount
  · intro hnone
    apply parse_eq_error_of_forall
    intro index hdenotes _
    by_contra hlt
    exact hnone ⟨index, hdenotes, by omega⟩
  · intro n hn hdenotes
    apply parse_eq_error_of_forall
    intro index hindex hword
    have hsame : index + 1 = n := hindex.unique hdenotes
    rw [hsame] at hword
    exact absurd hn (Nat.not_le.2 hword)
  · intro alternatives
    refine ⟨Console.menu_eq alternatives, fun hcount i hi => parse_eq_ok_iff.2 ⟨?_, ?_, hi⟩⟩
    · rw [← Nat.add_comm 1 i]
      exact Numeral.denotes_repr (1 + i)
    · exact Nat.lt_of_le_of_lt hi hcount

/-- Behind its leading zeros the last numeral is `2 ^ 64 + 1`, which would wrap to the first of two
options. -/
theorem parse_exact_large :
    parse "+002" 2 = .ok 1 ∧ parse "3" 2 = .error (.invalidSelection "3") ∧
      Numeral.Denotes "+0018446744073709551617".toList 18446744073709551617 ∧
      parse "+0018446744073709551617" 2 =
        .error (.invalidSelection "+0018446744073709551617") := by
  have hsecond : Numeral.Denotes "+002".toList 2 :=
    ⟨['+'], "002".toList, rfl, .inr rfl, by decide, List.all_eq_true.1 rfl, by decide⟩
  have hthird : Numeral.Denotes "3".toList 3 :=
    ⟨[], "3".toList, rfl, .inl rfl, by decide, List.all_eq_true.1 rfl, by decide⟩
  have hlarge : Numeral.Denotes "+0018446744073709551617".toList 18446744073709551617 :=
    ⟨['+'], "0018446744073709551617".toList, rfl, .inr rfl, by decide, List.all_eq_true.1 rfl,
      by decide⟩
  refine ⟨((parse_exact "+002" 2).1 (by decide) 1).2 ⟨hsecond, by decide⟩, ?_, hlarge, ?_⟩
  · apply (parse_exact "3" 2).2.1
    rintro ⟨index, hdenotes, hlt⟩
    have hsame : index + 1 = 3 := hdenotes.unique hthird
    omega
  · exact (parse_exact _ 2).2.2.1 _ (by decide) hlarge

end Selection

end PhraseGrammar
