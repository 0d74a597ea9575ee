import Mathlib.Algebra.Order.Floor.Div
import Mathlib.Algebra.BigOperators.Group.Finset.Sigma
import Mathlib.Data.Set.Card
import Mathlib.Order.Interval.Finset.Nat
import Mathlib.Tactic.Ring
import PhraseGrammar.Proofs.Choosers

/-!
# Draws are uniform

The words that give one index are consecutive, since the products of a number and the words go up
in equal steps. Wherever a stretch of `count * k` numbers begins, there are `k` multiples of `count`
in it: so every index has the same number of words.

* `Uniform.index?_eq_some_iff`: the stretch of products that gives an index;
* `Uniform.firstWord`: the first of the words that give an index. `index?_eq_some_iff_mem` says
  that they are the `2 ^ leadingZeros count` words from there on, and `firstWord_add_le` that none
  of them is missing;
* `Uniform.accepted`: the words that give an index at all (`card_accepted`);
* `WordStream.draw_eq_some_iff`: a draw takes the words up to the first one that is accepted.

Main statement: `draws_uniform`.
-/

namespace PhraseGrammar

namespace Uniform

variable {count index word : Nat}

/-! ### The stretch of products -/

/-- Moved up by its leading zeros, a number fills at least one half of the words and not more than
all of them. -/
theorem span_bounds (hcount : 0 < count) (hsize : count < Numeral.wordCount) :
    Numeral.wordCount ≤ 2 * (count * 2 ^ leadingZeros count) ∧
      count * 2 ^ leadingZeros count ≤ Numeral.wordCount := by
  have hne : count ≠ 0 := Nat.ne_of_gt hcount
  have hlog : count.log2 < 64 := (Nat.log2_lt hne).2 hsize
  have hwords : Numeral.wordCount = 2 ^ (count.log2 + 1) * 2 ^ leadingZeros count := by
    rw [← pow_add, leadingZeros, show count.log2 + 1 + (63 - count.log2) = 64 by omega]
    rfl
  constructor
  · calc Numeral.wordCount = 2 * (2 ^ count.log2 * 2 ^ leadingZeros count) := by
          rw [hwords, pow_succ]
          ring
      _ ≤ 2 * (count * 2 ^ leadingZeros count) :=
          Nat.mul_le_mul_left 2 (Nat.mul_le_mul_right _ (Nat.log2_self_le hne))
  · rw [hwords]
    exact Nat.mul_le_mul_right _ (Nat.le_of_lt Nat.lt_log2_self)

/-- A word gives an index if its product lies in the stretch that begins with the index as its high
half. -/
theorem index?_eq_some_iff (hcount : 0 < count) (hsize : count < Numeral.wordCount) :
    index? count word = some index ↔
      index * Numeral.wordCount ≤ word * count ∧
        word * count < index * Numeral.wordCount + count * 2 ^ leadingZeros count := by
  have hspan := (span_bounds hcount hsize).2
  have hpos : 0 < count * 2 ^ leadingZeros count := Nat.mul_pos hcount (Nat.two_pow_pos _)
  have hwords : 0 < Numeral.wordCount := Nat.lt_trans hcount hsize
  have hhalves := Nat.div_add_mod' (word * count) Numeral.wordCount
  have hlow := Nat.mod_lt (word * count) hwords
  have hzone : word * count % Numeral.wordCount ≤ zone count ↔
      word * count % Numeral.wordCount < count * 2 ^ leadingZeros count := by
    rw [zone, Nat.shiftLeft_eq]
    omega
  simp only [index?, hzone, Option.ite_none_right_eq_some, Option.some.injEq]
  constructor
  · rintro ⟨haccepted, rfl⟩
    omega
  · rintro ⟨hfrom, hto⟩
    have hindex : word * count / Numeral.wordCount = index :=
      Nat.div_eq_of_lt_le hfrom (by rw [Nat.succ_mul]; omega)
    rw [hindex] at hhalves
    exact ⟨by omega, hindex⟩

/-! ### The words of an index -/

/-- The first of the words that give an index. -/
def firstWord (count index : Nat) : Nat := index * Numeral.wordCount ⌈/⌉ count

theorem index?_eq_some_iff_mem (hcount : 0 < count) (hsize : count < Numeral.wordCount) :
    index? count word = some index ↔
      word ∈ Finset.Ico (firstWord count index)
        (firstWord count index + 2 ^ leadingZeros count) := by
  have hfrom : ∀ v, firstWord count index ≤ v ↔ index * Numeral.wordCount ≤ count * v := fun v =>
    ceilDiv_le_iff_le_mul hcount
  rw [index?_eq_some_iff hcount hsize, Finset.mem_Ico, hfrom, Nat.mul_comm word]
  refine and_congr_right fun _ => ?_
  -- a word lies behind the stretch if the one so many places before it does not lie in front of it
  generalize 2 ^ leadingZeros count = k
  rcases Nat.lt_or_ge word k with hlt | hge
  · have hproduct : count * word < count * k := Nat.mul_lt_mul_of_pos_left hlt hcount
    constructor
    · intro _
      omega
    · intro _
      omega
  · obtain ⟨v, rfl⟩ := Nat.exists_eq_add_of_le' hge
    rw [← not_iff_not, Nat.not_lt, Nat.not_lt, Nat.add_le_add_iff_right, hfrom, Nat.mul_add,
      Nat.add_le_add_iff_right]

/-- All words of an index below `count` are 64-bit words. -/
theorem firstWord_add_le (hcount : 0 < count) (hsize : count < Numeral.wordCount)
    (hindex : index < count) :
    firstWord count index + 2 ^ leadingZeros count ≤ Numeral.wordCount := by
  by_contra hover
  -- the number of words itself would be a word of the index, but its product is too large
  have hmem : Numeral.wordCount ∈ Finset.Ico (firstWord count index)
      (firstWord count index + 2 ^ leadingZeros count) := by
    refine Finset.mem_Ico.2 ⟨(ceilDiv_le_iff_le_mul hcount).2 ?_, Nat.not_le.1 hover⟩
    exact Nat.mul_le_mul_right _ (Nat.le_of_lt hindex)
  have hproduct := ((index?_eq_some_iff hcount hsize).1
    ((index?_eq_some_iff_mem hcount hsize).2 hmem)).2
  have hspan := (span_bounds hcount hsize).2
  have hnext : (index + 1) * Numeral.wordCount ≤ count * Numeral.wordCount :=
    Nat.mul_le_mul_right _ hindex
  rw [Nat.succ_mul] at hnext
  rw [Nat.mul_comm] at hproduct
  omega

/-- A set of words has as many elements as the set of the numbers that they are. -/
theorem ncard_words (P : Nat → Prop) {numbers : Finset Nat}
    (h : ∀ n, n ∈ numbers ↔ n < Numeral.wordCount ∧ P n) :
    {word : UInt64 | P word.toNat}.ncard = numbers.card := by
  have himage : UInt64.toNat '' {word : UInt64 | P word.toNat} = numbers := by
    ext n
    rw [Finset.mem_coe, h]
    constructor
    · rintro ⟨word, hword, rfl⟩
      exact ⟨word.toNat_lt_size, hword⟩
    · rintro ⟨hn, hP⟩
      have hword : (UInt64.ofNatLT n hn).toNat = n := UInt64.toNat_ofNatLT
      refine ⟨UInt64.ofNatLT n hn, ?_, hword⟩
      show P (UInt64.ofNatLT n hn).toNat
      rwa [hword]
  rw [← Set.ncard_coe_finset, ← himage]
  exact (Set.ncard_image_of_injective _ fun _ _ => UInt64.toNat_inj.1).symm

/-- **Every index has the same number of words.** -/
theorem ncard_index (hcount : 0 < count) (hsize : count < Numeral.wordCount)
    (hindex : index < count) :
    {word : UInt64 | index? count word.toNat = some index}.ncard = 2 ^ leadingZeros count := by
  have hwords := firstWord_add_le hcount hsize hindex
  have hmem : ∀ n, n ∈ Finset.Ico (firstWord count index)
      (firstWord count index + 2 ^ leadingZeros count) ↔
        n < Numeral.wordCount ∧ index? count n = some index := by
    intro n
    rw [index?_eq_some_iff_mem hcount hsize]
    constructor
    · intro hn
      exact ⟨Nat.lt_of_lt_of_le (Finset.mem_Ico.1 hn).2 hwords, hn⟩
    · exact And.right
  rw [ncard_words (fun n => index? count n = some index) hmem, Nat.card_Ico,
    Nat.add_sub_cancel_left]

/-- The words that are accepted: those of every index. -/
def accepted (count : Nat) : Finset Nat :=
  (Finset.range count).biUnion fun index =>
    Finset.Ico (firstWord count index) (firstWord count index + 2 ^ leadingZeros count)

theorem mem_accepted (hcount : 0 < count) (hsize : count < Numeral.wordCount) :
    word ∈ accepted count ↔ word < Numeral.wordCount ∧ ∃ index, index? count word = some index := by
  simp only [accepted, Finset.mem_biUnion, Finset.mem_range,
    ← index?_eq_some_iff_mem hcount hsize]
  constructor
  · rintro ⟨index, hindex, hword⟩
    have hmem := (index?_eq_some_iff_mem hcount hsize).1 hword
    exact ⟨Nat.lt_of_lt_of_le (Finset.mem_Ico.1 hmem).2 (firstWord_add_le hcount hsize hindex),
      index, hword⟩
  · rintro ⟨hlt, index, hword⟩
    exact ⟨index, lt_of_index? hcount hlt hword, hword⟩

/-- No word gives two indices. -/
theorem card_accepted (hcount : 0 < count) (hsize : count < Numeral.wordCount) :
    (accepted count).card = count * 2 ^ leadingZeros count := by
  unfold accepted
  rw [Finset.card_biUnion]
  · simp
  · intro i _ j _ hne
    refine Finset.disjoint_left.2 fun word hi hj => hne ?_
    have hsame := ((index?_eq_some_iff_mem hcount hsize).2 hi).symm.trans
      ((index?_eq_some_iff_mem hcount hsize).2 hj)
    exact Option.some.inj hsame

/-- **At least one half of the words are accepted.** -/
theorem le_ncard_accepted (hcount : 0 < count) (hsize : count < Numeral.wordCount) :
    Numeral.wordCount ≤
      2 * {word : UInt64 | ∃ index, index? count word.toNat = some index}.ncard := by
  rw [ncard_words (fun n => ∃ index, index? count n = some index)
    fun n => mem_accepted hcount hsize, card_accepted hcount hsize]
  exact (span_bounds hcount hsize).1

end Uniform

/-! ### Draws -/

namespace WordStream

variable {w : WordStream} {count position index next : Nat}

/-- From the given position on, so many words are refused, and the one behind them gives the
index. -/
structure Draws (w : WordStream) (count position refused index : Nat) : Prop where
  refuses : ∀ k < refused, Uniform.index? count (w.word (position + k)).toNat = none
  accepts : Uniform.index? count (w.word (position + refused)).toNat = some index

theorem draws_zero :
    w.Draws count position 0 index ↔
      Uniform.index? count (w.word position).toNat = some index :=
  ⟨fun h => h.accepts, fun h => ⟨fun k hk => absurd hk (Nat.not_lt_zero k), h⟩⟩

theorem draws_succ {refused : Nat} :
    w.Draws count position (refused + 1) index ↔
      Uniform.index? count (w.word position).toNat = none ∧
        w.Draws count (position + 1) refused index := by
  have hshift : ∀ k, position + 1 + k = position + (k + 1) := fun k => by omega
  constructor
  · rintro ⟨hrefuses, haccepts⟩
    refine ⟨hrefuses 0 (Nat.succ_pos refused), fun k hk => ?_, ?_⟩
    · rw [hshift]
      exact hrefuses (k + 1) (Nat.succ_lt_succ hk)
    · rwa [hshift]
  · rintro ⟨hfirst, hrefuses, haccepts⟩
    refine ⟨fun k hk => ?_, ?_⟩
    · rcases k with _ | k
      · exact hfirst
      · rw [← hshift]
        exact hrefuses k (Nat.lt_of_succ_lt_succ hk)
    · rwa [← hshift]

theorem drawWithin_eq_some_iff {words : Nat} :
    w.drawWithin count words position = some (index, next) ↔
      ∃ refused < words, w.Draws count position refused index ∧
        next = position + refused + 1 := by
  induction words generalizing position with
  | zero => simp [drawWithin]
  | succ words ih =>
    unfold drawWithin
    cases hfirst : Uniform.index? count (w.word position).toNat with
    | some first =>
      simp only [Option.some.injEq, Prod.mk.injEq]
      constructor
      · rintro ⟨rfl, rfl⟩
        exact ⟨0, Nat.succ_pos words, draws_zero.2 hfirst, rfl⟩
      · rintro ⟨_ | refused, -, hdraws, rfl⟩
        · exact ⟨Option.some.inj (hfirst.symm.trans hdraws.accepts), rfl⟩
        · cases hfirst.symm.trans (draws_succ.1 hdraws).1
    | none =>
      simp only [ih]
      constructor
      · rintro ⟨refused, hlt, hdraws, rfl⟩
        exact ⟨refused + 1, Nat.succ_lt_succ hlt, draws_succ.2 ⟨hfirst, hdraws⟩, by omega⟩
      · rintro ⟨_ | refused, hlt, hdraws, rfl⟩
        · cases hfirst.symm.trans (draws_zero.1 hdraws)
        · exact ⟨refused, Nat.lt_of_succ_lt_succ hlt, (draws_succ.1 hdraws).2, by omega⟩

end WordStream

/-! ### The main statement -/

namespace Chooser

variable {w : WordStream} {alternatives : List Form}

/-- A chooser without questions writes nothing, so a pick is only an answer. -/
theorem pick_of_prompt_eq {σ : Type} {c : Chooser σ} (h : c.prompt alternatives = "")
    (s : Session σ) :
    c.pick alternatives s =
      (c.answer alternatives s.chooser).map fun (result, chooser) =>
        (result, { s with chooser }) := by
  have hempty : s.output.write "" = (.ok (), s.output) := by
    show ((.ok (), ⟨s.output.written ++ .empty, _, _⟩) : Except Fault Unit × Stream) = _
    rw [ByteArray.append_empty]
    rfl
  have hwrite : Action.write "" s = some (.ok (), s) := by
    unfold Action.write
    rw [hempty]
    rfl
  rw [pick, h, Action.bind_apply, hwrite]
  rfl

theorem answer_random_eq_some_iff (hne : alternatives ≠ []) {position next : Nat}
    {result : Except GenerateError Nat} :
    (random w).answer alternatives position = some (result, next) ↔
      ∃ index, ∃ refused < w.period, result = .ok index ∧
        w.Draws alternatives.length position refused index ∧ next = position + refused + 1 := by
  simp only [random, List.isEmpty_iff, hne, if_false, Option.map_eq_some_iff]
  constructor
  · rintro ⟨⟨index, next'⟩, hdraw, heq⟩
    cases heq
    obtain ⟨refused, hlt, hdraws, rfl⟩ := WordStream.drawWithin_eq_some_iff.1 hdraw
    exact ⟨index, refused, hlt, rfl, hdraws, rfl⟩
  · rintro ⟨index, refused, hlt, rfl, hdraws, rfl⟩
    exact ⟨(index, _), WordStream.drawWithin_eq_some_iff.2 ⟨refused, hlt, hdraws, rfl⟩, rfl⟩

/-- **Choosing at random is uniform.** Without alternatives the pick fails, and no word is taken.
With alternatives, and fewer of them than there are words, a pick takes words up to the first one
that is accepted, and gives the index of this word. Every word that is accepted gives an index
below the number of alternatives; each of these indices is given by the same number of words, which
is two to the power of the leading zeros; and at least one half of the words are accepted. -/
theorem draws_uniform (w : WordStream) :
    (∀ s, (random w).pick [] s = some (.error .emptyAlternatives, s)) ∧
    ∀ alternatives : List Form, alternatives ≠ [] → alternatives.length < UInt64.size →
      (∀ s t result, (random w).pick alternatives s = some (result, t) ↔
        ∃ index, ∃ refused < w.period, result = .ok index ∧
          w.Draws alternatives.length s.chooser refused index ∧
          t = ⟨s.chooser + refused + 1, s.output⟩) ∧
      (∀ (word : UInt64) (index : Nat),
        Uniform.index? alternatives.length word.toNat = some index →
          index < alternatives.length) ∧
      (∀ index < alternatives.length,
        {word : UInt64 | Uniform.index? alternatives.length word.toNat = some index}.ncard =
          2 ^ Uniform.leadingZeros alternatives.length) ∧
      UInt64.size ≤ 2 * {word : UInt64 |
        ∃ index, Uniform.index? alternatives.length word.toNat = some index}.ncard := by
  refine ⟨fun s => pick_of_prompt_eq rfl s, fun alternatives hne hsize => ?_⟩
  have hcount : 0 < alternatives.length := List.length_pos_iff.2 hne
  refine ⟨fun s t result => ?_, fun word index => ?_, fun index hindex => ?_, ?_⟩
  · rw [pick_of_prompt_eq rfl, Option.map_eq_some_iff]
    constructor
    · rintro ⟨⟨_, next⟩, hanswer, heq⟩
      cases heq
      obtain ⟨index, refused, hlt, rfl, hdraws, rfl⟩ := (answer_random_eq_some_iff hne).1 hanswer
      exact ⟨index, refused, hlt, rfl, hdraws, rfl⟩
    · rintro ⟨index, refused, hlt, rfl, hdraws, rfl⟩
      exact ⟨_, (answer_random_eq_some_iff hne).2 ⟨index, refused, hlt, rfl, hdraws, rfl⟩, rfl⟩
  · exact Uniform.lt_of_index? hcount word.toNat_lt_size
  · exact Uniform.ncard_index hcount hsize hindex
  · exact Uniform.le_ncard_accepted hcount hsize

/-- Two words, the first of which is refused when there are three alternatives. -/
def seldom : WordStream := .cycle #[4611686018427387904, 9223372036854775808]

theorem draws_uniform_seldom (output : Stream) :
    (random seldom).pick [[.epsilon], [.terminal 'a'], [.terminal 'b']] ⟨0, output⟩ =
        some (.ok 1, ⟨2, output⟩) ∧
      {word : UInt64 | Uniform.index? 3 word.toNat = some 1}.ncard = 2 ^ 62 := by
  obtain ⟨hpick, -, hcard, -⟩ := (draws_uniform seldom).2
    [[.epsilon], [.terminal 'a'], [.terminal 'b']] (by decide) (by decide)
  have hdraws : seldom.Draws 3 0 1 1 := ⟨by decide, by decide⟩
  exact ⟨(hpick _ _ _).2 ⟨1, 1, by decide, rfl, hdraws, rfl⟩, hcard 1 (by decide)⟩

end Chooser

end PhraseGrammar
