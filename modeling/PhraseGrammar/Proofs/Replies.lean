import Mathlib.Data.List.Basic
import Mathlib.Data.List.TakeWhile
import PhraseGrammar.Proofs.Choosers

/-!
# Replies at the console

* `Console.Margin`: white space within a line;
* `Console.Reply`: a line that names an option, with leading zeros and margins. It is taken off the
  input (`takeLine_bytes`) and understood (`answer_bytes`), whatever comes after it;
* `IsTrimmed`: a text without the white space at its two ends. There is one such text (`trim_eq`,
  `isTrimmed_trim`).
-/

namespace PhraseGrammar

/-! ### Text -/

theorem fromUTF8?_toUTF8 (text : String) : String.fromUTF8? text.toUTF8 = some text := by
  unfold String.fromUTF8?
  rw [String.toUTF8_eq_toByteArray, dif_pos text.isValidUTF8]
  rfl

/-- White space is dropped up to the first character that is none. -/
theorem dropWhile_isBlank {margin text : List Char} (hmargin : ∀ c ∈ margin, isBlank c = true)
    (htext : ∀ c ∈ text.head?, isBlank c = false) : (margin ++ text).dropWhile isBlank = text := by
  rw [List.dropWhile_append_of_pos hmargin]
  cases text with
  | nil => rfl
  | cons first rest => simp [htext first rfl]

/-- `core` is the text without the white space at its two ends. -/
structure IsTrimmed (text core : List Char) : Prop where
  surrounded : ∃ before after, text = before ++ core ++ after ∧
    (∀ c ∈ before, isBlank c = true) ∧ ∀ c ∈ after, isBlank c = true
  head : ∀ c ∈ core.head?, isBlank c = false
  last : ∀ c ∈ core.getLast?, isBlank c = false

theorem IsTrimmed.trim_eq {text core : List Char} (h : IsTrimmed text core) :
    trim text = core := by
  obtain ⟨⟨before, after, rfl, hbefore, hafter⟩, hhead, hlast⟩ := h
  cases core with
  | nil =>
    have hblank : ∀ c ∈ before ++ [] ++ after, isBlank c = true := by
      intro c hc
      rw [List.append_nil, List.mem_append] at hc
      exact hc.elim (hbefore c) (hafter c)
    rw [trim, List.dropWhile_eq_nil_iff.2 hblank]
    rfl
  | cons first rest =>
    have hreverse : ∀ c ∈ (first :: rest).reverse.head?, isBlank c = false := by
      rwa [List.head?_reverse]
    have hfirst : ∀ c ∈ (first :: rest ++ after).head?, isBlank c = false := hhead
    rw [trim, List.append_assoc, dropWhile_isBlank hbefore hfirst, List.reverse_append,
      dropWhile_isBlank (fun c hc => hafter c (List.mem_reverse.1 hc)) hreverse,
      List.reverse_reverse]

theorem isBlank_of_mem_head? {text : List Char} {c : Char}
    (h : c ∈ (text.dropWhile isBlank).head?) : isBlank c = false := by
  have hfirst := List.head?_dropWhile_not isBlank text
  rwa [h] at hfirst

theorem isTrimmed_trim (text : List Char) : IsTrimmed text (trim text) := by
  obtain ⟨after, hrest, hafter⟩ : ∃ after, text.dropWhile isBlank = trim text ++ after ∧
      ∀ c ∈ after, isBlank c = true := by
    refine ⟨((text.dropWhile isBlank).reverse.takeWhile isBlank).reverse, ?_, ?_⟩
    · rw [trim, ← List.reverse_append, List.takeWhile_append_dropWhile, List.reverse_reverse]
    · intro c hc
      exact List.mem_takeWhile_imp (List.mem_reverse.1 hc)
  refine ⟨⟨text.takeWhile isBlank, after, ?_, fun c => List.mem_takeWhile_imp, hafter⟩, ?_, ?_⟩
  · rw [List.append_assoc, ← hrest, List.takeWhile_append_dropWhile]
  · intro c hc
    apply isBlank_of_mem_head?
    rw [hrest]
    exact List.mem_head?_append_of_mem_head? hc
  · intro c hc
    rw [trim, List.getLast?_reverse] at hc
    exact isBlank_of_mem_head? hc

/-- White space around a text without white space. -/
theorem trim_append {before core after : List Char} (hbefore : ∀ c ∈ before, isBlank c = true)
    (hafter : ∀ c ∈ after, isBlank c = true) (hcore : ∀ c ∈ core, isBlank c = false) :
    trim (before ++ core ++ after) = core :=
  IsTrimmed.trim_eq
    { surrounded := ⟨before, after, rfl, hbefore, hafter⟩
      head := fun c hc => hcore c (List.mem_of_mem_head? hc)
      last := fun c hc => hcore c (List.mem_of_mem_getLast? hc) }

theorem isBlank_of_isDigit {c : Char} (h : c.isDigit = true) : isBlank c = false := by
  have hrange : 48 ≤ c.toNat ∧ c.toNat ≤ 57 := by
    simpa [Char.isDigit, UInt32.le_iff_toNat_le] using h
  by_contra hblank
  have hmem : c.toNat ∈ Blank.codes := by simpa [isBlank] using hblank
  simp only [Blank.codes, List.mem_cons, List.not_mem_nil, or_false] at hmem
  omega

namespace Console

/-- White space in a line. -/
structure Margin where
  chars : List Char
  blank : ∀ c ∈ chars, isBlank c = true
  inLine : '\n' ∉ chars

/-- A line of input that names the option with this index: its number, which is one more, in decimal
and with leading zeros, between two margins. -/
structure Reply where
  before : Margin
  zeros : Nat
  index : Nat
  after : Margin

namespace Reply

variable (r : Reply)

/-- What stands in the line before its line feed. -/
def content : List Char := r.before.chars ++ Numeral.padded r.zeros (r.index + 1) ++ r.after.chars

/-- The line as it comes from the input. -/
def bytes : List UInt8 := (String.ofList (r.content ++ ['\n'])).toUTF8.data.toList

/-- All bytes of a character other than a line feed belong to the line. -/
theorem inLine_of_mem_encode {c : Char} (h : c ≠ '\n') {b : UInt8}
    (hb : b ∈ String.utf8EncodeChar c) : inLine b = true := by
  have hc : c.val.toNat ≠ 10 := fun heq => h (Char.ext (UInt32.toNat_inj.1 heq))
  have hne : b.toNat ≠ 10 := by
    unfold String.utf8EncodeChar at hb
    dsimp only at hb
    generalize c.val.toNat = v at hb hc
    split_ifs at hb <;> simp only [List.mem_cons, List.not_mem_nil, or_false] at hb <;>
      rcases hb with rfl | rfl | rfl | rfl <;> simp only [UInt8.toNat_ofNat'] <;> omega
  have hb' : b ≠ lineFeed := fun heq => hne (by rw [heq]; rfl)
  simpa [inLine] using hb'

theorem bytes_eq : r.bytes = r.content.flatMap String.utf8EncodeChar ++ [lineFeed] := by
  rw [bytes, String.toUTF8, String.toByteArray_ofList, List.utf8Encode, List.data_toByteArray,
    List.flatMap_append]
  rfl

theorem lineFeed_not_mem_content : '\n' ∉ r.content := by
  intro hmem
  rcases List.mem_append.1 hmem with hmem | hmem
  · rcases List.mem_append.1 hmem with hmem | hmem
    · exact r.before.inLine hmem
    · cases Numeral.isDigit_of_mem_padded hmem
  · exact r.after.inLine hmem

/-- The line is taken off the input, and nothing else. -/
theorem takeLine_bytes (rest : List UInt8) : takeLine (r.bytes ++ rest) = (r.bytes, rest) := by
  have hline : ∀ b ∈ r.content.flatMap String.utf8EncodeChar, inLine b = true := by
    intro b hb
    obtain ⟨c, hc, hb⟩ := List.mem_flatMap.1 hb
    exact inLine_of_mem_encode (fun heq => r.lineFeed_not_mem_content (heq ▸ hc)) hb
  have hend : inLine lineFeed = false := rfl
  rw [takeLine, bytes_eq, List.append_assoc, List.takeWhile_append_of_pos hline,
    List.dropWhile_append_of_pos hline]
  simp [hend]

/-- The line is understood, if there is such an option and a word counts the options. -/
theorem answer_bytes {count : Nat} (h : r.index < count) (hcount : count < Numeral.wordCount) :
    answer r.bytes count = .ok r.index := by
  have htext : String.fromUTF8? ⟨r.bytes.toArray⟩ = some (String.ofList (r.content ++ ['\n'])) := by
    rw [bytes, Array.toArray_toList]
    exact fromUTF8?_toUTF8 _
  have hafter : ∀ c ∈ r.after.chars ++ ['\n'], isBlank c = true := by
    intro c hc
    rcases List.mem_append.1 hc with hc | hc
    · exact r.after.blank c hc
    · rw [List.mem_singleton.1 hc]
      rfl
  have htrim : trim (r.content ++ ['\n']) = Numeral.padded r.zeros (r.index + 1) := by
    rw [content, List.append_assoc]
    exact trim_append r.before.blank hafter fun c hc =>
      isBlank_of_isDigit (Numeral.isDigit_of_mem_padded hc)
  rw [answer, htext]
  simp only [String.toList_ofList, htrim]
  refine Selection.parse_eq_ok_iff.2 ⟨?_, by omega, h⟩
  rw [String.toList_ofList]
  exact Numeral.denotes_padded r.zeros (r.index + 1)

end Reply

end Console

end PhraseGrammar
