import PhraseGrammar.Lexeme
import PhraseGrammar.Proofs.Layout
import Mathlib.Data.List.Basic

/-!
# Scanning lines

* `Symbol.inAlphabet`, `Token.inAlphabet`: the letters that a text can hold. Nothing else comes out
  of a text (`inAlphabet_of_ofText`);
* `Lexeme.Scans`: a line holds certain tokens, whatever their columns. Spaces, arrows and the
  characters of tokens are put in front of such a line one by one;
* `exists_ofLines`: the lexemes of lines that hold certain tokens.
-/

namespace PhraseGrammar

/-! ### Results of mapping and binding -/

theorem map_eq_ok_iff {ε α β : Type} {f : α → β} {x : Except ε α} {b : β} :
    f <$> x = .ok b ↔ ∃ a, x = .ok a ∧ f a = b := by
  cases x with
  | error e => exact iff_of_false (by rintro ⟨⟩) (by rintro ⟨a, ⟨⟩, -⟩)
  | ok a =>
    constructor
    · rintro ⟨⟩
      exact ⟨a, rfl, rfl⟩
    · rintro ⟨a, ⟨⟩, rfl⟩
      rfl

theorem bind_eq_ok_iff {ε α β : Type} {f : α → Except ε β} {x : Except ε α} {b : β} :
    x >>= f = .ok b ↔ ∃ a, x = .ok a ∧ f a = .ok b := by
  cases x with
  | error e => exact iff_of_false (by rintro ⟨⟩) (by rintro ⟨a, ⟨⟩, -⟩)
  | ok a =>
    constructor
    · exact fun h => ⟨a, rfl, h⟩
    · rintro ⟨a, ⟨⟩, h⟩
      exact h

/-! ### The alphabet -/

/-- Terminals are small letters, and nonterminals capital letters other than those that stand for
the empty-word mark and the start symbol. -/
def Symbol.inAlphabet : Symbol → Bool
  | terminal c => c.isLower
  | nonterminal c => c.isUpper && c != 'E' && c != 'S'
  | _ => true

/-- A token of the alphabet stands for a symbol of the alphabet, or for no symbol. -/
def Token.inAlphabet (t : Token) : Bool := t.symbol?.all Symbol.inAlphabet

@[simp] theorem Token.symbol?_token (s : Symbol) : s.token.symbol? = some s := by
  cases s <;> rfl

@[simp] theorem Token.inAlphabet_token (s : Symbol) : s.token.inAlphabet = s.inAlphabet := by
  simp [Token.inAlphabet]

theorem Token.inAlphabet_of_ofChar? {c : Char} {token : Token} (h : ofChar? c = some token) :
    token.inAlphabet = true := by
  unfold ofChar? at h
  split_ifs at h with h₁ h₂ h₃ h₄ h₅ <;> cases h
  · rfl
  · rfl
  · rfl
  · exact h₄
  · obtain ⟨h₁, -⟩ := not_or.1 h₁
    show (c.isUpper && c != 'E' && c != 'S') = true
    simp only [Bool.and_eq_true, bne_iff_ne]
    exact ⟨⟨h₅, h₁⟩, h₂⟩

/-- Every symbol of the alphabet is shown by a character that is read as this symbol. -/
theorem Token.ofChar?_glyph {s : Symbol} (h : s.inAlphabet = true) :
    ofChar? s.glyph = some s.token := by
  cases s with
  | start => rfl
  | epsilon => rfl
  | terminal c =>
    have hne : (c ≠ 'E' ∧ c ≠ 'ε') ∧ c ≠ 'S' ∧ c ≠ '|' := by
      refine ⟨⟨?_, ?_⟩, ?_, ?_⟩ <;> rintro rfl <;> cases h
    simp only [Symbol.inAlphabet] at h
    simp [ofChar?, Symbol.glyph, Symbol.token, hne, h]
  | nonterminal c =>
    have hne : (c ≠ 'E' ∧ c ≠ 'ε') ∧ c ≠ 'S' ∧ c ≠ '|' := by
      refine ⟨⟨?_, ?_⟩, ?_, ?_⟩ <;> rintro rfl <;> cases h
    simp only [Symbol.inAlphabet, Bool.and_eq_true] at h
    -- a capital letter is not a small one
    have hlower : ¬ c.isLower = true := by
      intro hlower
      have hupper : 'A'.val ≤ c.val ∧ c.val ≤ 'Z'.val := of_decide_eq_true h.1.1
      have hsmall : 'a'.val ≤ c.val := of_decide_eq_true (Bool.and_eq_true_iff.1 hlower).1
      exact absurd (UInt32.le_trans hsmall hupper.2) (by decide)
    simp [ofChar?, Symbol.glyph, Symbol.token, hne, h, hlower]

namespace Lexeme

/-! ### Lines -/

theorem scan_of_ofChar? {c : Char} {token : Token} (h : Token.ofChar? c = some token)
    (column : Nat) (rest : List Char) :
    scan column (c :: rest) = ((token, column) :: ·) <$> scan (column + 1) rest := by
  have hne : c ≠ ' ' ∧ c ≠ '\t' ∧ c ≠ '/' ∧ c ≠ '=' ∧ c ≠ '-' := by
    refine ⟨?_, ?_, ?_, ?_, ?_⟩ <;> rintro rfl <;> cases h
  rw [scan]
  · simp only [h]
  all_goals grind

theorem inAlphabet_of_scan {column : Nat} {line : List Char} {found : List (Token × Nat)}
    (h : scan column line = .ok found) : ∀ x ∈ found, x.1.inAlphabet = true := by
  fun_induction scan column line generalizing found with
  | case1 | case4 =>
    cases h
    simp
  | case2 column rest ih | case3 column rest ih => exact ih h
  | case5 column rest ih | case6 column rest ih =>
    obtain ⟨more, hmore, rfl⟩ := map_eq_ok_iff.1 h
    rw [List.forall_mem_cons]
    exact ⟨rfl, ih hmore⟩
  | case7 column c rest _ _ _ _ _ token htoken ih =>
    obtain ⟨more, hmore, rfl⟩ := map_eq_ok_iff.1 h
    rw [List.forall_mem_cons]
    exact ⟨Token.inAlphabet_of_ofChar? htoken, ih hmore⟩
  | case8 => cases h

/-- The line holds these tokens, in whatever columns. -/
def Scans (line : List Char) (tokens : List Token) : Prop :=
  ∀ column, ∃ found, scan column line = .ok found ∧ found.map Prod.fst = tokens

theorem scans_nil : Scans [] [] := by
  intro column
  exact ⟨[], rfl, rfl⟩

section Scans

variable {line : List Char} {tokens : List Token} (h : Scans line tokens)
include h

theorem Scans.space : Scans (' ' :: line) tokens := by
  intro column
  exact h (column + 1)

theorem Scans.arrow : Scans ('=' :: '>' :: line) (.assign :: tokens) := by
  intro column
  obtain ⟨found, hfound, htokens⟩ := h (column + 2)
  refine ⟨(.assign, column + 1) :: found, ?_, by simp [htokens]⟩
  rw [scan, hfound]
  rfl

theorem Scans.char {c : Char} {token : Token} (hc : Token.ofChar? c = some token) :
    Scans (c :: line) (token :: tokens) := by
  intro column
  obtain ⟨found, hfound, htokens⟩ := h (column + 1)
  refine ⟨(token, column) :: found, ?_, by simp [htokens]⟩
  rw [scan_of_ofChar? hc, hfound]
  rfl

theorem Scans.spelling {f : Form} (hf : ∀ s ∈ f, s.inAlphabet = true) :
    Scans (Form.spelling f ++ line) (Form.tokens f ++ tokens) := by
  induction f with
  | nil => exact h
  | cons s f ih =>
    rw [List.forall_mem_cons] at hf
    exact (ih hf.2).char (Token.ofChar?_glyph hf.1)

end Scans

/-! ### Texts -/

theorem inAlphabet_of_ofLine {file : Path} {number : Nat} {line : List Char}
    {lexemes : List Lexeme} (h : ofLine file number line = .ok lexemes) :
    ∀ x ∈ lexemes, x.token.inAlphabet = true := by
  unfold ofLine at h
  cases hscan : scan 1 line with
  | error e => rw [hscan] at h; cases h
  | ok found =>
    rw [hscan] at h
    cases h
    rw [List.forall_mem_map]
    exact inAlphabet_of_scan hscan

theorem inAlphabet_of_ofLines {file : Path} {number : Nat} {lines : List (List Char)}
    {lexemes : List Lexeme} (h : ofLines file number lines = .ok lexemes) :
    ∀ x ∈ lexemes, x.token.inAlphabet = true := by
  fun_induction ofLines file number lines generalizing lexemes with
  | case1 => cases h; simp
  | case2 number last =>
    obtain ⟨here, hhere, h⟩ := bind_eq_ok_iff.1 h
    cases h
    have hline := inAlphabet_of_ofLine hhere
    rw [List.forall_mem_append, List.forall_mem_singleton]
    exact ⟨hline, rfl⟩
  | case3 number line rest _ ih =>
    obtain ⟨here, hhere, h⟩ := bind_eq_ok_iff.1 h
    obtain ⟨more, hmore, h⟩ := bind_eq_ok_iff.1 h
    cases h
    have hline := inAlphabet_of_ofLine hhere
    have hrest := ih hmore
    rw [List.forall_mem_append, List.forall_mem_cons]
    exact ⟨hline, rfl, hrest⟩

theorem inAlphabet_of_ofText {file : Path} {text : String} {lexemes : List Lexeme}
    (h : ofText file text = .ok lexemes) : ∀ x ∈ lexemes, x.token.inAlphabet = true :=
  inAlphabet_of_ofLines h

/-- The lexemes of a line that holds certain tokens. -/
theorem Scans.exists_ofLine {line : List Char} {tokens : List Token} (h : Scans line tokens)
    (file : Path) (number : Nat) :
    ∃ lexemes, ofLine file number line = .ok lexemes ∧ lexemes.map Lexeme.token = tokens := by
  obtain ⟨found, hfound, rfl⟩ := h 1
  exact ⟨_, by rw [ofLine, hfound], by simp⟩

/-- The lexemes of lines that hold certain tokens. -/
theorem exists_ofLines {α : Type} {line : α → List Char} {tokens : α → List Token} {first : α}
    {rest : List α} (h : ∀ a ∈ first :: rest, Scans (line a) (tokens a)) (file : Path)
    (number : Nat) :
    ∃ lexemes, ofLines file number ((first :: rest).map line) = .ok lexemes ∧
      lexemes.map Lexeme.token =
        tokens first ++ (rest.flatMap fun a => .newLine :: tokens a) ++ [.endOfFile] := by
  induction rest generalizing first number with
  | nil =>
    obtain ⟨here, hhere, htokens⟩ := (h first (by simp)).exists_ofLine file number
    exact ⟨_, bind_eq_ok_iff.2 ⟨here, hhere, rfl⟩, by simp [htokens]⟩
  | cons second rest ih =>
    rw [List.forall_mem_cons] at h
    obtain ⟨here, hhere, htokens⟩ := h.1.exists_ofLine file number
    obtain ⟨more, hmore, hmoreTokens⟩ := ih h.2 (number + 1)
    refine ⟨here ++ ⟨.newLine, ⟨file, number, 1⟩⟩ :: more, ?_, by simp [htokens, hmoreTokens]⟩
    rw [List.map_cons, ofLines]
    · exact bind_eq_ok_iff.2 ⟨here, hhere, bind_eq_ok_iff.2 ⟨more, hmore, rfl⟩⟩
    · simp

end Lexeme

end PhraseGrammar
