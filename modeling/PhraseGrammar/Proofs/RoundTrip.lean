import PhraseGrammar.Proofs.Acceptance

/-!
# Grammars as text

A grammar that has been read is written as text and read again without change. The grammars that
can be read at all are the well-formed ones over the alphabet (`wellFormed_of_ofText`,
`ofText_text`). Main statement: `ofText_text_of_ofText`.
-/

namespace PhraseGrammar

open Lexeme

/-! ### Members of a list with separators -/

theorem forall_mem_intercalate {α : Type} {P : α → Prop} {separator : List α} {parts : List (List α)}
    (hseparator : ∀ x ∈ separator, P x) (hparts : ∀ part ∈ parts, ∀ x ∈ part, P x) :
    ∀ x ∈ separator.intercalate parts, P x := by
  induction parts with
  | nil => simp
  | cons part rest ih =>
    rw [List.forall_mem_cons] at hparts
    by_cases hrest : rest = []
    · subst hrest
      simpa using hparts.1
    · rw [List.intercalate_cons_of_ne_nil hrest, List.forall_mem_append, List.forall_mem_append]
      exact ⟨⟨hparts.1, hseparator⟩, ih hparts.2⟩

theorem mem_intercalate_of_mem {α : Type} {separator part : List α} {parts : List (List α)} {x : α}
    (hpart : part ∈ parts) (hx : x ∈ part) : x ∈ separator.intercalate parts := by
  induction parts with
  | nil => cases hpart
  | cons first rest ih =>
    by_cases hrest : rest = []
    · subst hrest
      obtain rfl := List.mem_singleton.1 hpart
      simpa using hx
    · rw [List.intercalate_cons_of_ne_nil hrest, List.mem_append]
      rcases List.mem_cons.1 hpart with rfl | hpart
      · exact .inl (List.mem_append_left _ hx)
      · exact .inr (ih hpart)

/-! ### Over the alphabet -/

/-- All letters of the rule are of the alphabet. -/
def Rule.OverAlphabet (r : Rule) : Prop :=
  (∀ s ∈ r.pattern, s.inAlphabet = true) ∧ ∀ a ∈ r.alternatives, ∀ s ∈ a, s.inAlphabet = true

/-- All letters of the grammar are of the alphabet. -/
def Grammar.OverAlphabet (g : Grammar) : Prop := ∀ r ∈ g.rules, r.OverAlphabet

theorem Rule.overAlphabet_of_tokens {r : Rule} (h : ∀ t ∈ r.tokens, t.inAlphabet = true) :
    r.OverAlphabet := by
  rw [Rule.tokens, List.forall_mem_append, List.forall_mem_cons] at h
  constructor
  · intro s hs
    simpa using h.1 s.token (List.mem_map_of_mem hs)
  · intro a ha s hs
    have hmem : s.token ∈ [Token.or].intercalate (r.alternatives.map Form.tokens) :=
      mem_intercalate_of_mem (List.mem_map_of_mem ha) (List.mem_map_of_mem hs)
    simpa using h.2.2 s.token hmem

theorem Layout.mem_tokens {l : Layout} {r : Rule} (hr : r ∈ l.rules) {t : Token}
    (ht : t ∈ r.tokens) : t ∈ l.tokens := by
  rw [tokens, List.mem_append]
  rcases List.mem_cons.1 hr with rfl | hr
  · exact .inl ht
  · obtain ⟨line, hline, rfl⟩ := List.mem_map.1 hr
    exact .inr (List.mem_flatMap.2 ⟨line, hline, List.mem_append_right _ ht⟩)

theorem Grammar.Written.overAlphabet {g : Grammar} {tokens : List Token} (h : g.Written tokens)
    (htokens : ∀ t ∈ tokens, t.inAlphabet = true) : g.OverAlphabet := by
  obtain ⟨l, hrules, hending⟩ := h
  intro r hr
  rw [← hrules] at hr
  apply Rule.overAlphabet_of_tokens
  intro t ht
  have hmem := l.mem_tokens hr ht
  apply htokens
  rcases hending with rfl | rfl
  · exact List.mem_append_left _ hmem
  · exact List.mem_append_left _ hmem

/-- Only well-formed grammars over the alphabet are read from texts. -/
theorem wellFormed_of_ofText {file : Path} {text : String} {g : Grammar}
    (h : Grammar.ofText file text = .ok g) : g.WellFormed ∧ g.OverAlphabet := by
  obtain ⟨lexemes, hlexemes, h⟩ := bind_eq_ok_iff.1 h
  obtain ⟨accepted, rest, rfl, hwell, hwritten⟩ := Grammar.ofLexemes_eq_ok.1 h
  have halphabet := inAlphabet_of_ofText hlexemes
  rw [List.forall_mem_append] at halphabet
  refine ⟨hwell, hwritten.overAlphabet ?_⟩
  rw [List.forall_mem_map]
  exact halphabet.1

/-! ### Reading what is shown -/

namespace Rule

variable {r : Rule} (halphabet : r.OverAlphabet)
include halphabet

theorem scans_alternatives (hne : r.alternatives ≠ []) :
    Scans (" | ".toList.intercalate (r.alternatives.map Form.spelling))
      ([.or].intercalate (r.alternatives.map Form.tokens)) := by
  obtain ⟨p, alternatives⟩ := r
  obtain ⟨-, halternatives⟩ := halphabet
  simp only at hne halternatives ⊢
  induction alternatives with
  | nil => exact absurd rfl hne
  | cons a rest ih =>
    rw [List.forall_mem_cons] at halternatives
    by_cases hrest : rest = []
    · subst hrest
      simpa using scans_nil.spelling halternatives.1
    · have hbar : " | ".toList = [' ', '|', ' '] := rfl
      have hmore := (((ih hrest halternatives.2).space.char (c := '|') rfl).space).spelling
        halternatives.1
      rw [List.map_cons, List.map_cons, List.intercalate_cons_of_ne_nil (by simpa using hrest),
        List.intercalate_cons_of_ne_nil (by simpa using hrest)]
      simpa [hbar] using hmore

/-- A rule as it is shown holds the tokens of the rule. -/
theorem scans_spelling (hne : r.alternatives ≠ []) : Scans r.spelling r.tokens := by
  have harrow : " => ".toList = [' ', '=', '>', ' '] := rfl
  have := (scans_alternatives halphabet hne).space.arrow.space.spelling halphabet.1
  simpa [spelling, tokens, harrow] using this

/-- No line ends within a rule. -/
theorem forall_mem_spelling : ∀ c ∈ r.spelling, c ≠ '\n' ∧ c ≠ '\r' := by
  have hform : ∀ f : Form, (∀ s ∈ f, s.inAlphabet = true) →
      ∀ c ∈ Form.spelling f, c ≠ '\n' ∧ c ≠ '\r' := by
    intro f hf c hc
    obtain ⟨s, hs, rfl⟩ := List.mem_map.1 hc
    -- neither character is read as a token
    have hread := Token.ofChar?_glyph (hf s hs)
    constructor <;> intro heq <;> rw [heq] at hread <;> cases hread
  rw [spelling, List.forall_mem_append, List.forall_mem_append]
  refine ⟨⟨hform _ halphabet.1, by simp⟩, forall_mem_intercalate (by simp) ?_⟩
  rw [List.forall_mem_map]
  intro a ha
  exact hform a (halphabet.2 a ha)

end Rule

theorem lines_text {g : Grammar} (halphabet : g.OverAlphabet) (hne : g.rules ≠ []) :
    Lexeme.lines g.text = g.rules.map Rule.spelling := by
  have hlines : ∀ r ∈ g.rules, ∀ c ∈ r.spelling, c ≠ '\n' ∧ c ≠ '\r' := by
    intro r hr
    exact Rule.forall_mem_spelling (halphabet r hr)
  rw [Lexeme.lines, Grammar.text, String.toList_ofList, Grammar.spelling,
    List.splitOn_intercalate '\n' ?_ (by simpa using hne), List.map_map]
  · -- no line ends with a carriage return that would be dropped
    apply List.map_congr_left
    intro r hr
    rw [Function.comp_apply, if_neg]
    intro hlast
    exact (hlines r hr _ (List.mem_of_getLast? hlast)).2 rfl
  · rw [List.forall_mem_map]
    intro r hr hmem
    exact (hlines r hr _ hmem).1 rfl

/-- A well-formed grammar over the alphabet is read from the text that shows it. -/
theorem ofText_text {g : Grammar} (hwell : g.WellFormed) (halphabet : g.OverAlphabet)
    (file : Path) : Grammar.ofText file g.text = .ok g := by
  rcases g with ⟨_ | ⟨first, rest⟩⟩
  · exact hwell.elim
  have halternatives : ∀ r ∈ first :: rest, r.alternatives ≠ [] := by
    rw [List.forall_mem_cons]
    refine ⟨hwell.1.2.1, ?_⟩
    intro r hr
    exact (hwell.2 r hr).2.1
  have hscans : ∀ r ∈ first :: rest, Scans r.spelling r.tokens := by
    intro r hr
    exact Rule.scans_spelling (halphabet r hr) (halternatives r hr)
  obtain ⟨lexemes, hlexemes, htokens⟩ := exists_ofLines hscans file 1
  have hlexed : Lexeme.ofText file (Grammar.text ⟨first :: rest⟩) = .ok lexemes := by
    rw [Lexeme.ofText, lines_text halphabet (by simp)]
    exact hlexemes
  -- the text has a line for each rule, and no blank lines
  have hwritten : Grammar.Written ⟨first :: rest⟩ (lexemes.map Lexeme.token) := by
    refine ⟨⟨first, rest.map (false, ·)⟩, ?_, .inl ?_⟩
    · simp [Layout.rules, Function.comp_def]
    · rw [htokens]
      simp [Layout.tokens, lineBreak, List.flatMap_map]
  have hread : Grammar.ofLexemes lexemes = .ok ⟨first :: rest⟩ :=
    Grammar.ofLexemes_eq_ok.2 ⟨lexemes, [], (List.append_nil _).symm, hwell, hwritten⟩
  exact bind_eq_ok_iff.2 ⟨lexemes, hlexed, hread⟩

/-- **Showing and reading are inverse.** What has been read is read again from the text that shows
it; what can be read are the well-formed grammars over the alphabet, each from the text that shows
it; and so no two of them are shown alike. -/
theorem ofText_text_of_ofText (file : Path) :
    (∀ text g, Grammar.ofText file text = .ok g → Grammar.ofText file g.text = .ok g) ∧
      (∀ g, (∃ text, Grammar.ofText file text = .ok g) ↔ g.WellFormed ∧ g.OverAlphabet) ∧
      (∀ g : Grammar, g.WellFormed → g.OverAlphabet → Grammar.ofText file g.text = .ok g) ∧
      ∀ g h : Grammar, g.WellFormed → g.OverAlphabet → h.WellFormed → h.OverAlphabet →
        g.text = h.text → g = h := by
  refine ⟨?_, ?_, ?_, ?_⟩
  · intro text g hread
    obtain ⟨hwell, halphabet⟩ := wellFormed_of_ofText hread
    exact ofText_text hwell halphabet file
  · intro g
    constructor
    · rintro ⟨text, hread⟩
      exact wellFormed_of_ofText hread
    · rintro ⟨hwell, halphabet⟩
      exact ⟨g.text, ofText_text hwell halphabet file⟩
  · intro g hwell halphabet
    exact ofText_text hwell halphabet file
  · intro g h hg hg' hh hh' htext
    have hread := ofText_text hg hg' file
    rw [htext, ofText_text hh hh' file] at hread
    cases hread
    rfl

theorem ofText_text_of_ofText_spaced :
    Grammar.ofText ⟨"spaced.lang"⟩ "S->εA|b// a comment\r\n\nAb => c\n" = .ok Grammar.spaced ∧
      Grammar.ofText ⟨"spaced.lang"⟩ Grammar.spaced.text = .ok Grammar.spaced ∧
      Grammar.spaced.WellFormed ∧ Grammar.spaced.OverAlphabet := by
  have hread : Grammar.ofText ⟨"spaced.lang"⟩ "S->εA|b// a comment\r\n\nAb => c\n" =
      .ok Grammar.spaced := rfl
  obtain ⟨hround, himage, -, -⟩ := ofText_text_of_ofText ⟨"spaced.lang"⟩
  exact ⟨hread, hround _ _ hread, (himage _).1 ⟨_, hread⟩⟩

end PhraseGrammar
