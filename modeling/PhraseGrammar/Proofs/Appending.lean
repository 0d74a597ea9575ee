import PhraseGrammar.Proofs.Consumption
import PhraseGrammar.Proofs.RoundTrip
import PhraseGrammar.Proofs.Seams

/-!
# Rules appended to a text

A rule can be appended to a text that has been read, in a line of its own. The end of the file at
the end of the old text gives way to the end of a line there, behind which the next rule may begin.

* `Lexeme.exists_ofText_append`: the tokens of a text with one more line;
* `Reading.Moves.reads_append`: where the end of the file is read, one more rule can be read
  instead.

Main statement: `Grammar.ofText_append_rule`.
-/

namespace PhraseGrammar

/-! ### The tokens of one more line -/

namespace Lexeme

theorem lines_append_line {line : List Char} (hline : ∀ c ∈ line, c ≠ '\n' ∧ c ≠ '\r')
    (text : String) : lines (text ++ "\n" ++ String.ofList line) = lines text ++ [line] := by
  have hfeed : '\n' ∉ line := fun h => (hline _ h).1 rfl
  have htrimmed : trimmed line = line :=
    if_neg fun hlast => (hline _ (List.mem_of_getLast? hlast)).2 rfl
  have htext :
      text ++ "\n" ++ String.ofList line = String.ofList (text.toList ++ '\n' :: line) := by
    simp [String.ext_iff]
  have hlines : lines text = (text.toList.splitOn '\n').map trimmed := rfl
  rw [htext, lines_ofList, splitOn_last hfeed, List.map_append, List.map_singleton, htrimmed,
    hlines]

/-- One more line ends the one that was the last, and the end of the file comes behind it. -/
theorem exists_ofLines_concat {file : Path} {number : Nat} {before : List (List Char)}
    (hne : before ≠ []) {lexemes : List Lexeme} (h : ofLines file number before = .ok lexemes)
    {line : List Char} {tokens : List Token} (hline : Scans line tokens) :
    ∃ front more, lexemes.map Lexeme.token = front ++ [.endOfFile] ∧
      ofLines file number (before ++ [line]) = .ok more ∧
      more.map Lexeme.token = front ++ .newLine :: tokens ++ [.endOfFile] := by
  fun_induction ofLines file number before generalizing lexemes with
  | case1 => exact absurd rfl hne
  | case2 number last =>
    obtain ⟨here, hhere, h⟩ := bind_eq_ok_iff.1 h
    cases h
    obtain ⟨added, hadded, rfl⟩ := hline.exists_ofLine file (number + 1)
    have hlast : ofLines file (number + 1) [line] =
        .ok (added ++ [⟨.endOfFile, ⟨file, number + 1, line.length⟩⟩]) :=
      bind_eq_ok_iff.2 ⟨added, hadded, rfl⟩
    have hmore : ofLines file number [last, line] =
        .ok (here ++ ⟨.newLine, ⟨file, number, 1⟩⟩ ::
          (added ++ [⟨.endOfFile, ⟨file, number + 1, line.length⟩⟩])) := by
      rw [ofLines_cons_of_ok hhere (List.cons_ne_nil line []), hlast]
      rfl
    exact ⟨here.map Lexeme.token, _, by simp, hmore, by simp⟩
  | case3 number first rest hrest ih =>
    obtain ⟨here, hhere, h⟩ := bind_eq_ok_iff.1 h
    obtain ⟨others, hothers, h⟩ := bind_eq_ok_iff.1 h
    cases h
    obtain ⟨front, more, htokens, hrestMore, hmoreTokens⟩ := ih (by simpa using hrest) hothers
    have hmore : ofLines file number (first :: (rest ++ [line])) =
        .ok (here ++ ⟨.newLine, ⟨file, number, 1⟩⟩ :: more) := by
      rw [ofLines_cons_of_ok hhere (by simp), hrestMore]
      rfl
    exact ⟨here.map Lexeme.token ++ .newLine :: front, _, by simp [htokens], hmore,
      by simp [hmoreTokens]⟩

/-- The tokens of a text with one more line. -/
theorem exists_ofText_append {file : Path} {text : String} {lexemes : List Lexeme}
    (h : ofText file text = .ok lexemes) {line : List Char} {tokens : List Token}
    (hends : ∀ c ∈ line, c ≠ '\n' ∧ c ≠ '\r') (hline : Scans line tokens) :
    ∃ front more, lexemes.map Lexeme.token = front ++ [.endOfFile] ∧
      ofText file (text ++ "\n" ++ String.ofList line) = .ok more ∧
      more.map Lexeme.token = front ++ .newLine :: tokens ++ [.endOfFile] := by
  rw [ofText, lines_append_line hends]
  exact exists_ofLines_concat (lines_ne_nil text) h hline

end Lexeme

/-! ### Reading one more rule -/

namespace Reading

/-- Where the end of the file is read, a production in a line of its own can be read instead. The
rule that the end of the file finished is finished by the end of its line. -/
theorem Moves.reads_append {state : Reading} {finished : Option Rule}
    (h : Moves state .endOfFile complete finished) {r : Rule} (hr : r.IsProduction) :
    Reads state (.newLine :: r.tokens ++ [.endOfFile]) (finished.toList ++ [r]) complete := by
  have hend : Reads (holding r) [.endOfFile] [r] complete := reads_endFile hr.2
  have hnext := h.next_eq
  cases state with
  | betweenRules =>
    -- the text has ended in a new line, so the line that comes to an end now is a blank one
    cases hnext
    exact Moves.blankLine.reads.trans ((reads_line (.inr rfl) hr).trans hend)
  | alternative p done a =>
    cases hnext
    exact Moves.endLine.reads.trans ((reads_line (.inl rfl) hr).trans hend)
  | pattern p => cases p <;> cases hnext
  | _ => cases hnext

/-- What is read up to the end of the file can be read with one more production. -/
theorem Reads.append_rule {front : List Token} {rules : List Rule}
    (h : Reads beginning (front ++ [.endOfFile]) rules complete) {r : Rule} (hr : r.IsProduction) :
    Reads beginning (front ++ .newLine :: r.tokens ++ [.endOfFile]) (rules ++ [r]) complete := by
  obtain ⟨state, ⟨done, hdone⟩, hlast⟩ := reads_append_iff.1 ⟨rules, h⟩
  obtain ⟨finished, hmove⟩ := reads_singleton_iff.1 hlast
  have hsame : front ++ [Token.endOfFile] ++ [] = front ++ [Token.endOfFile] ++ [] := rfl
  -- what has been read decides the rules
  obtain ⟨-, rfl⟩ := h.unique (hdone.trans hmove.reads) hsame
  rw [List.append_assoc, List.append_assoc]
  exact hdone.trans (hmove.reads_append hr)

end Reading

namespace Grammar

open Reading

/-- **A rule that is appended to a text is appended to its grammar.** Whatever a text that has been
read looks like, with a production in one more line it is read as the grammar with this production
as its last rule. -/
theorem ofText_append_rule {file : Path} {text : String} {g : Grammar}
    (h : ofText file text = .ok g) {r : Rule} (hr : r.IsProduction) (halphabet : r.OverAlphabet) :
    ofText file (text ++ "\n" ++ r.text) = .ok ⟨g.rules ++ [r]⟩ := by
  obtain ⟨lexemes, hlexemes, -⟩ := bind_eq_ok_iff.1 h
  obtain ⟨front, more, htokens, hmore, hmoreTokens⟩ := Lexeme.exists_ofText_append hlexemes
    (Rule.forall_mem_spelling halphabet) (Rule.scans_spelling halphabet hr.2.1)
  have hreads : Reads beginning (lexemes.map Lexeme.token) g.rules complete := by
    rcases ofText_cases_of_lexemes hlexemes with ⟨found, hfound, hreads, -⟩ |
      ⟨_, lexeme, _, cause, -, herror, -⟩
    · cases h.symm.trans hfound
      exact hreads
    · cases h.symm.trans herror
  rw [htokens] at hreads
  have hall := hreads.append_rule hr
  rw [← hmoreTokens] at hall
  rw [Rule.text, ofText_of_lexemes hmore]
  exact ofLexemes_of_reads hall

/-- The text ends in a comment behind a new line, and the rule that is appended begins an
alternative with the mark for the empty word. -/
theorem ofText_append_rule_commented :
    ofText ⟨"a.lang"⟩ "S->A // start\r\n// end" = .ok ⟨[⟨[.start], [[.nonterminal 'A']]⟩]⟩ ∧
      ofText ⟨"a.lang"⟩ "S->A // start\r\n// end\nA => b | εA" =
        .ok ⟨[⟨[.start], [[.nonterminal 'A']]⟩,
          ⟨[.nonterminal 'A'], [[.terminal 'b'], [.epsilon, .nonterminal 'A']]⟩]⟩ := by
  have hread : ofText ⟨"a.lang"⟩ "S->A // start\r\n// end" =
      .ok ⟨[⟨[.start], [[.nonterminal 'A']]⟩]⟩ := rfl
  exact ⟨hread, ofText_append_rule hread
    (r := ⟨[.nonterminal 'A'], [[.terminal 'b'], [.epsilon, .nonterminal 'A']]⟩)
    (by decide) ⟨by decide, by decide⟩⟩

end Grammar

end PhraseGrammar
