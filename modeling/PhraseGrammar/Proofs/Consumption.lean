import PhraseGrammar.Proofs.Lexing
import PhraseGrammar.Proofs.Rejection

/-!
# Texts are read to their end

The end of the file is the last lexeme of a text and stands nowhere else in it
(`isClosed_of_ofText`). Only this lexeme completes a grammar, and nothing else becomes of it where
it is read (`Moves.eq_complete_iff`). So the lexemes of a text do not run out, and reading does not
stop before the last of them (`Grammar.reads_cases_of_isClosed`).

Main statement: `Grammar.ofText_to_end`.
-/

namespace PhraseGrammar

/-! ### The last lexeme of a text -/

/-- No piece of a line is the end of the file. -/
theorem Piece.ne_endOfFile_of_mem_tokens {before : Nat} {ps : List Piece} :
    ∀ x ∈ Piece.tokens before ps, x.1 ≠ .endOfFile := by
  induction ps generalizing before with
  | nil => simp [Piece.tokens]
  | cons p ps ih =>
    rw [Piece.tokens, List.forall_mem_append]
    refine ⟨?_, ih⟩
    cases p <;> simp [Piece.token?]

namespace Lexeme

/-- The last lexeme is the end of the file, and no other one is. -/
def IsClosed (lexemes : List Lexeme) : Prop :=
  ∃ front place, lexemes = front ++ [⟨.endOfFile, place⟩] ∧ ∀ x ∈ front, x.token ≠ .endOfFile

theorem isClosed_ofPage (file : Path) (rows : List (List Piece)) (width : Nat) :
    IsClosed (ofPage file rows width) := by
  refine ⟨_, _, rfl, ?_⟩
  intro x hx
  obtain ⟨⟨ps, number⟩, -, hx⟩ := List.mem_flatMap.1 hx
  rcases List.mem_append.1 hx with hx | hx
  · obtain ⟨found, hfound, rfl⟩ := List.mem_map.1 hx
    exact Piece.ne_endOfFile_of_mem_tokens found hfound
  · unfold lineEnd at hx
    split_ifs at hx
    · rw [List.mem_singleton.1 hx]
      nofun
    · cases hx

/-- The lexemes of a text are closed, or a character offends. -/
theorem ofText_cases (file : Path) (text : String) :
    (∃ lexemes, ofText file text = .ok lexemes ∧ IsClosed lexemes) ∨
      ∃ location c, ofText file text = .error ⟨location, .unknownCharacter c⟩ := by
  rcases lines_cases (lines text) with ⟨rows, hrows⟩ | ⟨number, i, c, h⟩
  · exact .inl ⟨_, ofText_of_spells hrows file, isClosed_ofPage _ _ _⟩
  · exact .inr ⟨_, c, ofText_of_firstOffenceIn h file⟩

theorem isClosed_of_ofText {file : Path} {text : String} {lexemes : List Lexeme}
    (h : ofText file text = .ok lexemes) : IsClosed lexemes := by
  rcases ofText_cases file text with ⟨found, hfound, hclosed⟩ | ⟨location, c, herror⟩
  · cases h.symm.trans hfound
    exact hclosed
  · cases h.symm.trans herror

namespace IsClosed

variable {lexemes front back : List Lexeme}

theorem endOfFile_mem (h : IsClosed lexemes) : .endOfFile ∈ lexemes.map Lexeme.token := by
  obtain ⟨front, place, rfl, -⟩ := h
  simp

/-- The end of the file does not stand in front of other lexemes. -/
theorem not_mem (h : IsClosed (front ++ back)) (hback : back ≠ []) :
    .endOfFile ∉ front.map Lexeme.token := by
  obtain ⟨others, place, heq, hothers⟩ := h
  obtain ⟨back, last, rfl⟩ := (List.eq_nil_or_concat' back).resolve_left hback
  rw [← List.append_assoc] at heq
  obtain ⟨rfl, -⟩ := List.append_inj' heq rfl
  intro hmem
  obtain ⟨x, hx, htoken⟩ := List.mem_map.1 hmem
  exact hothers x (List.mem_append_left back hx) htoken

end IsClosed

end Lexeme

/-! ### Reading the end of the file -/

theorem Symbol.token_ne_endOfFile (s : Symbol) : s.token ≠ .endOfFile := by
  cases s <;> nofun

namespace Reading

/-- The end of the file completes the grammar, and no other token does. -/
theorem Moves.eq_complete_iff {s t : Reading} {token : Token} {finished : Option Rule}
    (h : Moves s token t finished) : t = complete ↔ token = .endOfFile := by
  cases h <;> simp [Symbol.token_ne_endOfFile]

theorem Reads.eq_complete_iff {s t : Reading} {tokens : List Token} {rules : List Rule}
    (h : Reads s tokens rules t) (hs : s ≠ complete) :
    t = complete ↔ .endOfFile ∈ tokens := by
  induction h with
  | nil state => simpa using hs
  | @cons s t u token tokens finished rules head tail ih =>
    by_cases ht : t = complete
    · -- nothing is read behind the end of the file
      subst ht
      obtain ⟨rfl, -, rfl⟩ := reads_complete tail
      simpa using (head.eq_complete_iff.1 rfl).symm
    · have hne : Token.endOfFile ≠ token := fun h => ht (head.eq_complete_iff.2 h.symm)
      rw [ih ht, List.mem_cons]
      exact (or_iff_right hne).symm

end Reading

namespace Grammar

open Reading Lexeme

variable {lexemes : List Lexeme}

/-- All lexemes of a text are read, or one of them is refused. -/
theorem reads_cases_of_isClosed (h : IsClosed lexemes) :
    (∃ rules, Reads beginning (lexemes.map Lexeme.token) rules complete) ∨
      ∃ front lexeme back rules held cause, lexemes = front ++ lexeme :: back ∧
        Reads beginning (front.map Lexeme.token) rules held ∧ held ≠ complete ∧
        held.next lexeme.token = .error cause := by
  rcases reads_cases beginning lexemes with ⟨accepted, rest, rules, rfl, hreads⟩ | hrefused |
    ⟨rules, held, hreads, hheld⟩
  · have hmem := (hreads.eq_complete_iff nofun).1 rfl
    obtain rfl : rest = [] := by
      by_contra hrest
      exact h.not_mem hrest hmem
    rw [List.append_nil]
    exact .inl ⟨rules, hreads⟩
  · exact .inr hrefused
  · exact absurd ((hreads.eq_complete_iff nofun).2 h.endOfFile_mem) hheld

theorem ofLexemes_of_reads {rules : List Rule}
    (h : Reads beginning (lexemes.map Lexeme.token) rules complete) :
    ofLexemes lexemes = .ok ⟨rules⟩ :=
  ofLexemes_eq_ok_iff_reads.2 ⟨lexemes, [], (List.append_nil _).symm, h⟩

/-- With the last lexemes of a text left out, the others run out. -/
theorem ofLexemes_of_front {rules : List Rule} {front back : List Lexeme}
    (hclosed : IsClosed (front ++ back)) (hback : back ≠ [])
    (h : Reads beginning ((front ++ back).map Lexeme.token) rules complete) :
    ofLexemes front = .error ⟨lastLocation front, .unexpectedEnd⟩ := by
  rw [List.map_append] at h
  obtain ⟨held, ⟨done, hdone⟩, -⟩ := reads_append_iff.1 ⟨rules, h⟩
  refine ofLexemes_of_ranOut hdone ?_
  intro hheld
  exact hclosed.not_mem hback ((hdone.eq_complete_iff nofun).1 hheld)

theorem ofText_of_lexemes {file : Path} {text : String}
    (h : Lexeme.ofText file text = .ok lexemes) : ofText file text = ofLexemes lexemes := by
  rw [ofText, h]
  rfl

/-- What becomes of a text that is made of tokens: all its lexemes are read, and less would not have
been enough, or one of them is refused. -/
theorem ofText_cases_of_lexemes {file : Path} {text : String}
    (h : Lexeme.ofText file text = .ok lexemes) :
    (∃ g, ofText file text = .ok g ∧ Reads beginning (lexemes.map Lexeme.token) g.rules complete ∧
        ∀ front back, lexemes = front ++ back → back ≠ [] →
          ofLexemes front = .error ⟨lastLocation front, .unexpectedEnd⟩) ∨
      ∃ front lexeme back cause, lexemes = front ++ lexeme :: back ∧
        ofText file text = .error ⟨lexeme.location, cause⟩ ∧
        ((cause = .missingPattern ∧ lexeme.token = .assign) ∨
          ∃ expected, expected ≠ [] ∧ cause = .unexpectedToken lexeme.token expected) := by
  have hclosed := isClosed_of_ofText h
  rw [ofText_of_lexemes h]
  rcases reads_cases_of_isClosed hclosed with ⟨rules, hreads⟩ |
    ⟨front, lexeme, back, rules, held, cause, rfl, hreads, hheld, hnext⟩
  · refine .inl ⟨⟨rules⟩, ofLexemes_of_reads hreads, hreads, ?_⟩
    rintro front back rfl hback
    exact ofLexemes_of_front hclosed hback hreads
  · refine .inr ⟨front, lexeme, back, cause, rfl, ofLexemes_of_refused hreads hheld hnext back, ?_⟩
    rcases next_eq_error hnext with hcause | ⟨hcause, -, htoken⟩
    · exact .inr ⟨held.expected, expected_ne_nil hheld, hcause⟩
    · exact .inl ⟨hcause, htoken⟩

/-- What a text is refused for: a character that offends, as long as there is one, and else one of
its lexemes. -/
theorem ofText_error_cases {file : Path} {text : String} {e : Located CompileError}
    (h : ofText file text = .error e) :
    (∃ c, e.error = .unknownCharacter c ∧ Lexeme.ofText file text = .error e) ∨
      ∃ lexemes, Lexeme.ofText file text = .ok lexemes ∧ ∃ lexeme ∈ lexemes,
        e.location = lexeme.location ∧ (e.error = .missingPattern ∨
          ∃ expected, expected ≠ [] ∧ e.error = .unexpectedToken lexeme.token expected) := by
  rcases ofText_cases file text with ⟨lexemes, hlexemes, -⟩ | ⟨location, c, herror⟩
  · rcases ofText_cases_of_lexemes hlexemes with ⟨g, hg, -⟩ |
      ⟨front, lexeme, back, cause, rfl, herror, hcause⟩
    · cases h.symm.trans hg
    · cases h.symm.trans herror
      exact .inr ⟨_, hlexemes, lexeme, by simp, rfl, hcause.imp_left And.left⟩
  · have hread : ofText file text = .error ⟨location, .unknownCharacter c⟩ := by
      rw [ofText, herror]
      rfl
    cases h.symm.trans hread
    exact .inl ⟨c, rfl, herror⟩

/-- The cause of an error is a character exactly when the text is not made of tokens. -/
theorem ofText_eq_unknownCharacter_iff {file : Path} {text : String} {location : Location}
    {c : Char} : ofText file text = .error ⟨location, .unknownCharacter c⟩ ↔
      Lexeme.ofText file text = .error ⟨location, .unknownCharacter c⟩ := by
  constructor
  · intro h
    rcases ofText_error_cases h with ⟨found, -, herror⟩ |
      ⟨lexemes, -, lexeme, -, -, hcause | ⟨expected, -, hcause⟩⟩
    · exact herror
    · cases hcause
    · cases hcause
  · intro h
    rw [ofText, h]
    rfl

/-- **Texts are read to their end.** The tokens of a text never run out, and where one is refused
others would have fitted. An unknown character is what is wrong exactly when the text is not made of
tokens, whatever else is wrong in front of it. Otherwise the end of the file is the last lexeme and
no other one; and either all lexemes are read up to it, and none of them could have been left out at
the end, or the text is refused at one of its lexemes. -/
theorem ofText_to_end (file : Path) (text : String) :
    (∀ location, ofText file text ≠ .error ⟨location, .unexpectedEnd⟩) ∧
    (∀ location found, ofText file text ≠ .error ⟨location, .unexpectedToken found []⟩) ∧
    (∀ location c, ofText file text = .error ⟨location, .unknownCharacter c⟩ ↔
      Lexeme.ofText file text = .error ⟨location, .unknownCharacter c⟩) ∧
    ((∃ e, Lexeme.ofText file text = .error e) ↔
      ∃ location c, ofText file text = .error ⟨location, .unknownCharacter c⟩) ∧
    ∀ lexemes, Lexeme.ofText file text = .ok lexemes → IsClosed lexemes ∧
      ((∃ g, ofText file text = .ok g ∧
          Reads beginning (lexemes.map Lexeme.token) g.rules complete ∧
          ∀ front back, lexemes = front ++ back → back ≠ [] →
            ofLexemes front = .error ⟨lastLocation front, .unexpectedEnd⟩) ∨
        ∃ front lexeme back cause, lexemes = front ++ lexeme :: back ∧
          ofText file text = .error ⟨lexeme.location, cause⟩ ∧
          ((cause = .missingPattern ∧ lexeme.token = .assign) ∨
            ∃ expected, expected ≠ [] ∧ cause = .unexpectedToken lexeme.token expected)) := by
  refine ⟨?_, ?_, fun _ _ => ofText_eq_unknownCharacter_iff, ?_, ?_⟩
  · intro location h
    rcases ofText_error_cases h with ⟨found, hcause, -⟩ |
      ⟨lexemes, -, lexeme, -, -, hcause | ⟨expected, -, hcause⟩⟩ <;> cases hcause
  · intro location token h
    rcases ofText_error_cases h with ⟨found, hcause, -⟩ |
      ⟨lexemes, -, lexeme, -, -, hcause | ⟨expected, hne, hcause⟩⟩
    · cases hcause
    · cases hcause
    · cases hcause
      exact hne rfl
  · constructor
    · rintro ⟨e, herror⟩
      rcases Lexeme.ofText_cases file text with ⟨lexemes, hlexemes, -⟩ | ⟨location, c, h⟩
      · cases herror.symm.trans hlexemes
      · exact ⟨location, c, ofText_eq_unknownCharacter_iff.2 h⟩
    · rintro ⟨location, c, h⟩
      exact ⟨_, ofText_eq_unknownCharacter_iff.1 h⟩
  · intro lexemes h
    exact ⟨isClosed_of_ofText h, ofText_cases_of_lexemes h⟩

/-- The second line of the first text is not finished, but it is the third one that is named. -/
theorem ofText_to_end_sources :
    ofText ⟨"a.lang"⟩ "S=>A\nA=>\n$" = .error ⟨⟨⟨"a.lang"⟩, 3, 1⟩, .unknownCharacter '$'⟩ ∧
      Lexeme.ofText ⟨"a.lang"⟩ "S->E" =
        .ok [⟨.start, ⟨⟨"a.lang"⟩, 1, 1⟩⟩, ⟨.assign, ⟨⟨"a.lang"⟩, 1, 3⟩⟩,
          ⟨.epsilon, ⟨⟨"a.lang"⟩, 1, 4⟩⟩, ⟨.endOfFile, ⟨⟨"a.lang"⟩, 1, 4⟩⟩] ∧
      IsClosed [⟨.start, ⟨⟨"a.lang"⟩, 1, 1⟩⟩, ⟨.assign, ⟨⟨"a.lang"⟩, 1, 3⟩⟩,
        ⟨.epsilon, ⟨⟨"a.lang"⟩, 1, 4⟩⟩, ⟨.endOfFile, ⟨⟨"a.lang"⟩, 1, 4⟩⟩] := by
  refine ⟨?_, rfl, ?_⟩
  · exact ((ofText_to_end ⟨"a.lang"⟩ "S=>A\nA=>\n$").2.2.1 _ _).2 rfl
  · exact ((ofText_to_end ⟨"a.lang"⟩ "S->E").2.2.2.2 _ rfl).1

end Grammar

end PhraseGrammar
