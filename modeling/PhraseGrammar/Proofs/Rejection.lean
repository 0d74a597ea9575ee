import PhraseGrammar.Proofs.Reading

/-!
# Where and why token lists are refused

A token list is refused at the first token that no grammar can have there, and the kinds of token
that are named as expected are those that fit.

* `Token.kind`: the kind of a token. Which tokens a state reads is said by their kinds
  (`next_eq_ok_iff_expected`);
* `Reading.reads_cases`: how far lexemes can be read. What follows the part that has been read is
  read from the state in hand (`rules_append`);
* `Grammar.Accepted`, `Grammar.Viable`: lexemes that are a grammar, and lexemes that others can
  follow so that they are one. Every state can be brought to an end (`exists_reads_complete`), so
  all that has been read is viable (`viable_of_reads`), and so is what the state in hand reads
  (`viable_concat_iff`).

Main statement: `Grammar.ofLexemes_eq_error`.
-/

namespace PhraseGrammar

/-- The kind of a token. -/
def Token.kind : Token → TokenKind
  | terminal _ => .terminal
  | nonterminal _ => .nonterminal
  | start => .start
  | epsilon => .epsilon
  | or => .or
  | assign => .assign
  | newLine => .newLine
  | endOfFile => .endOfFile

namespace Reading

/-! ### Single tokens -/

/-- A state reads the tokens of the kinds that it expects, but for an arrow without a pattern. -/
theorem next_eq_ok_iff_expected {state : Reading} {token : Token} :
    (∃ outcome, state.next token = .ok outcome) ↔
      token.kind ∈ state.expected ∧ ¬ (state = pattern [] ∧ token = .assign) := by
  cases state with
  | pattern p => cases p <;> cases token <;> simp [next, expected, Token.kind]
  | _ => cases token <;> simp [next, expected, Token.kind]

/-- What is wrong with a token that is not read. -/
theorem next_eq_error {state : Reading} {token : Token} {cause : CompileError}
    (h : state.next token = .error cause) :
    cause = .unexpectedToken token state.expected ∨
      (cause = .missingPattern ∧ state = pattern [] ∧ token = .assign) := by
  cases state with
  | pattern p =>
    cases p with
    | nil =>
      cases token with
      | assign => cases h; exact .inr ⟨rfl, rfl, rfl⟩
      | _ => cases h <;> exact .inl rfl
    | cons s p => cases token <;> cases h <;> exact .inl rfl
  | _ => cases token <;> cases h <;> exact .inl rfl

theorem expected_ne_nil {state : Reading} (h : state ≠ complete) : state.expected ≠ [] := by
  cases state with
  | complete => exact absurd rfl h
  | _ => simp [expected]

/-! ### Token lists -/

theorem reads_append_iff {s u : Reading} {tokens more : List Token} :
    (∃ rules, Reads s (tokens ++ more) rules u) ↔
      ∃ t, (∃ rules, Reads s tokens rules t) ∧ ∃ rules, Reads t more rules u := by
  constructor
  · rintro ⟨rules, h⟩
    induction tokens generalizing s rules with
    | nil => exact ⟨s, ⟨[], .nil s⟩, rules, h⟩
    | cons token tokens ih =>
      cases h with
      | cons head tail =>
        obtain ⟨t, ⟨done, hdone⟩, hmore⟩ := ih _ tail
        exact ⟨t, ⟨_, .cons head hdone⟩, hmore⟩
  · rintro ⟨t, ⟨rules, h⟩, others, h'⟩
    exact ⟨_, h.trans h'⟩

theorem reads_singleton_iff {s u : Reading} {token : Token} :
    (∃ rules, Reads s [token] rules u) ↔ ∃ finished, Moves s token u finished := by
  constructor
  · rintro ⟨rules, h⟩
    cases h with
    | cons head tail => cases tail; exact ⟨_, head⟩
  · rintro ⟨finished, h⟩
    exact ⟨_, h.reads⟩

/-- What has been read decides the state. -/
theorem Reads.state_unique {s t u : Reading} {tokens : List Token} {rules others : List Rule}
    (h : Reads s tokens rules t) (h' : Reads s tokens others u) : t = u := by
  induction h generalizing others with
  | nil state => cases h'; rfl
  | cons head tail ih =>
    cases h' with
    | cons head' tail' =>
      obtain ⟨rfl, -⟩ := Prod.mk.inj (Except.ok.inj (head.next_eq.symm.trans head'.next_eq))
      exact ih tail'

/-- Every state can be brought to an end. -/
theorem exists_reads_complete (state : Reading) :
    ∃ tokens rules, Reads state tokens rules complete := by
  have halternative : ∀ p done a, ∃ rules, Reads (alternative p done a) [.endOfFile] rules complete :=
    fun p done a => ⟨_, Moves.endFile.reads⟩
  have hstart : ∀ p done, ∃ tokens rules, Reads (alternativeStart p done) tokens rules complete := by
    intro p done
    obtain ⟨rules, h⟩ := halternative p done [.epsilon]
    exact ⟨_, _, .cons (.openAlternative (s := .epsilon) (.inr rfl)) h⟩
  cases state with
  | beginning =>
    obtain ⟨tokens, rules, h⟩ := hstart [.start] []
    exact ⟨_, _, .cons .start (.cons .startArrow h)⟩
  | startPattern =>
    obtain ⟨tokens, rules, h⟩ := hstart [.start] []
    exact ⟨_, _, .cons .startArrow h⟩
  | betweenRules => exact ⟨_, _, Moves.close.reads⟩
  | pattern p =>
    -- the pattern may still be empty, so one more letter is read first
    have hne : p ++ [.terminal 'a'] ≠ [] := by simp
    obtain ⟨tokens, rules, h⟩ := hstart (p ++ [.terminal 'a']) []
    exact ⟨_, _, .cons (.extendPattern (s := .terminal 'a') rfl) (.cons (.arrow hne) h)⟩
  | alternativeStart p done => exact hstart p done
  | alternative p done a =>
    obtain ⟨rules, h⟩ := halternative p done a
    exact ⟨_, rules, h⟩
  | complete => exact ⟨[], [], .nil complete⟩

/-- A pattern is empty only behind a blank line, and a line has been ended only by a new line. -/
theorem Moves.newLine_of_target {t u : Reading} {token : Token} {finished : Option Rule}
    (h : Moves t token u finished) :
    (u = pattern [] → t = betweenRules ∧ token = .newLine) ∧
      (u = betweenRules → token = .newLine) := by
  cases h <;> simp

/-- Two new lines are the end of a line and a blank line. -/
theorem eq_pattern_nil_of_newLines {t u v : Reading} {first second : Option Rule}
    (h : Moves t .newLine u first) (h' : Moves u .newLine v second) : v = pattern [] := by
  have hu := h.next_eq
  have hv := h'.next_eq
  cases u with
  | betweenRules => cases hv; rfl
  | alternative p done a => cases t <;> cases hu
  | _ => cases hv

/-- A pattern is still empty when a blank line has just been read, and only then. -/
theorem Reads.eq_pattern_nil_iff {state : Reading} {tokens : List Token} {rules : List Rule}
    (h : Reads beginning tokens rules state) :
    state = pattern [] ↔ [.newLine, .newLine] <:+ tokens := by
  constructor
  · rintro rfl
    -- the last move has been the one of the blank line, and the move before it ended a line
    rcases List.eq_nil_or_concat tokens with rfl | ⟨front, token, rfl⟩
    · cases h
    rw [List.concat_eq_append] at h ⊢
    obtain ⟨t, ⟨done, hdone⟩, hlast⟩ := reads_append_iff.1 ⟨rules, h⟩
    obtain ⟨finished, hmove⟩ := reads_singleton_iff.1 hlast
    obtain ⟨rfl, rfl⟩ := hmove.newLine_of_target.1 rfl
    rcases List.eq_nil_or_concat front with rfl | ⟨front, token, rfl⟩
    · cases hdone
    rw [List.concat_eq_append] at hdone ⊢
    obtain ⟨u, -, hbefore⟩ := reads_append_iff.1 ⟨done, hdone⟩
    obtain ⟨finished, hmove⟩ := reads_singleton_iff.1 hbefore
    obtain rfl := hmove.newLine_of_target.2 rfl
    exact ⟨front, by simp⟩
  · rintro ⟨front, rfl⟩
    obtain ⟨t, -, others, hlast⟩ := reads_append_iff.1 ⟨rules, h⟩
    cases hlast with
    | cons head tail =>
      cases tail with
      | cons head' tail' =>
        cases tail'
        exact eq_pattern_nil_of_newLines head head'

/-- What follows lexemes that have been read is read from the state in hand. -/
theorem rules_append {state held : Reading} {front : List Lexeme} {rules : List Rule}
    (h : Reads state (front.map Lexeme.token) rules held) (hheld : held ≠ complete)
    (last : Location) (more : List Lexeme) :
    state.rules last (front ++ more) =
      (rules ++ ·) <$> held.rules ((front.getLast?.map Lexeme.location).getD last) more := by
  induction front generalizing state rules last with
  | nil =>
    cases h
    show held.rules last more = ([] ++ ·) <$> held.rules last more
    cases held.rules last more <;> rfl
  | cons lexeme front ih =>
    rw [List.map_cons] at h
    cases h with
    | @cons _ t _ _ _ finished others head tail =>
      have ht : t ≠ complete := by
        rintro rfl
        exact hheld (reads_complete tail).2.2
      rw [List.cons_append, rules_cons_of_ne_complete head.next_eq ht, ih tail]
      have hlast : ((lexeme :: front).getLast?.map Lexeme.location).getD last =
          (front.getLast?.map Lexeme.location).getD lexeme.location := by
        rw [List.getLast?_cons]
        cases front.getLast? <;> rfl
      rw [hlast]
      cases held.rules ((front.getLast?.map Lexeme.location).getD lexeme.location) more with
      | error e => rfl
      | ok rest => simp [Functor.map, Except.map]

/-- Lexemes are read up to the end of a grammar, or up to one that does not fit, or they run out
before. -/
theorem reads_cases (state : Reading) (lexemes : List Lexeme) :
    (∃ accepted rest rules, lexemes = accepted ++ rest ∧
        Reads state (accepted.map Lexeme.token) rules complete) ∨
      (∃ front lexeme back rules held cause, lexemes = front ++ lexeme :: back ∧
        Reads state (front.map Lexeme.token) rules held ∧ held ≠ complete ∧
        held.next lexeme.token = .error cause) ∨
      ∃ rules held, Reads state (lexemes.map Lexeme.token) rules held ∧ held ≠ complete := by
  induction lexemes generalizing state with
  | nil =>
    by_cases hstate : state = complete
    · subst hstate
      exact .inl ⟨[], [], [], rfl, .nil complete⟩
    · exact .inr (.inr ⟨[], state, .nil state, hstate⟩)
  | cons lexeme lexemes ih =>
    by_cases hstate : state = complete
    · subst hstate
      exact .inl ⟨[], lexeme :: lexemes, [], rfl, .nil complete⟩
    cases hnext : state.next lexeme.token with
    | error cause =>
      exact .inr (.inl ⟨[], lexeme, lexemes, [], state, cause, rfl, .nil state, hstate, hnext⟩)
    | ok outcome =>
      have hmove := moves_of_next hnext
      rcases ih outcome.1 with ⟨accepted, rest, rules, rfl, hreads⟩ |
        ⟨front, found, back, rules, held, cause, rfl, hreads, hheld, herror⟩ |
        ⟨rules, held, hreads, hheld⟩
      · exact .inl ⟨lexeme :: accepted, rest, _, rfl, .cons hmove hreads⟩
      · exact .inr (.inl ⟨lexeme :: front, found, back, _, held, cause, rfl, .cons hmove hreads,
          hheld, herror⟩)
      · exact .inr (.inr ⟨_, held, .cons hmove hreads, hheld⟩)

end Reading

namespace Grammar

open Reading

/-- A grammar is read from the lexemes. -/
def Accepted (lexemes : List Lexeme) : Prop := ∃ g, ofLexemes lexemes = .ok g

/-- Other lexemes can follow these so that a grammar is read from them. -/
def Viable (lexemes : List Lexeme) : Prop := ∃ more, Accepted (lexemes ++ more)

/-- The last of the lexemes is the new line of a blank line. -/
def EndsBlank (lexemes : List Lexeme) : Prop :=
  [.newLine, .newLine] <:+ lexemes.map Lexeme.token

/-- The place of the last lexeme. -/
def lastLocation (lexemes : List Lexeme) : Location :=
  (lexemes.getLast?.map Lexeme.location).getD .unknown

variable {lexemes front : List Lexeme} {held : Reading} {rules : List Rule}

theorem accepted_iff : Accepted lexemes ↔ ∃ accepted rest rules, lexemes = accepted ++ rest ∧
    Reads beginning (accepted.map Lexeme.token) rules complete := by
  constructor
  · rintro ⟨g, h⟩
    obtain ⟨accepted, rest, heq, hreads⟩ := ofLexemes_eq_ok_iff_reads.1 h
    exact ⟨accepted, rest, g.rules, heq, hreads⟩
  · rintro ⟨accepted, rest, rules, heq, hreads⟩
    exact ⟨⟨rules⟩, ofLexemes_eq_ok_iff_reads.2 ⟨accepted, rest, heq, hreads⟩⟩

/-- Lexemes are viable if a grammar has been read from them, or if all of them can be read. -/
theorem viable_iff : Viable lexemes ↔
    Accepted lexemes ∨ ∃ rules held, Reads beginning (lexemes.map Lexeme.token) rules held := by
  constructor
  · rintro ⟨more, h⟩
    obtain ⟨accepted, rest, rules, heq, hreads⟩ := accepted_iff.1 h
    rcases List.append_eq_append_iff.1 heq with ⟨others, rfl, -⟩ | ⟨others, rfl, -⟩
    · rw [List.map_append] at hreads
      obtain ⟨held, ⟨done, hdone⟩, -⟩ := reads_append_iff.1 ⟨rules, hreads⟩
      exact .inr ⟨done, held, hdone⟩
    · exact .inl (accepted_iff.2 ⟨accepted, others, rules, rfl, hreads⟩)
  · rintro (h | ⟨rules, held, hreads⟩)
    · exact ⟨[], by simpa using h⟩
    · obtain ⟨tokens, others, hrest⟩ := exists_reads_complete held
      refine ⟨tokens.map (Lexeme.mk · .unknown), accepted_iff.2 ?_⟩
      refine ⟨_, [], rules ++ others, (List.append_nil _).symm, ?_⟩
      simpa [Function.comp_def] using hreads.trans hrest

theorem viable_of_reads (h : Reads beginning (lexemes.map Lexeme.token) rules held) :
    Viable lexemes :=
  viable_iff.2 (.inr ⟨rules, held, h⟩)

/-- Nothing is accepted from lexemes that are read without coming to the end of a grammar. -/
theorem not_accepted_of_reads (h : Reads beginning (lexemes.map Lexeme.token) rules held)
    (hheld : held ≠ complete) : ¬ Accepted lexemes := by
  intro haccepted
  obtain ⟨accepted, rest, others, rfl, hreads⟩ := accepted_iff.1 haccepted
  rw [List.map_append] at h
  obtain ⟨t, ⟨done, hdone⟩, ⟨more, hmore⟩⟩ := reads_append_iff.1 ⟨rules, h⟩
  obtain rfl := hdone.state_unique hreads
  exact hheld (reads_complete hmore).2.2

/-- One more lexeme is viable when the state in hand reads it. -/
theorem viable_concat_iff (h : Reads beginning (front.map Lexeme.token) rules held)
    (hheld : held ≠ complete) {lexeme : Lexeme} :
    Viable (front ++ [lexeme]) ↔ ∃ outcome, held.next lexeme.token = .ok outcome := by
  constructor
  · intro hviable
    have hsome : ∃ t rules, Reads held [lexeme.token] rules t := by
      rcases viable_iff.1 hviable with haccepted | ⟨others, t, hreads⟩
      · -- the grammar is not complete without the last lexeme
        obtain ⟨accepted, rest, others, heq, hreads⟩ := accepted_iff.1 haccepted
        rcases List.eq_nil_or_concat rest with rfl | ⟨rest, last, rfl⟩
        · rw [List.append_nil] at heq
          rw [← heq, List.map_append] at hreads
          obtain ⟨t, ⟨done, hdone⟩, hlast⟩ := reads_append_iff.1 ⟨others, hreads⟩
          obtain rfl := hdone.state_unique h
          exact ⟨_, hlast⟩
        · rw [List.concat_eq_append, ← List.append_assoc] at heq
          obtain ⟨hfront, -⟩ := List.append_inj' heq rfl
          exact absurd (accepted_iff.2 ⟨accepted, rest, others, hfront, hreads⟩)
            (not_accepted_of_reads h hheld)
      · rw [List.map_append] at hreads
        obtain ⟨u, ⟨done, hdone⟩, hlast⟩ := reads_append_iff.1 ⟨others, hreads⟩
        obtain rfl := hdone.state_unique h
        exact ⟨t, hlast⟩
    obtain ⟨t, ht⟩ := hsome
    obtain ⟨finished, hmove⟩ := reads_singleton_iff.1 ht
    exact ⟨_, hmove.next_eq⟩
  · rintro ⟨outcome, hnext⟩
    have hreads := h.trans (moves_of_next hnext).reads
    rw [← List.map_singleton, ← List.map_append] at hreads
    exact viable_of_reads hreads

/-- No grammar begins with the lexemes up to the one that the state in hand does not read. -/
theorem not_viable_of_refused (h : Reads beginning (front.map Lexeme.token) rules held)
    (hheld : held ≠ complete) {lexeme : Lexeme} {cause : CompileError}
    (hnext : held.next lexeme.token = .error cause) : ¬ Viable (front ++ [lexeme]) := by
  rw [viable_concat_iff h hheld]
  rintro ⟨outcome, hok⟩
  rw [hok] at hnext
  cases hnext

/-- Lexemes are refused where the state in hand does not read the next one. -/
theorem ofLexemes_of_refused (h : Reads beginning (front.map Lexeme.token) rules held)
    (hheld : held ≠ complete) {lexeme : Lexeme} {cause : CompileError}
    (hnext : held.next lexeme.token = .error cause) (back : List Lexeme) :
    ofLexemes (front ++ lexeme :: back) = .error ⟨lexeme.location, cause⟩ := by
  rw [ofLexemes, rules_append h hheld, Reading.rules, hnext]
  rfl

theorem ofLexemes_of_ranOut (h : Reads beginning (lexemes.map Lexeme.token) rules held)
    (hheld : held ≠ complete) : ofLexemes lexemes = .error ⟨lastLocation lexemes, .unexpectedEnd⟩ := by
  have happend := rules_append h hheld .unknown []
  rw [List.append_nil] at happend
  rw [ofLexemes, happend]
  rfl

/-- How an error has come about. -/
theorem ofLexemes_error_cases {e : Located CompileError} (h : ofLexemes lexemes = .error e) :
    (∃ front lexeme back rules held, lexemes = front ++ lexeme :: back ∧
        Reads beginning (front.map Lexeme.token) rules held ∧ held ≠ complete ∧
        held.next lexeme.token = .error e.error ∧ e.location = lexeme.location) ∨
      ∃ rules held, Reads beginning (lexemes.map Lexeme.token) rules held ∧ held ≠ complete ∧
        e = ⟨lastLocation lexemes, .unexpectedEnd⟩ := by
  rcases reads_cases beginning lexemes with haccepted |
    ⟨front, lexeme, back, rules, held, cause, rfl, hreads, hheld, hnext⟩ |
    ⟨rules, held, hreads, hheld⟩
  · obtain ⟨g, hg⟩ := accepted_iff.2 haccepted
    rw [hg] at h
    cases h
  · rw [ofLexemes_of_refused hreads hheld hnext] at h
    cases h
    exact .inl ⟨front, lexeme, back, rules, held, rfl, hreads, hheld, hnext, rfl⟩
  · rw [ofLexemes_of_ranOut hreads hheld] at h
    cases h
    exact .inr ⟨rules, held, hreads, hheld, rfl⟩

/-- The lexemes run out exactly if they are viable and no part of them is a grammar. -/
theorem ofLexemes_eq_unexpectedEnd_iff {location : Location} :
    ofLexemes lexemes = .error ⟨location, .unexpectedEnd⟩ ↔
      location = lastLocation lexemes ∧ Viable lexemes ∧
        ∀ front back, lexemes = front ++ back → ¬ Accepted front := by
  constructor
  · intro h
    rcases ofLexemes_error_cases h with
      ⟨front, lexeme, back, rules, held, rfl, hreads, hheld, hnext, heq⟩ |
      ⟨rules, held, hreads, hheld, heq⟩
    · rcases next_eq_error hnext with ⟨⟨⟩⟩ | ⟨⟨⟩, -, -⟩
    · obtain rfl : location = lastLocation lexemes := by simpa using heq
      refine ⟨rfl, viable_of_reads hreads, ?_⟩
      rintro front back rfl ⟨g, hg⟩
      -- a grammar read from a part would have been read from the whole
      obtain ⟨accepted, rest, others, rfl, hothers⟩ := accepted_iff.1 ⟨g, hg⟩
      exact not_accepted_of_reads hreads hheld
        (accepted_iff.2 ⟨accepted, rest ++ back, others, by simp, hothers⟩)
  · rintro ⟨rfl, hviable, hnone⟩
    have hnot : ¬ Accepted lexemes := hnone lexemes [] (by simp)
    rcases viable_iff.1 hviable with haccepted | ⟨rules, held, hreads⟩
    · exact absurd haccepted hnot
    · have hheld : held ≠ complete := by
        rintro rfl
        exact hnot (accepted_iff.2 ⟨lexemes, [], rules, by simp, hreads⟩)
      exact ofLexemes_of_ranOut hreads hheld

/-- **A token list is refused at the earliest token possible, and what is expected there is what
fits.** The lexemes before that token can be completed to a grammar, and no grammar begins with
these and the token. Put in its place, a token of an expected kind makes the lexemes viable again
and no other token does; only the arrow behind a blank line, which is expected, is refused because
it has no pattern. The lexemes run out if they are viable and no part of them is a grammar, and
the error stands at the last one then. -/
theorem ofLexemes_eq_error (lexemes : List Lexeme) :
    (∀ location found expected,
        ofLexemes lexemes = .error ⟨location, .unexpectedToken found expected⟩ →
          expected ≠ [] ∧ ∃ front back, lexemes = front ++ ⟨found, location⟩ :: back ∧
            Viable front ∧ ¬ Viable (front ++ [⟨found, location⟩]) ∧
            (∀ token place, Viable (front ++ [⟨token, place⟩]) ↔
              token.kind ∈ expected ∧ ¬ (EndsBlank front ∧ token = .assign)) ∧
            (EndsBlank front → .assign ∈ expected ∧ ∀ place rest,
              ofLexemes (front ++ ⟨.assign, place⟩ :: rest) = .error ⟨place, .missingPattern⟩)) ∧
      (∀ location, ofLexemes lexemes = .error ⟨location, .missingPattern⟩ →
        ∃ front back, lexemes = front ++ ⟨.assign, location⟩ :: back ∧ EndsBlank front ∧
          Viable front ∧ ¬ Viable (front ++ [⟨.assign, location⟩])) ∧
      ∀ location, ofLexemes lexemes = .error ⟨location, .unexpectedEnd⟩ ↔
        location = lastLocation lexemes ∧ Viable lexemes ∧
          ∀ front back, lexemes = front ++ back → ¬ Accepted front := by
  refine ⟨?_, ?_, ?_⟩
  · intro location found expected h
    rcases ofLexemes_error_cases h with
      ⟨front, ⟨token, place⟩, back, rules, held, rfl, hreads, hheld, hnext, heq⟩ |
      ⟨rules, held, hreads, hheld, ⟨⟩⟩
    obtain rfl : location = place := heq
    rcases next_eq_error hnext with hcause | ⟨⟨⟩, -, -⟩
    obtain ⟨rfl, rfl⟩ : found = token ∧ expected = held.expected := by simpa using hcause
    have hblank : EndsBlank front ↔ held = pattern [] := hreads.eq_pattern_nil_iff.symm
    refine ⟨expected_ne_nil hheld, front, back, rfl, viable_of_reads hreads,
      not_viable_of_refused hreads hheld hnext, ?_, ?_⟩
    · intro token place
      rw [viable_concat_iff hreads hheld, next_eq_ok_iff_expected, hblank]
    · intro hends
      obtain rfl := hblank.1 hends
      refine ⟨by simp [Reading.expected], ?_⟩
      intro place rest
      exact ofLexemes_of_refused hreads hheld rfl rest
  · intro location h
    rcases ofLexemes_error_cases h with
      ⟨front, ⟨token, place⟩, back, rules, held, rfl, hreads, hheld, hnext, heq⟩ |
      ⟨rules, held, hreads, hheld, ⟨⟩⟩
    obtain rfl : location = place := heq
    rcases next_eq_error hnext with ⟨⟨⟩⟩ | ⟨-, rfl, htoken⟩
    obtain rfl : token = .assign := htoken
    exact ⟨front, back, rfl, hreads.eq_pattern_nil_iff.1 rfl, viable_of_reads hreads,
      not_viable_of_refused hreads hheld hnext⟩
  · intro location
    exact ofLexemes_eq_unexpectedEnd_iff

/-- Tokens of a grammar with a blank line, which break off where a pattern must stand. -/
def brokenTokens (found : Token) : List Lexeme :=
  [.start, .assign, .terminal 'a', .newLine, .newLine, found].map (Lexeme.mk · .unknown)

theorem ofLexemes_eq_error_broken :
    (ofLexemes (brokenTokens .newLine) = .error ⟨.unknown,
        .unexpectedToken .newLine [.terminal, .nonterminal, .assign]⟩ ∧
      ∃ front back, brokenTokens .newLine = front ++ ⟨.newLine, .unknown⟩ :: back ∧
        Viable front ∧ ¬ Viable (front ++ [⟨.newLine, .unknown⟩])) ∧
      (ofLexemes (brokenTokens .assign) = .error ⟨.unknown, .missingPattern⟩ ∧
        ∃ front back, brokenTokens .assign = front ++ ⟨.assign, .unknown⟩ :: back ∧
          EndsBlank front) ∧
      ofLexemes (brokenTokens (.nonterminal 'A')) = .error ⟨.unknown, .unexpectedEnd⟩ ∧
        Viable (brokenTokens (.nonterminal 'A')) := by
  have hunexpected : ofLexemes (brokenTokens .newLine) = .error ⟨.unknown,
      .unexpectedToken .newLine [.terminal, .nonterminal, .assign]⟩ := rfl
  have hmissing : ofLexemes (brokenTokens .assign) = .error ⟨.unknown, .missingPattern⟩ := rfl
  have hend : ofLexemes (brokenTokens (.nonterminal 'A')) = .error ⟨.unknown, .unexpectedEnd⟩ := rfl
  refine ⟨⟨hunexpected, ?_⟩, ⟨hmissing, ?_⟩, hend, ?_⟩
  · obtain ⟨-, front, back, heq, hviable, hnot, -⟩ := (ofLexemes_eq_error _).1 _ _ _ hunexpected
    exact ⟨front, back, heq, hviable, hnot⟩
  · obtain ⟨front, back, heq, hblank, -⟩ := (ofLexemes_eq_error _).2.1 _ hmissing
    exact ⟨front, back, heq, hblank⟩
  · exact (((ofLexemes_eq_error _).2.2 _).1 hend).2.1

end Grammar

end PhraseGrammar
