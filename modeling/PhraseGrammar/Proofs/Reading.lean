import PhraseGrammar.Grammar.Reading
import PhraseGrammar.Proofs.Scanning

/-!
# Reading tokens

Reading is taken apart into its moves, and several moves are put together again.

* `Reading.Moves`: everything that reading one token can do (`moves_of_next`, `Moves.next_eq`);
* `Reading.Reads`: reading several tokens, with the rules that are finished on the way. It is
  what `Reading.rules` does up to the point where the grammar is complete (`rules_eq_ok_iff`), and
  there is only one such point (`Reads.unique`). With it the grammar has been read
  (`Grammar.ofLexemes_eq_ok_iff_reads`).
-/

namespace PhraseGrammar

namespace Reading

/-! ### Single tokens -/

/-- What reading a token can do: the states before and after it, and the rule it finishes. -/
inductive Moves : Reading → Token → Reading → Option Rule → Prop
  | start : Moves beginning .start startPattern none
  | startArrow : Moves startPattern .assign (alternativeStart [.start] []) none
  | blankLine : Moves betweenRules .newLine (pattern []) none
  | close : Moves betweenRules .endOfFile complete none
  | openPattern {s : Symbol} (h : s.isLetter = true) : Moves betweenRules s.token (pattern [s]) none
  | extendPattern {p : Form} {s : Symbol} (h : s.isLetter = true) :
      Moves (pattern p) s.token (pattern (p ++ [s])) none
  | arrow {p : Form} (h : p ≠ []) : Moves (pattern p) .assign (alternativeStart p []) none
  | openAlternative {p : Form} {done : List Form} {s : Symbol}
      (h : s.isLetter = true ∨ s = .epsilon) :
      Moves (alternativeStart p done) s.token (alternative p done [s]) none
  | extendAlternative {p : Form} {done : List Form} {a : Form} {s : Symbol}
      (h : s.isLetter = true) : Moves (alternative p done a) s.token (alternative p done (a ++ [s])) none
  | bar {p : Form} {done : List Form} {a : Form} :
      Moves (alternative p done a) .or (alternativeStart p (done ++ [a])) none
  | endLine {p : Form} {done : List Form} {a : Form} :
      Moves (alternative p done a) .newLine betweenRules (some ⟨p, done ++ [a]⟩)
  | endFile {p : Form} {done : List Form} {a : Form} :
      Moves (alternative p done a) .endOfFile complete (some ⟨p, done ++ [a]⟩)

theorem Moves.next_eq {state state' : Reading} {token : Token} {finished : Option Rule}
    (h : Moves state token state' finished) : state.next token = .ok (state', finished) := by
  cases h with
  | @openPattern s h => cases s <;> first | rfl | cases h
  | @extendPattern p s h => cases s <;> first | rfl | cases h
  | @arrow p h => cases p with
    | nil => exact absurd rfl h
    | cons s p => rfl
  | @openAlternative p done s h => rcases s <;> first | rfl | simp [Symbol.isLetter] at h
  | @extendAlternative p done a s h => cases s <;> first | rfl | cases h
  | _ => rfl

theorem moves_of_next {state state' : Reading} {token : Token} {finished : Option Rule}
    (h : state.next token = .ok (state', finished)) : Moves state token state' finished := by
  cases state with
  | beginning => cases token <;> cases h; exact .start
  | startPattern => cases token <;> cases h; exact .startArrow
  | betweenRules =>
    cases token with
    | terminal c => cases h; exact .openPattern (s := .terminal c) rfl
    | nonterminal c => cases h; exact .openPattern (s := .nonterminal c) rfl
    | newLine => cases h; exact .blankLine
    | endOfFile => cases h; exact .close
    | _ => cases h
  | pattern p =>
    cases token with
    | terminal c => cases h; exact .extendPattern (s := .terminal c) rfl
    | nonterminal c => cases h; exact .extendPattern (s := .nonterminal c) rfl
    | assign =>
      cases p with
      | nil => cases h
      | cons s p => cases h; exact .arrow (List.cons_ne_nil s p)
    | _ => cases h
  | alternativeStart p done =>
    cases token with
    | terminal c => cases h; exact .openAlternative (s := .terminal c) (.inl rfl)
    | nonterminal c => cases h; exact .openAlternative (s := .nonterminal c) (.inl rfl)
    | epsilon => cases h; exact .openAlternative (s := .epsilon) (.inr rfl)
    | _ => cases h
  | alternative p done a =>
    cases token with
    | terminal c => cases h; exact .extendAlternative (s := .terminal c) rfl
    | nonterminal c => cases h; exact .extendAlternative (s := .nonterminal c) rfl
    | or => cases h; exact .bar
    | newLine => cases h; exact .endLine
    | endOfFile => cases h; exact .endFile
    | _ => cases h
  | complete => cases token <;> cases h

/-! ### Token lists -/

/-- Reading several tokens: the states before and after them, and the rules they finish. -/
inductive Reads : Reading → List Token → List Rule → Reading → Prop
  | nil (state : Reading) : Reads state [] [] state
  | cons {s t u : Reading} {token : Token} {tokens : List Token} {finished : Option Rule}
      {rules : List Rule} (head : Moves s token t finished) (tail : Reads t tokens rules u) :
      Reads s (token :: tokens) (finished.toList ++ rules) u

theorem Moves.reads {s t : Reading} {token : Token} {finished : Option Rule}
    (h : Moves s token t finished) : Reads s [token] finished.toList t := by
  simpa using Reads.cons h (.nil t)

theorem Reads.trans {s t u : Reading} {tokens more : List Token} {rules others : List Rule}
    (h : Reads s tokens rules t) (h' : Reads t more others u) :
    Reads s (tokens ++ more) (rules ++ others) u := by
  induction h with
  | nil state => exact h'
  | cons head tail ih =>
    rw [List.cons_append, List.append_assoc]
    exact .cons head (ih h')

/-- Nothing follows the end of the grammar. -/
theorem reads_complete {s : Reading} {tokens : List Token} {rules : List Rule}
    (h : Reads complete tokens rules s) : tokens = [] ∧ rules = [] ∧ s = complete := by
  cases h with
  | nil => exact ⟨rfl, rfl, rfl⟩
  | cons head tail => cases head.next_eq

/-- No token is read once the grammar is complete, so there is one way only to complete it. -/
theorem Reads.unique {s : Reading} {tokens tokens' rest rest' : List Token}
    {rules rules' : List Rule} (h : Reads s tokens rules complete)
    (h' : Reads s tokens' rules' complete) (heq : tokens ++ rest = tokens' ++ rest') :
    tokens = tokens' ∧ rules = rules' := by
  -- the last state has to vary in the induction
  generalize hu : complete = u at h
  induction h generalizing tokens' rules' with
  | nil state =>
    subst hu
    obtain ⟨rfl, rfl, -⟩ := reads_complete h'
    exact ⟨rfl, rfl⟩
  | cons head tail ih =>
    subst hu
    cases h' with
    | nil => cases head.next_eq
    | cons head' tail' =>
      obtain ⟨rfl, htokens⟩ := List.cons.inj heq
      obtain ⟨rfl, rfl⟩ := Prod.mk.inj (Except.ok.inj (head.next_eq.symm.trans head'.next_eq))
      obtain ⟨rfl, rfl⟩ := ih tail' htokens rfl
      exact ⟨rfl, rfl⟩

theorem rules_cons_of_complete {state : Reading} {lexeme : Lexeme} {finished : Option Rule}
    (h : state.next lexeme.token = .ok (complete, finished)) (last : Location)
    (rest : List Lexeme) : state.rules last (lexeme :: rest) = .ok finished.toList := by
  rw [Reading.rules, h]

theorem rules_cons_of_ne_complete {state state' : Reading} {lexeme : Lexeme}
    {finished : Option Rule} (h : state.next lexeme.token = .ok (state', finished))
    (hstate' : state' ≠ complete) (last : Location) (rest : List Lexeme) :
    state.rules last (lexeme :: rest) =
      (finished.toList ++ ·) <$> state'.rules lexeme.location rest := by
  rw [Reading.rules, h]
  cases state' with
  | complete => exact absurd rfl hstate'
  | _ => rfl

/-- Lexemes are read up to the point where the grammar is complete. -/
theorem rules_eq_ok_iff {state : Reading} (hstate : state ≠ complete) {last : Location}
    {lexemes : List Lexeme} {rules : List Rule} :
    state.rules last lexemes = .ok rules ↔ ∃ accepted rest, lexemes = accepted ++ rest ∧
      Reads state (accepted.map Lexeme.token) rules complete := by
  induction lexemes generalizing state last rules with
  | nil =>
    constructor
    · rintro ⟨⟩
    · rintro ⟨accepted, rest, heq, hreads⟩
      obtain ⟨rfl, rfl⟩ := List.append_eq_nil_iff.1 heq.symm
      cases hreads
      exact absurd rfl hstate
  | cons lexeme lexemes ih =>
    constructor
    · intro h
      cases hnext : state.next lexeme.token with
      | error cause => rw [Reading.rules, hnext] at h; cases h
      | ok outcome =>
        obtain ⟨state', finished⟩ := outcome
        have hmoves := moves_of_next hnext
        by_cases hstate' : state' = complete
        · -- nothing that follows is looked at
          subst hstate'
          rw [rules_cons_of_complete hnext] at h
          cases h
          exact ⟨[lexeme], lexemes, rfl, hmoves.reads⟩
        · rw [rules_cons_of_ne_complete hnext hstate'] at h
          obtain ⟨others, hrest, rfl⟩ := map_eq_ok_iff.1 h
          obtain ⟨accepted, rest, rfl, hreads⟩ := (ih hstate').1 hrest
          exact ⟨lexeme :: accepted, rest, rfl, .cons hmoves hreads⟩
    · rintro ⟨accepted, rest, heq, hreads⟩
      rcases accepted with _ | ⟨other, accepted⟩
      · cases hreads
        exact absurd rfl hstate
      · obtain ⟨rfl, rfl⟩ := List.cons.inj heq
        rw [List.map_cons] at hreads
        cases hreads with
        | @cons _ state' _ _ _ finished others head tail =>
          by_cases hstate' : state' = complete
          · subst hstate'
            obtain ⟨-, rfl, -⟩ := reads_complete tail
            rw [rules_cons_of_complete head.next_eq, List.append_nil]
          · rw [rules_cons_of_ne_complete head.next_eq hstate']
            have hrest : state'.rules lexeme.location (accepted ++ rest) = .ok others :=
              (ih hstate').2 ⟨accepted, rest, rfl, tail⟩
            exact map_eq_ok_iff.2 ⟨others, hrest, rfl⟩

end Reading

/-- The grammar that is read has the rules that are finished up to the point where it is complete. -/
theorem Grammar.ofLexemes_eq_ok_iff_reads {lexemes : List Lexeme} {g : Grammar} :
    ofLexemes lexemes = .ok g ↔ ∃ accepted rest, lexemes = accepted ++ rest ∧
      Reading.Reads .beginning (accepted.map Lexeme.token) g.rules .complete := by
  have hstart : Reading.beginning ≠ .complete := nofun
  rw [ofLexemes, map_eq_ok_iff]
  constructor
  · rintro ⟨rules, h, rfl⟩
    exact (Reading.rules_eq_ok_iff hstart).1 h
  · intro h
    exact ⟨g.rules, (Reading.rules_eq_ok_iff hstart).2 h, rfl⟩

end PhraseGrammar
