import PhraseGrammar.Proofs.Reading

/-!
# The token lists that are accepted

Reading succeeds exactly when the tokens, up to the end of the file, write a well-formed grammar,
and the grammar they write is the result. `Reading.Covers` is the invariant for the one direction:
it says for every state what has been read. For the other, `Reading.reads_written` reads a layout
rule by rule. Main statement: `Grammar.ofLexemes_eq_ok_iff`.
-/

namespace PhraseGrammar

namespace Reading

/-! ### What has been read -/

/-- The tokens write rules that make up a well-formed grammar. -/
def LaidOut (rules : List Rule) (tokens : List Token) : Prop :=
  Grammar.WellFormed ⟨rules⟩ ∧ ∃ l : Layout, l.rules = rules ∧ l.tokens = tokens

/-- Behind these tokens a rule with the given pattern may stand, after the given rules: it is the
start rule and nothing stands before it, or it is a production in a line of its own. -/
def Opens (rules : List Rule) (p : Form) (front : List Token) : Prop :=
  (rules = [] ∧ p = [.start] ∧ front = []) ∨
    (Form.IsPattern p ∧ ∃ lines blank, LaidOut rules lines ∧ front = lines ++ lineBreak blank)

/-- What has been read when a state is reached: the finished rules, and the tokens of these and of
the part of a rule that the state holds. -/
def Covers : Reading → List Rule → List Token → Prop
  | beginning, rules, tokens => rules = [] ∧ tokens = []
  | startPattern, rules, tokens => rules = [] ∧ tokens = [.start]
  | betweenRules, rules, tokens => ∃ lines, LaidOut rules lines ∧ tokens = lines ++ [.newLine]
  | pattern p, rules, tokens => (∀ s ∈ p, s.isLetter = true) ∧ ∃ lines blank,
      LaidOut rules lines ∧ tokens = lines ++ lineBreak blank ++ Form.tokens p
  | alternativeStart p done, rules, tokens => (∀ b ∈ done, Form.IsAlternative b) ∧
      ∃ front, Opens rules p front ∧
        tokens = front ++ (Form.tokens p ++ .assign :: Rule.barred done)
  | alternative p done a, rules, tokens => (∀ b ∈ done ++ [a], Form.IsAlternative b) ∧
      ∃ front, Opens rules p front ∧ tokens = front ++ Rule.tokens ⟨p, done ++ [a]⟩
  | complete, rules, tokens => Grammar.WellFormed ⟨rules⟩ ∧ Grammar.Written ⟨rules⟩ tokens

theorem Opens.laidOut {rules : List Rule} {front : List Token} {r : Rule}
    (h : Opens rules r.pattern front) (hr : r.HasAlternatives) :
    LaidOut (rules ++ [r]) (front ++ r.tokens) := by
  rcases h with ⟨rfl, hpattern, rfl⟩ | ⟨hpattern, lines, blank, ⟨hwell, l, hrules, htokens⟩, rfl⟩
  · exact ⟨⟨⟨hpattern, hr⟩, by simp⟩, ⟨r, []⟩, rfl, by simp [Layout.tokens]⟩
  · exact ⟨hwell.concat ⟨hpattern, hr⟩, l.add blank r, by simp [hrules], by simp [htokens]⟩

theorem Covers.laidOut {rules : List Rule} {tokens : List Token} {p a : Form} {done : List Form}
    (h : Covers (alternative p done a) rules tokens) :
    LaidOut (rules ++ [⟨p, done ++ [a]⟩]) tokens := by
  obtain ⟨hdone, front, hopens, rfl⟩ := h
  exact Opens.laidOut (r := ⟨p, done ++ [a]⟩) hopens ⟨by simp, hdone⟩

theorem covers_beginning : Covers beginning [] [] := ⟨rfl, rfl⟩

/-- One more token is covered by the state after it. -/
theorem Covers.next {s t : Reading} {token : Token} {finished : Option Rule} {rules : List Rule}
    {tokens : List Token} (h : Covers s rules tokens) (hmove : Moves s token t finished) :
    Covers t (rules ++ finished.toList) (tokens ++ [token]) := by
  cases hmove with
  | start =>
    obtain ⟨rfl, rfl⟩ := h
    exact ⟨rfl, rfl⟩
  | startArrow =>
    obtain ⟨rfl, rfl⟩ := h
    exact ⟨by simp, [], .inl ⟨rfl, rfl, rfl⟩, rfl⟩
  | blankLine =>
    -- from here on the pattern of the next rule is read, which is still empty
    obtain ⟨lines, hlines, rfl⟩ := h
    exact ⟨by simp, lines, true, by simpa using hlines, by simp [lineBreak]⟩
  | close =>
    obtain ⟨lines, ⟨hwell, l, hrules, rfl⟩, rfl⟩ := h
    rw [Option.toList_none, List.append_nil]
    exact ⟨hwell, l, hrules, .inr (by simp)⟩
  | openPattern hs =>
    obtain ⟨lines, hlines, rfl⟩ := h
    exact ⟨by simpa using hs, lines, false, by simpa using hlines, by simp [lineBreak]⟩
  | extendPattern hs =>
    obtain ⟨hp, lines, blank, hlines, rfl⟩ := h
    refine ⟨?_, lines, blank, by simpa using hlines, by simp⟩
    simpa [or_imp, forall_and] using ⟨hp, hs⟩
  | arrow hne =>
    obtain ⟨hp, lines, blank, hlines, rfl⟩ := h
    rw [Option.toList_none, List.append_nil]
    exact ⟨by simp, _, .inr ⟨⟨hne, hp⟩, lines, blank, hlines, rfl⟩, by simp [Rule.barred]⟩
  | openAlternative hs =>
    obtain ⟨hdone, front, hopens, rfl⟩ := h
    rw [Option.toList_none, List.append_nil]
    refine ⟨?_, front, hopens, by simp [Rule.tokens_concat]⟩
    simpa [or_imp, forall_and] using
      ⟨hdone, Form.isAlternative_singleton (by rintro rfl; simp [Symbol.isLetter] at hs)⟩
  | extendAlternative hs =>
    obtain ⟨hdone, front, hopens, rfl⟩ := h
    rw [Option.toList_none, List.append_nil]
    refine ⟨?_, front, hopens, by simp [Rule.tokens_concat]⟩
    simp only [List.mem_append, List.mem_singleton, or_imp, forall_and, forall_eq] at hdone ⊢
    exact ⟨hdone.1, hdone.2.concat hs⟩
  | bar =>
    obtain ⟨hdone, front, hopens, rfl⟩ := h
    rw [Option.toList_none, List.append_nil]
    exact ⟨hdone, front, hopens, by simp [Rule.tokens_concat]⟩
  | endLine => exact ⟨tokens, h.laidOut, rfl⟩
  | endFile =>
    obtain ⟨hwell, l, hrules, rfl⟩ := h.laidOut
    exact ⟨hwell, l, hrules, .inl rfl⟩

theorem Covers.reads {s t : Reading} {rules others : List Rule} {tokens more : List Token}
    (h : Covers s rules tokens) (hreads : Reads s more others t) :
    Covers t (rules ++ others) (tokens ++ more) := by
  induction hreads generalizing rules tokens with
  | nil state => simpa using h
  | cons head tail ih => simpa using ih (h.next head)

/-! ### Reading what is written -/

section Letters

variable {f : Form} (hf : ∀ s ∈ f, s.isLetter = true)
include hf

theorem reads_pattern (p : Form) : Reads (pattern p) (Form.tokens f) [] (pattern (p ++ f)) := by
  induction f generalizing p with
  | nil => simpa using Reads.nil (pattern p)
  | cons s f ih =>
    rw [List.forall_mem_cons] at hf
    simpa using (Moves.extendPattern hf.1).reads.trans (ih hf.2 (p ++ [s]))

theorem reads_letters (p : Form) (done : List Form) (a : Form) :
    Reads (alternative p done a) (Form.tokens f) [] (alternative p done (a ++ f)) := by
  induction f generalizing a with
  | nil => simpa using Reads.nil (alternative p done a)
  | cons s f ih =>
    rw [List.forall_mem_cons] at hf
    simpa using (Moves.extendAlternative hf.1).reads.trans (ih hf.2 (a ++ [s]))

end Letters

theorem reads_alternative {a : Form} (ha : Form.IsAlternative a) (p : Form) (done : List Form) :
    Reads (alternativeStart p done) (Form.tokens a) [] (alternative p done a) := by
  cases a with
  | nil => exact ha.elim
  | cons s rest =>
    have hs : s.isLetter = true ∨ s = .epsilon := by
      have := ha.1
      cases s <;> simp_all [Symbol.isLetter]
    simpa using (Moves.openAlternative hs).reads.trans (reads_letters ha.2 p done [s])

theorem reads_barred {alternatives : List Form} (h : ∀ a ∈ alternatives, Form.IsAlternative a)
    (p : Form) (done : List Form) :
    Reads (alternativeStart p done) (Rule.barred alternatives) []
      (alternativeStart p (done ++ alternatives)) := by
  induction alternatives generalizing done with
  | nil => simpa [Rule.barred] using Reads.nil (alternativeStart p done)
  | cons a rest ih =>
    rw [List.forall_mem_cons] at h
    simpa [Rule.barred] using
      ((reads_alternative h.1 p done).trans Moves.bar.reads).trans (ih h.2 (done ++ [a]))

/-- The state in which everything of a rule has been read, but not yet what ends it. -/
def holding (r : Rule) : Reading :=
  alternative r.pattern r.alternatives.dropLast (r.alternatives.getLast?.getD [])

theorem holding_concat (p : Form) (done : List Form) (a : Form) :
    holding ⟨p, done ++ [a]⟩ = alternative p done a := by
  simp [holding]

theorem reads_alternatives {r : Rule} (h : r.HasAlternatives) :
    Reads (alternativeStart r.pattern []) ([.or].intercalate (r.alternatives.map Form.tokens)) []
      (holding r) := by
  obtain ⟨p, done, a, rfl⟩ := h.exists_concat
  obtain ⟨-, hall⟩ := h
  rw [List.forall_mem_append, List.forall_mem_singleton] at hall
  rw [Rule.intercalate_concat, holding_concat]
  simpa using (reads_barred hall.1 p []).trans (reads_alternative hall.2 p done)

theorem reads_startRule {r : Rule} (h : r.IsStartRule) : Reads beginning r.tokens [] (holding r) := by
  have halternatives := reads_alternatives h.2
  rw [Rule.tokens, h.1]
  rw [h.1] at halternatives
  exact .cons .start (.cons .startArrow halternatives)

theorem reads_endLine {r : Rule} (h : r.HasAlternatives) :
    Reads (holding r) [.newLine] [r] betweenRules := by
  obtain ⟨p, done, a, rfl⟩ := h.exists_concat
  rw [holding_concat]
  exact Moves.endLine.reads

theorem reads_endFile {r : Rule} (h : r.HasAlternatives) :
    Reads (holding r) [.endOfFile] [r] complete := by
  obtain ⟨p, done, a, rfl⟩ := h.exists_concat
  rw [holding_concat]
  exact Moves.endFile.reads

/-- A production, read where its line may begin: behind the line before it or behind a blank one. -/
theorem reads_line {state : Reading} (hstate : state = betweenRules ∨ state = pattern [])
    {r : Rule} (hr : r.IsProduction) : Reads state r.tokens [] (holding r) := by
  obtain ⟨⟨hne, hletters⟩, halternatives⟩ := hr
  have hpattern : Reads state (Form.tokens r.pattern) [] (pattern r.pattern) := by
    rcases hstate with rfl | rfl
    · obtain ⟨s, rest, heq⟩ := List.exists_cons_of_ne_nil hne
      rw [heq, List.forall_mem_cons] at hletters
      simpa [heq] using
        (Moves.openPattern hletters.1).reads.trans (reads_pattern hletters.2 [s])
    · exact reads_pattern hletters []
  simpa [Rule.tokens] using
    hpattern.trans ((Moves.arrow hne).reads.trans (reads_alternatives halternatives))

/-- A production in a line of its own, read when the rule before it has been. -/
theorem reads_production {q r : Rule} (hq : q.HasAlternatives) (blank : Bool)
    (hr : r.IsProduction) : Reads (holding q) (lineBreak blank ++ r.tokens) [q] (holding r) := by
  cases blank with
  | true =>
    exact (reads_endLine hq).trans (Moves.blankLine.reads.trans (reads_line (.inr rfl) hr))
  | false => exact (reads_endLine hq).trans (reads_line (.inl rfl) hr)

/-- Productions in their lines, read when the rule before them has been, up to the end. -/
theorem reads_rest {rest : List (Bool × Rule)} (hrest : ∀ line ∈ rest, line.2.IsProduction)
    {q : Rule} (hq : q.HasAlternatives) {ending : List Token}
    (hending : ending = [.endOfFile] ∨ ending = [.newLine, .endOfFile]) :
    Reads (holding q) ((rest.flatMap fun (blank, r) => lineBreak blank ++ r.tokens) ++ ending)
      (q :: rest.map Prod.snd) complete := by
  induction rest generalizing q with
  | nil =>
    rcases hending with rfl | rfl
    · exact reads_endFile hq
    · exact (reads_endLine hq).trans Moves.close.reads
  | cons line rest ih =>
    rw [List.forall_mem_cons] at hrest
    simpa using (reads_production hq line.1 hrest.1).trans (ih hrest.2 hrest.1.2)

/-- What writes a well-formed grammar is read to the end and gives its rules. -/
theorem reads_written {g : Grammar} {tokens : List Token} (hwell : g.WellFormed)
    (h : g.Written tokens) : Reads beginning tokens g.rules complete := by
  obtain ⟨l, hrules, hending⟩ := h
  rcases g with ⟨_ | ⟨first, rest⟩⟩
  · exact hwell.elim
  obtain ⟨hfirst, hrest⟩ := hwell
  obtain ⟨rfl, rfl⟩ := List.cons.inj hrules
  have hlines : ∀ line ∈ l.rest, line.2.IsProduction := by
    intro line hline
    exact hrest _ (List.mem_map_of_mem hline)
  have key : ∀ ending, ending = [Token.endOfFile] ∨ ending = [.newLine, .endOfFile] →
      Reads beginning (l.tokens ++ ending) l.rules complete := by
    intro ending hending
    rw [Layout.tokens, List.append_assoc]
    exact (reads_startRule hfirst).trans (reads_rest hlines hfirst.2 hending)
  rw [← hrules]
  rcases hending with rfl | rfl
  · exact key _ (.inl rfl)
  · exact key _ (.inr rfl)

theorem reads_iff {g : Grammar} {tokens : List Token} :
    Reads beginning tokens g.rules complete ↔ g.WellFormed ∧ g.Written tokens := by
  constructor
  · intro h
    exact covers_beginning.reads h
  · rintro ⟨hwell, hwritten⟩
    exact reads_written hwell hwritten

end Reading

namespace Grammar

theorem ofLexemes_eq_ok {lexemes : List Lexeme} {g : Grammar} :
    ofLexemes lexemes = .ok g ↔ ∃ accepted rest, lexemes = accepted ++ rest ∧
      g.WellFormed ∧ g.Written (accepted.map Lexeme.token) := by
  rw [ofLexemes_eq_ok_iff_reads]
  simp only [Reading.reads_iff]

/-- **Reading accepts exactly what writes a well-formed grammar.** The tokens up to the end of the
file decide, in one way only, and what follows them has no influence. -/
theorem ofLexemes_eq_ok_iff (lexemes : List Lexeme) (g : Grammar) :
    (ofLexemes lexemes = .ok g ↔ ∃ accepted rest, lexemes = accepted ++ rest ∧
        g.WellFormed ∧ g.Written (accepted.map Lexeme.token)) ∧
      (g.WellFormed → ∀ tokens, g.Written tokens → ∀ other : Grammar, other.WellFormed →
        ∀ tokens', other.Written tokens' → ∀ rest rest', tokens ++ rest = tokens' ++ rest' →
          g = other ∧ tokens = tokens') ∧
      ∀ accepted rest rest', lexemes = accepted ++ rest → g.WellFormed →
        g.Written (accepted.map Lexeme.token) → ofLexemes (accepted ++ rest') = ofLexemes lexemes := by
  refine ⟨ofLexemes_eq_ok, ?_, ?_⟩
  · intro hwell tokens h other hwell' tokens' h' rest rest' heq
    have hreads := Reading.reads_written hwell h
    have hreads' := Reading.reads_written hwell' h'
    obtain ⟨htokens, hrules⟩ := hreads.unique hreads' heq
    cases g
    cases other
    exact ⟨congrArg Grammar.mk hrules, htokens⟩
  · intro accepted rest rest' heq hwell h
    have hread : ofLexemes lexemes = .ok g :=
      ofLexemes_eq_ok.2 ⟨accepted, rest, heq, hwell, h⟩
    have hread' : ofLexemes (accepted ++ rest') = .ok g :=
      ofLexemes_eq_ok.2 ⟨accepted, rest', rfl, hwell, h⟩
    rw [hread, hread']

/-- A grammar with an alternative that begins with the empty-word mark. -/
def spaced : Grammar where
  rules := [
    ⟨[.start], [[.epsilon, .nonterminal 'A'], [.terminal 'b']]⟩,
    ⟨[.nonterminal 'A', .terminal 'b'], [[.terminal 'c']]⟩]

/-- Tokens that write it with a blank line and a new line at the end, and tokens behind them. -/
def spacedTokens : List Token :=
  [.start, .assign, .epsilon, .nonterminal 'A', .or, .terminal 'b', .newLine, .newLine,
    .nonterminal 'A', .terminal 'b', .assign, .terminal 'c', .newLine, .endOfFile]

theorem ofLexemes_eq_ok_iff_spaced :
    (spaced.WellFormed ∧ spaced.Written spacedTokens) ∧
      ofLexemes (spacedTokens.map (Lexeme.mk · .unknown)) = .ok spaced ∧
      ofLexemes (spacedTokens.map (Lexeme.mk · .unknown) ++ [⟨.or, .unknown⟩]) =
        ofLexemes (spacedTokens.map (Lexeme.mk · .unknown)) := by
  have hwell : spaced.WellFormed := by decide
  have hwritten : spaced.Written spacedTokens :=
    ⟨⟨⟨[.start], [[.epsilon, .nonterminal 'A'], [.terminal 'b']]⟩,
      [(true, ⟨[.nonterminal 'A', .terminal 'b'], [[.terminal 'c']]⟩)]⟩, rfl, .inr rfl⟩
  obtain ⟨hiff, -, hrest⟩ :=
    ofLexemes_eq_ok_iff (spacedTokens.map (Lexeme.mk · .unknown)) spaced
  exact ⟨⟨hwell, hwritten⟩, hiff.2 ⟨_, [], (List.append_nil _).symm, hwell, hwritten⟩,
    hrest _ [] _ (List.append_nil _).symm hwell hwritten⟩

end Grammar

end PhraseGrammar
