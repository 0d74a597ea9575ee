import PhraseGrammar.Grammar
import PhraseGrammar.Lexeme

/-!
# Reading grammars

A grammar is read token by token. The state of the reading holds the part of the rule that has
been read so far; a rule that is finished is handed over to the grammar.

* `Reading`: the states, with `Reading.expected`, the kinds of token that may follow, and
  `Reading.next`, one token read;
* `Grammar.ofLexemes`: reads until the end of the grammar is reached. What follows it has no
  influence;
* `Grammar.ofText`: reads a text.
-/

namespace PhraseGrammar

/-- How far a grammar has been read. -/
inductive Reading
  /-- Nothing has been read. -/
  | beginning
  /-- The start symbol has been read; its arrow is missing. -/
  | startPattern
  /-- A rule has been finished by a new line. -/
  | betweenRules
  /-- The pattern so far; it is empty after a blank line. -/
  | pattern (pattern : Form)
  /-- An alternative must begin. The alternatives before it are finished. -/
  | alternativeStart (pattern : Form) (finished : List Form)
  /-- The last alternative so far, and the finished ones before it. -/
  | alternative (pattern : Form) (finished : List Form) (current : Form)
  /-- The grammar is complete. -/
  | complete
  deriving DecidableEq

namespace Reading

/-- The kinds of token that may follow. -/
def expected : Reading → List TokenKind
  | beginning => [.start]
  | startPattern => [.assign]
  | betweenRules => [.newLine, .endOfFile, .terminal, .nonterminal]
  | pattern _ => [.terminal, .nonterminal, .assign]
  | alternativeStart _ _ => [.terminal, .nonterminal, .epsilon]
  | alternative _ _ _ => [.terminal, .nonterminal, .or, .newLine, .endOfFile]
  | complete => []

/-- Reads one token. The rule that it finishes, if it finishes one, comes with the new state. -/
def next : Reading → Token → Except CompileError (Reading × Option Rule)
  | beginning, .start => .ok (startPattern, none)
  | startPattern, .assign => .ok (alternativeStart [.start] [], none)
  | betweenRules, .newLine => .ok (pattern [], none)
  | betweenRules, .endOfFile => .ok (complete, none)
  | betweenRules, .terminal c => .ok (pattern [.terminal c], none)
  | betweenRules, .nonterminal c => .ok (pattern [.nonterminal c], none)
  | pattern p, .terminal c => .ok (pattern (p ++ [.terminal c]), none)
  | pattern p, .nonterminal c => .ok (pattern (p ++ [.nonterminal c]), none)
  | pattern [], .assign => .error .missingPattern
  | pattern p, .assign => .ok (alternativeStart p [], none)
  | alternativeStart p done, .terminal c => .ok (alternative p done [.terminal c], none)
  | alternativeStart p done, .nonterminal c => .ok (alternative p done [.nonterminal c], none)
  | alternativeStart p done, .epsilon => .ok (alternative p done [.epsilon], none)
  | alternative p done a, .terminal c => .ok (alternative p done (a ++ [.terminal c]), none)
  | alternative p done a, .nonterminal c => .ok (alternative p done (a ++ [.nonterminal c]), none)
  | alternative p done a, .or => .ok (alternativeStart p (done ++ [a]), none)
  | alternative p done a, .newLine => .ok (betweenRules, some ⟨p, done ++ [a]⟩)
  | alternative p done a, .endOfFile => .ok (complete, some ⟨p, done ++ [a]⟩)
  | state, found => .error (.unexpectedToken found state.expected)

/-- Reads lexemes until the grammar is complete, and gives the rules finished on the way. Should
the lexemes run out before, the error stands at the last one, for which `last` is the place of
the one before. -/
def rules (state : Reading) (last : Location) : List Lexeme →
    Except (Located CompileError) (List Rule)
  | [] => .error ⟨last, .unexpectedEnd⟩
  | lexeme :: rest =>
    match state.next lexeme.token with
    | .error cause => .error ⟨lexeme.location, cause⟩
    | .ok (complete, finished) => .ok finished.toList
    | .ok (state, finished) => (finished.toList ++ ·) <$> rules state lexeme.location rest

end Reading

namespace Grammar

/-- Reads a grammar from lexemes. -/
def ofLexemes (lexemes : List Lexeme) : Except (Located CompileError) Grammar :=
  Grammar.mk <$> Reading.beginning.rules .unknown lexemes

/-- Reads a grammar from text; `file` is named in errors. -/
def ofText (file : Path) (text : String) : Except (Located CompileError) Grammar := do
  ofLexemes (← Lexeme.ofText file text)

end Grammar

end PhraseGrammar
