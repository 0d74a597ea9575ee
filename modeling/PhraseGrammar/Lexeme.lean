import PhraseGrammar.CompileError

/-!
# From text to lexemes

A text is split into lines at line feeds, and a carriage return at the end of a line is dropped.
In a line, spaces and tabs separate, and `//` begins a comment that runs to the line's end. Both
arrows `=>` and `->` are one token, which stands at its second character; every other token is
one character.

* `Token.ofChar?`: the tokens of one character;
* `Lexeme.scan`: the tokens of a line with their columns, or the first character that is none;
* `Lexeme.ofText`: all lexemes of a text. Each line but the last ends in a new line, and the end
  of the file follows the last one.
-/

namespace PhraseGrammar

/-- The token that a single character is. -/
def Token.ofChar? (c : Char) : Option Token :=
  if c = 'E' ∨ c = 'ε' then some .epsilon
  else if c = 'S' then some .start
  else if c = '|' then some .or
  else if c.isLower then some (.terminal c)
  else if c.isUpper then some (.nonterminal c)
  else none

namespace Lexeme

/-- The tokens of the rest of a line whose first character stands in `column`, each with its own
column; or the first character that begins no token, with its column. -/
def scan (column : Nat) : List Char → Except (Char × Nat) (List (Token × Nat))
  | [] => .ok []
  | ' ' :: rest => scan (column + 1) rest
  | '\t' :: rest => scan (column + 1) rest
  | '/' :: '/' :: _ => .ok []
  | '=' :: '>' :: rest => ((Token.assign, column + 1) :: ·) <$> scan (column + 2) rest
  | '-' :: '>' :: rest => ((Token.assign, column + 1) :: ·) <$> scan (column + 2) rest
  | c :: rest =>
    match Token.ofChar? c with
    | some token => ((token, column) :: ·) <$> scan (column + 1) rest
    | none => .error (c, column)

/-- The lines of a text. -/
def lines (text : String) : List (List Char) :=
  (text.toList.splitOn '\n').map fun line =>
    if line.getLast? = some '\r' then line.dropLast else line

/-- The lexemes of one line. -/
def ofLine (file : Path) (number : Nat) (line : List Char) :
    Except (Located CompileError) (List Lexeme) :=
  match scan 1 line with
  | .ok tokens => .ok (tokens.map fun (token, column) => ⟨token, ⟨file, number, column⟩⟩)
  | .error (c, column) => .error ⟨⟨file, number, column⟩, .unknownCharacter c⟩

/-- The lexemes of lines numbered from `number` on. A new line stands in the first column of the
line it ends, and the end of the file at the last character of the last line. -/
def ofLines (file : Path) (number : Nat) :
    List (List Char) → Except (Located CompileError) (List Lexeme)
  | [] => .ok []
  | [last] => do
    let lexemes ← ofLine file number last
    return lexemes ++ [⟨.endOfFile, ⟨file, number, last.length⟩⟩]
  | line :: rest => do
    let lexemes ← ofLine file number line
    let more ← ofLines file (number + 1) rest
    return lexemes ++ ⟨.newLine, ⟨file, number, 1⟩⟩ :: more

/-- The lexemes of a text. -/
def ofText (file : Path) (text : String) : Except (Located CompileError) (List Lexeme) :=
  ofLines file 1 (lines text)

end Lexeme

end PhraseGrammar
