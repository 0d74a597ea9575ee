import PhraseGrammar.Location
import PhraseGrammar.Symbol

/-!
# Tokens

* `Token`, `TokenKind`: the tokens of a grammar file, and their kinds, which leave the letter out;
* `Token.text`, `TokenKind.text`: how messages show them;
* `Token.symbol?`: the symbol a token stands for, if it stands for one;
* `Lexeme`: a token and its place in the file.
-/

namespace PhraseGrammar

/-- A token. A new line separates rules, and the end of the file is a token of its own. -/
inductive Token
  | terminal (letter : Char)
  | nonterminal (letter : Char)
  | start
  | epsilon
  | or
  | assign
  | newLine
  | endOfFile
  deriving DecidableEq

/-- A kind of token. -/
inductive TokenKind
  | terminal
  | nonterminal
  | start
  | epsilon
  | or
  | assign
  | newLine
  | endOfFile
  deriving DecidableEq

namespace Token

/-- How a message shows a token. -/
def text : Token → String
  | terminal c => String.ofList [c]
  | nonterminal c => String.ofList [c]
  | start => "S"
  | epsilon => "ε"
  | or => "|"
  | assign => "=>"
  | newLine => "new line"
  | endOfFile => "end of file"

/-- The symbol a token stands for. -/
def symbol? : Token → Option Symbol
  | terminal c => some (.terminal c)
  | nonterminal c => some (.nonterminal c)
  | start => some .start
  | epsilon => some .epsilon
  | _ => none

end Token

/-- How a message shows a kind of token. -/
def TokenKind.text : TokenKind → String
  | terminal => "terminal (a-z)"
  | nonterminal => "nonterminal (A-Z)"
  | start => "`S`"
  | epsilon => "`ε`"
  | or => "`|`"
  | assign => "`=>`"
  | newLine => "new line"
  | endOfFile => "end of file"

/-- A token and its place. -/
structure Lexeme where
  token : Token
  location : Location

end PhraseGrammar
