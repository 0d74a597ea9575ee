import PhraseGrammar.Fault
import PhraseGrammar.Token

/-!
# What is wrong with a grammar file

* `CompileError`, `CompileError.Kind`: the causes and their kinds;
* equality `==` of causes: the same kind and the same details, where faults of the system are
  compared by kind;
* `CompileError.text`: the description of a cause.
-/

namespace PhraseGrammar

/-- Why a grammar file is refused. -/
inductive CompileError
  /-- The character is not part of the language. -/
  | unknownCharacter (c : Char)
  /-- The token does not fit here; these kinds do. -/
  | unexpectedToken (found : Token) (expected : List TokenKind)
  /-- An arrow has nothing in front of it. -/
  | missingPattern
  /-- The tokens ran out before the grammar was complete. -/
  | unexpectedEnd
  /-- There is no such grammar file. -/
  | missingFile
  /-- The file could not be read. -/
  | unreadable (fault : Fault)

namespace CompileError

/-- The kinds of causes. -/
inductive Kind
  | unknownCharacter
  | unexpectedToken
  | missingPattern
  | unexpectedEnd
  | missingFile
  | unreadable
  deriving DecidableEq

/-- What kind of cause this is. -/
def kind : CompileError → Kind
  | unknownCharacter _ => .unknownCharacter
  | unexpectedToken _ _ => .unexpectedToken
  | missingPattern => .missingPattern
  | unexpectedEnd => .unexpectedEnd
  | missingFile => .missingFile
  | unreadable _ => .unreadable

/-- Whether two causes are the same. Where there are no details to compare, the kinds decide. -/
def same : CompileError → CompileError → Bool
  | unknownCharacter a, unknownCharacter b => a == b
  | unexpectedToken a as, unexpectedToken b bs => a == b && as == bs
  | unreadable a, unreadable b => a == b
  | a, b => a.kind == b.kind

instance : BEq CompileError := ⟨same⟩

/-- The description of a cause. -/
def text : CompileError → String
  | unknownCharacter c => "Unknown character `" ++ String.ofList [c] ++ "`"
  | unexpectedToken found [] =>
    "Unexpected token `" ++ found.text ++ "`, nothing more was expected"
  | unexpectedToken found expected =>
    "Unexpected token `" ++ found.text ++ "`, expected " ++
      " or ".intercalate (expected.map TokenKind.text)
  | missingPattern => "Unexpected token `=>`, no pattern to rewrite was found"
  | unexpectedEnd =>
    "Token stream ended early (this is a problem with the lexer, not the grammar)"
  | missingFile => "File not found"
  | unreadable fault => "File error: " ++ fault.text

instance : ToString CompileError := ⟨text⟩

end CompileError

end PhraseGrammar
