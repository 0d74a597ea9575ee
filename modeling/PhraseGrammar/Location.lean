import PhraseGrammar.Path

/-!
# Locations

* `Location`: a place in a file. Lines and columns count from 1; 0 means that it is not known;
* `Located`: an error with its place, and the message that shows both.
-/

namespace PhraseGrammar

/-- A place in a file. -/
structure Location where
  file : Path
  line : Nat
  column : Nat

namespace Location

/-- A file as a whole. -/
def ofFile (file : Path) : Location := ⟨file, 0, 0⟩

/-- The place where nothing is known, not even a file. -/
def unknown : Location := ofFile ⟨""⟩

/-- Places are the same when the files are the same paths and line and column agree. -/
instance : BEq Location where
  beq a b := a.file == b.file && a.line == b.line && a.column == b.column

/-- A place as text: `file`, `file:line` or `file:line:column`, as far as it is known. -/
def text (l : Location) : String :=
  match l.line, l.column with
  | 0, _ => l.file.text
  | line, 0 => l.file.text ++ ":" ++ line.repr
  | line, column => l.file.text ++ ":" ++ line.repr ++ ":" ++ column.repr

end Location

/-- An error and the place it belongs to. -/
structure Located (ε : Type) where
  location : Location
  error : ε

namespace Located

/-- Located errors are the same when both parts are. -/
instance {ε : Type} [BEq ε] : BEq (Located ε) where
  beq a b := a.location == b.location && a.error == b.error

/-- The message for a located error: its place in red, then its cause, in terminal colours. -/
def message {ε : Type} [ToString ε] (e : Located ε) : String :=
  "\x1b[31;49;1m[" ++ e.location.text ++ "]\x1b[39;49;1m  " ++ toString e.error ++ "\x1b[0m"

end Located

end PhraseGrammar
