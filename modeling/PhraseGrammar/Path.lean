/-!
# File paths

A path is text in which slashes separate pieces. Empty pieces and `.` name nothing; `..` is a
name like any other, since what it means depends on the disk.

* `Path.pieces`, `Path.names`: all pieces, and those that name something;
* `Path.isAbsolute`, `Path.startsHere`;
* equality `==` of paths: by names, and by where the path begins;
* `Path.absolute`: the path from the root, with its names only;
* `Path.withExtension`: adds `.lang` where it is missing.
-/

namespace PhraseGrammar

/-- A file path. -/
structure Path where
  text : String

namespace Path

/-- What stands between the slashes. -/
def pieces (p : Path) : List (List Char) := p.text.toList.splitOn '/'

/-- Whether a piece names something: it is neither empty nor `.`. -/
def isName (piece : List Char) : Bool := piece ≠ [] && piece ≠ ['.']

/-- The pieces that name something. -/
def names (p : Path) : List (List Char) := p.pieces.filter isName

/-- Whether the path begins at the root. -/
def isAbsolute (p : Path) : Bool := p.text.toList.head? == some '/'

/-- Whether the path begins with the piece `.`. -/
def startsHere (p : Path) : Bool := p.pieces.head? == some ['.']

/-- Paths are the same when they begin at the same kind of place and have the same names. -/
instance : BEq Path where
  beq p q := p.isAbsolute == q.isAbsolute && p.startsHere == q.startsHere && p.names == q.names

/-- The slashes an absolute path begins with: exactly two stay two, any other number is one. -/
def root (p : Path) : List Char :=
  match p.text.toList with
  | ['/', '/'] => ['/', '/']
  | '/' :: '/' :: c :: _ => if c = '/' then ['/'] else ['/', '/']
  | _ => ['/']

/-- The path with the given root and names. -/
def ofNames (root : List Char) (names : List (List Char)) : Path :=
  ⟨String.ofList (root ++ ['/'].intercalate names)⟩

/-- The path from the root, for one who stands at `here`. -/
def absolute (here p : Path) : Path :=
  if p.isAbsolute then ofNames p.root p.names else ofNames here.root (here.names ++ p.names)

/-- The ending of grammar files. -/
def extension : List Char := ".lang".toList

/-- The path with the ending of grammar files, added where it is missing. -/
def withExtension (p : Path) : Path :=
  if extension.isSuffixOf p.text.toList then p else ⟨p.text ++ String.ofList extension⟩

end Path

end PhraseGrammar
