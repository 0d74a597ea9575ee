import PhraseGrammar.Grammar.Reading

/-!
# Grammar files on a disk

* `Disk`: the directory that relative paths start from, which paths there are, and what reading
  one gives;
* `Disk.resolve`: the path from the root of a grammar file that exists;
* `Disk.readText`, `Disk.readGrammar`: the text of a file, and the grammar in it.
-/

namespace PhraseGrammar

/-- A disk as one who stands in a directory sees it. -/
structure Disk where
  here : Path
  holds : Path → Bool
  read : Path → Except Fault ByteArray

namespace Disk

/-- The path from the root of the grammar file that `p` names, with or without its ending. There
has to be such a file.

The directory that a relative path starts from is taken as known. Where the system cannot tell it,
the program fails with that fault, and this is left out here; no other fault can come up, since a
name with its ending is never empty. -/
def resolve (d : Disk) (p : Path) : Except (Located CompileError) Path :=
  let path := Path.absolute d.here p.withExtension
  if d.holds path then .ok path else .error ⟨.ofFile path, .missingFile⟩

/-- The text of a file. -/
def readText (d : Disk) (p : Path) : Except Fault String :=
  match d.read p with
  | .error fault => .error fault
  | .ok bytes =>
    match String.fromUTF8? bytes with
    | some text => .ok text
    | none => .error .invalidText

/-- The grammar in a file. Errors name the file as it is given. -/
def readGrammar (d : Disk) (p : Path) : Except (Located CompileError) Grammar :=
  match d.readText p with
  | .error fault => .error ⟨.ofFile p, .unreadable fault⟩
  | .ok text => Grammar.ofText p text

end Disk

end PhraseGrammar
