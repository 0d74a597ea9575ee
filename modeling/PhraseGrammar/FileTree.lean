import PhraseGrammar.Disk

/-!
# File trees

A disk given by its contents.

* `FileTree`: the directories and files that there are, by their names from the root;
* `FileTree.find`: follows the pieces of a path. Every piece but the last has to be a directory,
  and `..` leads to the directory above;
* `FileTree.entry`: what a path leads to, unless the system does not take it as a path at all;
* `FileTree.disk`: the tree as a disk.
-/

namespace PhraseGrammar

/-- A file tree. The directories above a directory or a file exist as well. -/
structure FileTree where
  here : List (List Char)
  directories : List (List (List Char))
  files : List (List (List Char) × ByteArray)

/-- What a path leads to. -/
inductive Entry
  | directory
  | file (content : ByteArray)

namespace FileTree

/-- Whether the names lead to a directory. -/
def isDirectory (t : FileTree) (names : List (List Char)) : Bool :=
  names.isPrefixOf t.here || t.directories.any names.isPrefixOf ||
    t.files.any fun file => names.isPrefixOf file.1.dropLast

/-- The content of the file that the names lead to. -/
def content? (t : FileTree) (names : List (List Char)) : Option ByteArray :=
  (t.files.find? fun file => file.1 == names).map Prod.snd

/-- The largest number of bytes in a name. -/
def nameLimit : Nat := 255

/-- The number of bytes that a path has to stay below. -/
def pathLimit : Nat := 4096

/-- Follows pieces of a path from a directory on. -/
def find (t : FileTree) (directory : List (List Char)) :
    List (List Char) → Except Fault Entry
  | [] => .ok .directory
  | piece :: rest =>
    if piece = [] ∨ piece = ['.'] then find t directory rest
    else if piece = ['.', '.'] then find t directory.dropLast rest
    else if nameLimit < (String.ofList piece).utf8ByteSize then .error .nameTooLong
    else if t.isDirectory (directory ++ [piece]) then find t (directory ++ [piece]) rest
    else
      match t.content? (directory ++ [piece]) with
      | none => .error .notFound
      | some content => if rest.isEmpty then .ok (.file content) else .error .notADirectory

/-- What a path leads to. The empty path leads nowhere. -/
def entry (t : FileTree) (p : Path) : Except Fault Entry :=
  if p.text.toList.contains '\x00' then .error .nulInPath
  else if p.text.isEmpty then .error .notFound
  else if pathLimit ≤ p.text.utf8ByteSize then .error .nameTooLong
  else t.find (if p.isAbsolute then [] else t.here) p.pieces

/-- The tree as a disk. -/
def disk (t : FileTree) : Disk where
  here := Path.ofNames ['/'] t.here
  holds p := (t.entry p).isOk
  read p :=
    match t.entry p with
    | .error fault => .error fault
    | .ok .directory => .error .isADirectory
    | .ok (.file content) => .ok content

end FileTree

end PhraseGrammar
