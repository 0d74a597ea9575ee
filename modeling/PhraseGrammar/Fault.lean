/-!
# System faults

What goes wrong in reading and writing, outside the program's control.

* `FaultKind`: the kinds of fault;
* `Fault`: a kind with the text that describes it. Faults are compared by kind alone.
-/

namespace PhraseGrammar

/-- A kind of fault. -/
inductive FaultKind
  | notFound
  | notADirectory
  | isADirectory
  | invalidData
  | other (name : String)
  deriving DecidableEq

/-- A fault: its kind and its description. -/
structure Fault where
  kind : FaultKind
  text : String

namespace Fault

/-- Faults are the same when their kinds are. -/
instance : BEq Fault where
  beq a b := a.kind == b.kind

/-- Nothing has this path. -/
def notFound : Fault := ⟨.notFound, "No such file or directory (os error 2)"⟩

/-- A file stands where a directory is needed. -/
def notADirectory : Fault := ⟨.notADirectory, "Not a directory (os error 20)"⟩

/-- A directory cannot be read as a file. -/
def isADirectory : Fault := ⟨.isADirectory, "Is a directory (os error 21)"⟩

/-- A path cannot hold the character with code 0. -/
def nulInPath : Fault := ⟨.other "InvalidInput", "file name contained an unexpected NUL byte"⟩

/-- A path, or a name in it, has more bytes than the system takes. -/
def nameTooLong : Fault := ⟨.other "InvalidFilename", "File name too long (os error 36)"⟩

/-- The bytes read are not UTF-8. -/
def invalidText : Fault := ⟨.invalidData, "stream did not contain valid UTF-8"⟩

/-- The output takes no more bytes. -/
def outputFull : Fault := ⟨.other "Other", "sink is full"⟩

end Fault

end PhraseGrammar
