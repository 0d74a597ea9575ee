import PhraseGrammar.Path
import PhraseGrammar.Text.Numeral

/-!
# Command lines

`FILE [--random] [--seed N] [--max-steps N] [--show-grammar]`, in any order, with short names
`-r`, `-s`, `-m` and `-g`. Short names may be joined (`-rg`); a value follows as an argument of
its own, or is attached (`--seed=4`, `-s4`, `-s=4`). After `--` every argument is the file.

* `Config`: what a command line asks for; `Refusal`: why it is not carried out;
* `Flag`, `Quantity`, `Key`: what can be named, and `Key.ofLong?`, `Key.ofShort?`, its names;
* `Draft`: what has been settled; `Pending`: what was named last. The file and a value that stands
  alone are settled when the next name that is known or the file begins, or at the end. An
  argument that can only be wrong is refused at once, whatever is pending;
* `Scan.feed`: takes one argument;
* `CommandLine.parse`: takes all of them.
-/

namespace PhraseGrammar

/-- What a command line asks for. -/
structure Config where
  file : Path
  random : Bool
  seed : Option Nat
  maxSteps : Option Nat
  showGrammar : Bool

/-- Why a command line is not carried out. -/
inductive Refusal
  /-- There is no file, or a seed without random choices. -/
  | missingArgument
  /-- The name is not known, or there is a second file. -/
  | unknownArgument
  /-- A name is given twice. -/
  | repeatedArgument
  /-- A value is missing, or the file is the empty text. -/
  | missingValue
  /-- A value is not a number below `2 ^ 64`. -/
  | invalidNumber
  /-- A value is attached to a name that takes none. -/
  | unneededValue
  /-- The help is asked for. -/
  | help
  /-- The version is asked for. -/
  | version
  deriving DecidableEq

namespace CommandLine

/-- What is either given or not. -/
inductive Flag
  | random
  | showGrammar
  deriving DecidableEq

/-- What has a number for its value. -/
inductive Quantity
  | seed
  | maxSteps
  deriving DecidableEq

/-- What can be named. -/
inductive Key
  | flag (f : Flag)
  | quantity (q : Quantity)
  | help
  | version
  deriving DecidableEq

/-- The meaning of a long name. -/
def Key.ofLong? (name : List Char) : Option Key :=
  if name = "random".toList then some (.flag .random)
  else if name = "show-grammar".toList then some (.flag .showGrammar)
  else if name = "seed".toList then some (.quantity .seed)
  else if name = "max-steps".toList then some (.quantity .maxSteps)
  else if name = "help".toList then some .help
  else if name = "version".toList then some .version
  else none

/-- The meaning of a short name. -/
def Key.ofShort? : Char → Option Key
  | 'r' => some (.flag .random)
  | 'g' => some (.flag .showGrammar)
  | 's' => some (.quantity .seed)
  | 'm' => some (.quantity .maxSteps)
  | 'h' => some .help
  | 'V' => some .version
  | _ => none

/-! ### What is settled -/

/-- What has been settled so far. -/
structure Draft where
  file : Option String
  flag : Flag → Bool
  quantity : Quantity → Option Nat

namespace Draft

/-- Nothing. -/
def empty : Draft := ⟨none, fun _ => false, fun _ => none⟩

/-- Settles a flag. -/
def setFlag (d : Draft) (f : Flag) : Except Refusal Draft :=
  if d.flag f then .error .repeatedArgument
  else .ok { d with flag := fun g => g = f || d.flag g }

/-- Settles the value of a quantity. -/
def setQuantity (d : Draft) (q : Quantity) (value : List Char) : Except Refusal Draft :=
  if (d.quantity q).isSome then .error .repeatedArgument
  else
    match Numeral.word? value with
    | none => .error .invalidNumber
    | some n => .ok { d with quantity := fun p => if p = q then some n else d.quantity p }

/-- Settles the file. -/
def setFile (d : Draft) (file : String) : Except Refusal Draft :=
  if file.isEmpty then .error .missingValue else .ok { d with file := some file }

/-- What a complete draft asks for. A seed is only of use for random choices. -/
def config (d : Draft) : Except Refusal Config :=
  match d.file with
  | none => .error .missingArgument
  | some file =>
    if (d.quantity .seed).isSome && !d.flag .random then .error .missingArgument
    else .ok ⟨⟨file⟩, d.flag .random, d.quantity .seed, d.quantity .maxSteps, d.flag .showGrammar⟩

end Draft

/-! ### What is pending -/

/-- What was named last and is not settled. -/
inductive Pending
  | nothing
  | file (name : String)
  /-- A quantity whose value must follow. -/
  | awaited (q : Quantity)
  | given (q : Quantity) (value : String)

/-- How far a command line has been read. `filesOnly` is set once `--` has been met. -/
structure Scan where
  draft : Draft
  pending : Pending
  filesOnly : Bool

namespace Scan

/-- Nothing has been read. -/
def start : Scan := ⟨.empty, .nothing, false⟩

/-- Settles what is pending. -/
def settle (s : Scan) : Except Refusal Draft :=
  match s.pending with
  | .nothing => .ok s.draft
  | .file name => s.draft.setFile name
  | .awaited _ => .error .missingValue
  | .given q value => s.draft.setQuantity q value.toList

/-- Whether the file has been named. -/
def hasFile (s : Scan) : Bool :=
  s.draft.file.isSome || match s.pending with
    | .file _ => true
    | _ => false

/-- Goes on with a draft when nothing is pending any more. -/
def resume (s : Scan) (draft : Draft) : Scan := ⟨draft, .nothing, s.filesOnly⟩

/-- Takes an argument as the file. -/
def takeFile (s : Scan) (name : String) : Except Refusal Scan :=
  if s.hasFile then .error .unknownArgument
  else do
    let draft ← s.settle
    return ⟨draft, .file name, s.filesOnly⟩

/-- Takes a name without an attached value. -/
def takeKey (s : Scan) (key : Key) : Except Refusal Scan := do
  let draft ← s.settle
  match key with
  | .flag f => return s.resume (← draft.setFlag f)
  | .quantity q => return ⟨draft, .awaited q, s.filesOnly⟩
  | .help => .error .help
  | .version => .error .version

/-- Takes a quantity with its value attached. -/
def takeAttached (s : Scan) (q : Quantity) (value : List Char) : Except Refusal Scan := do
  let draft ← s.settle
  return s.resume (← draft.setQuantity q value)

/-- Takes what follows two dashes: a long name, and a value attached by `=`. -/
def takeLong (s : Scan) (text : List Char) : Except Refusal Scan :=
  match Key.ofLong? (text.takeWhile (· ≠ '=')), text.dropWhile (· ≠ '=') with
  | none, _ => .error .unknownArgument
  | some key, [] => s.takeKey key
  | some (.quantity q), _ :: value => s.takeAttached q value
  | some _, _ :: _ => .error .unneededValue

/-- Takes what follows one dash: short names, the last of which may have a value attached, with or
without `=`. -/
def takeShort (s : Scan) : List Char → Except Refusal Scan
  | [] => .ok s
  | c :: rest =>
    match Key.ofShort? c, rest with
    | none, _ => .error .unknownArgument
    | some (.quantity q), '=' :: value => s.takeAttached q value
    | some (.quantity q), d :: value => s.takeAttached q (d :: value)
    | some key, _ => do takeShort (← s.takeKey key) rest

/-- Takes one argument. One that begins with a dash is no value, unless it is the dash alone. -/
def feed (s : Scan) (argument : String) : Except Refusal Scan :=
  if s.filesOnly then s.takeFile argument
  else
    match argument.toList with
    | ['-', '-'] => .ok { s with filesOnly := true }
    | '-' :: '-' :: text => s.takeLong text
    | '-' :: c :: text => s.takeShort (c :: text)
    | _ =>
      match s.pending with
      | .awaited q => .ok ⟨s.draft, .given q argument, s.filesOnly⟩
      | _ => s.takeFile argument

end Scan

/-- What a command line asks for, given its arguments. -/
def parse (arguments : List String) : Except Refusal Config := do
  let scan ← arguments.foldlM Scan.feed .start
  let draft ← scan.settle
  draft.config

end CommandLine

end PhraseGrammar
