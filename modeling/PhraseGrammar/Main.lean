import PhraseGrammar.Program

/-!
# The command line program

Reads the grammar file, and talks to the terminal while a sentence is derived. What is decided
here is only when to read and when to write: everything else is in `Program` and `Engine`.
-/

namespace PhraseGrammar.Terminal

/-- A fault of the system, by the code that it has there. Some calls give the code with its sign
changed. -/
def fault (code : UInt32) (details : String) : Fault :=
  match min code (0 - code) with
  | 2 => .notFound
  | 20 => .notADirectory
  | 21 => .isADirectory
  | number => ⟨.other details, details ++ " (os error " ++ number.toNat.repr ++ ")"⟩

/-- The fault that a failed reading comes from. -/
def faultOf : IO.Error → Fault
  | .noFileOrDirectory _ code details => fault code details
  | .inappropriateType _ code details => fault code details
  | .permissionDenied _ code details => fault code details
  | .resourceExhausted _ code details => fault code details
  | .hardwareFault code details => fault code details
  | .invalidArgument _ code details => fault code details
  | .otherError code details => fault code details
  | error => ⟨.other "Other", error.toString⟩

/-- Reads the content of a file. -/
def readFile (path : Path) : IO (Except Fault ByteArray) := do
  try return .ok (← IO.FS.readBinFile path.text)
  catch error => return .error (faultOf error)

/-- Whether there is something at a path, as far as the attempt to read it shows. -/
def isThere : Except Fault ByteArray → Bool
  | .error fault => fault.kind != .notFound && fault.kind != .notADirectory
  | .ok _ => true

/-- The disk, as far as the file that a configuration names. -/
def disk (config : Config) : IO Disk := do
  let here : Path := ⟨(← IO.currentDir).toString⟩
  let content ← readFile (Path.absolute here config.file.withExtension)
  return { here, holds := fun _ => isThere content, read := fun _ => content }

/-- Adds the next line of the standard input to the input that has not been read. -/
partial def listen (unread : List UInt8) : IO (List UInt8) := do
  let input ← IO.getStdin
  let rec line (bytes : Array UInt8) : IO (Array UInt8) := do
    let next ← input.read 1
    match next.data[0]? with
    | none => return bytes
    | some b => if b = Console.lineFeed then return bytes.push b else line (bytes.push b)
  return unread ++ (← line #[]).toList

/-- Makes passes until the derivation ends, and writes its trace as it grows. Before a pass that
awaits an answer the question is shown, and `attend` sees to what the answer needs. -/
partial def proceed {σ : Type} (engine : Engine σ) (attend : σ → IO σ) (run : Run σ) :
    IO (Run σ) := do
  let terminal ← IO.getStdout
  let (shown, chooser) ← match engine.question? run.phase with
    | none => pure (0, run.session.chooser)
    | some question => do
      terminal.putStr question
      terminal.flush
      pure (question.utf8ByteSize, ← attend run.session.chooser)
  match engine.step? { run with session := { run.session with chooser } } with
  | none => return run
  | some run =>
    let (bytes, output) := run.session.output.drain
    terminal.write (bytes.extract shown bytes.size)
    terminal.flush
    proceed engine attend { run with session := { run.session with output } }

/-- Derives a sentence, and gives the exit code. -/
def derive {σ : Type} (file : Path) (engine : Engine σ) (attend : σ → IO σ) (chooser : σ) :
    IO UInt32 := do
  let run ← proceed engine attend (Engine.start ⟨chooser, .empty none⟩)
  match Program.conclude file run with
  | none => return 1
  | some outcome =>
    IO.eprint outcome.messages
    return outcome.code

/-- A key of random bytes. -/
def randomKey : IO ChaCha.Key := do
  let bytes ← IO.getRandomBytes 32
  return Vector.ofFn fun i =>
    (List.range 4).foldl (fun word j => (word <<< 8) ||| (bytes.get! (4 * i.val + j)).toUInt32) 0

end PhraseGrammar.Terminal

open PhraseGrammar in
/-- The program. -/
def main (arguments : List String) : IO UInt32 := do
  let terminal ← IO.getStdout
  match CommandLine.parse arguments with
  | .error refusal =>
    let outcome := Program.refuse refusal
    terminal.write outcome.output
    IO.eprint outcome.messages
    return outcome.code
  | .ok config =>
    match Program.prepare (← Terminal.disk config) config with
    | .error error =>
      IO.eprintln error.message
      return 1
    | .ok (file, grammar) =>
      terminal.putStr (Program.preface config grammar)
      if config.random then
        let words := Program.words config (← Terminal.randomKey)
        Terminal.derive file ⟨grammar, .random words, config.maxSteps⟩ pure 0
      else
        Terminal.derive file ⟨grammar, .console, config.maxSteps⟩ Terminal.listen []
