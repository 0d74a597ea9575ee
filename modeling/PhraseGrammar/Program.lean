import PhraseGrammar.Chooser.Console
import PhraseGrammar.Chooser.Random
import PhraseGrammar.CommandLine
import PhraseGrammar.Disk
import PhraseGrammar.Engine
import PhraseGrammar.Random.ChaCha

/-!
# The program

* `Outcome`: the exit code and what is written;
* `Program.prepare`: finds and reads the grammar that a configuration names;
* `Program.outcome?`: what the program has done, once its derivation has ended;
* `Program.refuse`: what it does instead when the command line is not carried out.
-/

namespace PhraseGrammar

/-- How a program ends: its exit code, its output and its messages. -/
structure Outcome where
  code : UInt32
  output : ByteArray
  messages : String

namespace Program

/-- Finds the grammar file and reads it. -/
def prepare (disk : Disk) (config : Config) : Except (Located CompileError) (Path × Grammar) := do
  let path ← disk.resolve config.file
  let grammar ← disk.readGrammar path
  return (path, grammar)

/-- What is written before the derivation begins. -/
def preface (config : Config) (grammar : Grammar) : String :=
  if config.showGrammar then grammar.text ++ "\n\n" else ""

/-- The output at the beginning of the derivation. -/
def output (config : Config) (grammar : Grammar) : Stream :=
  ((Stream.empty none).write (preface config grammar)).2

/-- What ends a program that has failed with a message. -/
def failure (output : ByteArray) (message : String) : Outcome := ⟨1, output, message ++ "\n"⟩

/-- How the program ends when a derivation for the grammar in `file` has ended. -/
def conclude {σ : Type} (file : Path) (run : Run σ) : Option Outcome :=
  match run.phase with
  | .ended (.ok _) => some ⟨0, run.session.output.written, ""⟩
  | .ended (.error cause) =>
    let error : Located GenerateError := ⟨.ofFile file, cause⟩
    some (failure run.session.output.written error.message)
  | _ => none

/-- The program's outcome, if its derivation ends within so many passes. Choices are made with the
words at random, or with the lines of the input. -/
def outcome? (disk : Disk) (config : Config) (words : WordStream) (input : List UInt8)
    (passes : Nat) : Option Outcome :=
  match prepare disk config with
  | .error error => some (failure .empty error.message)
  | .ok (file, grammar) =>
    if config.random then
      let engine : Engine Nat := ⟨grammar, .random words, config.maxSteps⟩
      conclude file (engine.run passes (Engine.start ⟨0, output config grammar⟩))
    else
      let engine : Engine (List UInt8) := ⟨grammar, .console, config.maxSteps⟩
      conclude file (engine.run passes (Engine.start ⟨input, output config grammar⟩))

/-- The words for random choices: those of the seed, or of a key if there is no seed. -/
def words (config : Config) (key : ChaCha.Key) : WordStream :=
  match config.seed with
  | some seed => ChaCha.stream (.ofSeed (UInt64.ofNat seed))
  | none => ChaCha.stream key

/-! ### Command lines that are not carried out -/

/-- How the program is called. -/
def usage : String := "Usage: rewriter [OPTIONS] <FILE>\n"

/-- What the program does, how it is called, and what its arguments mean. -/
def help : String :=
  "Interactive string-rewriting derivations over small letter grammars\n\n" ++ usage ++
  "\nArguments:\n" ++
  "  <FILE>  File containing the grammar (`.lang` is added when missing)\n\nOptions:\n" ++
  "  -r, --random             Pick alternatives at random instead of asking\n" ++
  "  -s, --seed <SEED>        Seed for the random choices\n" ++
  "  -m, --max-steps <STEPS>  Give up after this many rewrites (default: no limit)\n" ++
  "  -g, --show-grammar       Print the parsed grammar before deriving\n" ++
  "  -h, --help               Print help\n" ++
  "  -V, --version            Print version\n"

/-- The description of a refusal. -/
def complaint : Refusal → String
  | .missingArgument => "a required argument was not provided"
  | .unknownArgument => "unexpected argument found"
  | .repeatedArgument => "an argument cannot be used multiple times"
  | .missingValue => "a value is required but none was supplied"
  | .invalidNumber => "invalid value: not a number in the allowed range"
  | .unneededValue => "unexpected value for an argument that takes none"
  | .help => "help was asked for"
  | .version => "the version was asked for"

/-- How the program ends when its command line is not carried out. -/
def refuse : Refusal → Outcome
  | .help => ⟨0, help.toUTF8, ""⟩
  | .version => ⟨0, "rewriter 0.1.0\n".toUTF8, ""⟩
  | refusal =>
    ⟨2, .empty, "error: " ++ complaint refusal ++ "\n\n" ++ usage ++
      "\nFor more information, try '--help'.\n"⟩

end Program

end PhraseGrammar
