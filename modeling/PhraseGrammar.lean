import PhraseGrammar.Chooser.Console
import PhraseGrammar.Chooser.Random
import PhraseGrammar.CommandLine
import PhraseGrammar.Engine
import PhraseGrammar.FileTree
import PhraseGrammar.Grammar.Reading
import PhraseGrammar.Main
import PhraseGrammar.Program
import PhraseGrammar.Random.ChaCha
import PhraseGrammar.Proofs.Acceptance
import PhraseGrammar.Proofs.Accord
import PhraseGrammar.Proofs.Appending
import PhraseGrammar.Proofs.Arrival
import PhraseGrammar.Proofs.Capacity
import PhraseGrammar.Proofs.Checked
import PhraseGrammar.Proofs.Choosers
import PhraseGrammar.Proofs.Chronicle
import PhraseGrammar.Proofs.Columns
import PhraseGrammar.Proofs.Comments
import PhraseGrammar.Proofs.Completeness
import PhraseGrammar.Proofs.Components
import PhraseGrammar.Proofs.Configurations
import PhraseGrammar.Proofs.Confinement
import PhraseGrammar.Proofs.Confluence
import PhraseGrammar.Proofs.Consumption
import PhraseGrammar.Proofs.ContextFree
import PhraseGrammar.Proofs.Decisions
import PhraseGrammar.Proofs.Equality
import PhraseGrammar.Proofs.Failure
import PhraseGrammar.Proofs.Faults
import PhraseGrammar.Proofs.Halting
import PhraseGrammar.Proofs.InputLines
import PhraseGrammar.Proofs.Layout
import PhraseGrammar.Proofs.Letters
import PhraseGrammar.Proofs.Lexing
import PhraseGrammar.Proofs.Likeness
import PhraseGrammar.Proofs.Limit
import PhraseGrammar.Proofs.Mirroring
import PhraseGrammar.Proofs.Numerals
import PhraseGrammar.Proofs.Occurrence
import PhraseGrammar.Proofs.Outcome
import PhraseGrammar.Proofs.Output
import PhraseGrammar.Proofs.Pass
import PhraseGrammar.Proofs.Pieces
import PhraseGrammar.Proofs.Priority
import PhraseGrammar.Proofs.Progress
import PhraseGrammar.Proofs.Reading
import PhraseGrammar.Proofs.Rejection
import PhraseGrammar.Proofs.Relayout
import PhraseGrammar.Proofs.Renaming
import PhraseGrammar.Proofs.Replay
import PhraseGrammar.Proofs.Replies
import PhraseGrammar.Proofs.Requests
import PhraseGrammar.Proofs.Resolution
import PhraseGrammar.Proofs.Rewriting
import PhraseGrammar.Proofs.RoundTrip
import PhraseGrammar.Proofs.Run
import PhraseGrammar.Proofs.Scanning
import PhraseGrammar.Proofs.Seams
import PhraseGrammar.Proofs.Selections
import PhraseGrammar.Proofs.Shadowing
import PhraseGrammar.Proofs.Soundness
import PhraseGrammar.Proofs.Termination
import PhraseGrammar.Proofs.Uniformity
import PhraseGrammar.Proofs.Weight
