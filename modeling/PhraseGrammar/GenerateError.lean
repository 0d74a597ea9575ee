import PhraseGrammar.Fault
import PhraseGrammar.Location

/-!
# What ends a derivation without a sentence

* `GenerateError`, `GenerateError.Kind`: the causes and their kinds;
* equality `==` of causes: the same kind and the same details, where faults of the system are
  compared by kind;
* `GenerateError.text`: the description of a cause.
-/

namespace PhraseGrammar

/-- Why a derivation gives no sentence. -/
inductive GenerateError
  /-- There is no start rule. -/
  | emptyGrammar
  /-- A rule has no alternative to choose. -/
  | emptyAlternatives
  /-- The answer names none of the options. -/
  | invalidSelection (answer : String)
  /-- No production occurs in the form, which is shown. -/
  | stuckDerivation (form : String)
  /-- The derivation would go on after the number of steps allowed. -/
  | stepLimitExceeded (steps : Nat)
  /-- Reading the answer or writing the trace failed. -/
  | console (fault : Fault)

namespace GenerateError

/-- The kinds of causes. -/
inductive Kind
  | emptyGrammar
  | emptyAlternatives
  | invalidSelection
  | stuckDerivation
  | stepLimitExceeded
  | console
  deriving DecidableEq

/-- What kind of cause this is. -/
def kind : GenerateError → Kind
  | emptyGrammar => .emptyGrammar
  | emptyAlternatives => .emptyAlternatives
  | invalidSelection _ => .invalidSelection
  | stuckDerivation _ => .stuckDerivation
  | stepLimitExceeded _ => .stepLimitExceeded
  | console _ => .console

/-- Whether two causes are the same. Where there are no details to compare, the kinds decide. -/
def same : GenerateError → GenerateError → Bool
  | invalidSelection a, invalidSelection b => a == b
  | stuckDerivation a, stuckDerivation b => a == b
  | stepLimitExceeded a, stepLimitExceeded b => a == b
  | console a, console b => a == b
  | a, b => a.kind == b.kind

instance : BEq GenerateError := ⟨same⟩

/-- The description of a cause. -/
def text : GenerateError → String
  | emptyGrammar =>
    "Grammar has no start rule (this is a problem with the parser, not the grammar)"
  | emptyAlternatives =>
    "Rule without alternatives found (this is a problem with the parser, not the grammar)"
  | invalidSelection answer => "Invalid selection `" ++ answer ++ "`"
  | stuckDerivation form => "No rule found for `" ++ form ++ "`"
  | stepLimitExceeded steps => "Derivation did not finish within " ++ steps.repr ++ " steps"
  | console fault => "Console error: " ++ fault.text

instance : ToString GenerateError := ⟨text⟩

end GenerateError

end PhraseGrammar
