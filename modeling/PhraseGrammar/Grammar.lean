import PhraseGrammar.Rule

/-!
# Grammars

A grammar is a list of rules. The first one is the start rule; the others are the productions,
and their order is their priority.

* `Grammar`, `Grammar.startRule?`, `Grammar.productions`;
* `Site`, `Grammar.site?`: where a form is changed next. The first production that occurs at or
  after the cursor is taken, at its leftmost occurrence from there on;
* `Grammar.text`: one rule per line.
-/

namespace PhraseGrammar

/-- A grammar: the start rule, then the productions in order of priority. -/
structure Grammar where
  rules : List Rule
  deriving DecidableEq

/-- A place where a production applies: the production, its index and the start of the span. -/
structure Site where
  index : Nat
  rule : Rule
  start : Nat
  deriving DecidableEq

namespace Grammar

/-- The start rule. -/
def startRule? (g : Grammar) : Option Rule := g.rules.head?

/-- The rules after the start rule, each with its index in the grammar. -/
def productions (g : Grammar) : List (Rule × Nat) := g.rules.zipIdx.tail

/-- The next place to replace: of the productions that occur at or after `cursor` the first one,
at its leftmost occurrence from there on. -/
def site? (g : Grammar) (form : Form) (cursor : Nat) : Option Site :=
  g.productions.findSome? fun (rule, index) =>
    (rule.findMatch form cursor).map fun start => ⟨index, rule, start⟩

/-- The characters of a grammar: its rules, one on each line. -/
def spelling (g : Grammar) : List Char := ['\n'].intercalate (g.rules.map Rule.spelling)

/-- A grammar as text. -/
def text (g : Grammar) : String := String.ofList g.spelling

@[simp] theorem productions_nil : (⟨[]⟩ : Grammar).productions = [] := rfl

@[simp] theorem productions_cons (r : Rule) (rest : List Rule) :
    (⟨r :: rest⟩ : Grammar).productions = rest.zipIdx 1 := by
  simp [productions, List.zipIdx_cons]

@[simp] theorem startRule?_cons (r : Rule) (rest : List Rule) :
    (⟨r :: rest⟩ : Grammar).startRule? = some r := rfl

end Grammar

end PhraseGrammar
