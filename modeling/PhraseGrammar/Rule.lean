import PhraseGrammar.Symbol

/-!
# Rules

* `Rule`: a pattern and the alternatives that may replace it;
* `Rule.findMatch`: the leftmost place at or after an offset where the pattern occurs;
* `Rule.spelling`, `Rule.text`: a rule as it is written, `pattern => alternative | alternative`.
-/

namespace PhraseGrammar

/-- A rule: any alternative may take the place of an occurrence of the pattern. -/
structure Rule where
  pattern : Form
  alternatives : List Form
  deriving DecidableEq

namespace Rule

/-- The first place where `pattern` occurs, when the given symbols stand at place `i` and after.
The pattern is taken to be nonempty: no occurrence is looked for behind the last symbol. -/
def locate (pattern : Form) : Form → Nat → Option Nat
  | [], _ => none
  | s :: rest, i => if pattern.isPrefixOf (s :: rest) then some i else locate pattern rest (i + 1)

/-- The leftmost place at or after `offset` where the whole pattern occurs in `form`. An empty
pattern occurs nowhere. -/
def findMatch (r : Rule) (form : Form) (offset : Nat) : Option Nat :=
  if r.pattern.isEmpty then none else locate r.pattern (form.drop offset) offset

/-- The characters of a rule. -/
def spelling (r : Rule) : List Char :=
  Form.spelling r.pattern ++ " => ".toList ++
    " | ".toList.intercalate (r.alternatives.map Form.spelling)

/-- A rule as text. -/
def text (r : Rule) : String := String.ofList r.spelling

@[simp] theorem locate_nil (pattern : Form) (i : Nat) : locate pattern [] i = none := rfl

theorem locate_cons (pattern : Form) (s : Symbol) (rest : Form) (i : Nat) :
    locate pattern (s :: rest) i =
      if pattern.isPrefixOf (s :: rest) then some i else locate pattern rest (i + 1) := rfl

theorem findMatch_of_pattern_eq_nil {r : Rule} (h : r.pattern = []) (form : Form) (offset : Nat) :
    r.findMatch form offset = none := by
  simp [findMatch, h]

end Rule

end PhraseGrammar
