/-!
# Symbols and forms

A phrase grammar is written over four kinds of symbols: the start symbol `S`, terminal and
nonterminal letters, and the mark `ε` for the empty word.

* `Symbol`, `Symbol.isNonterminal`, `Symbol.glyph`: every symbol is shown as one character;
* `Form`: a word of symbols, used for patterns, alternatives and sentential forms;
* `Form.spelling`, `Form.text`: the characters of a form, and the text they make;
* `Form.withoutEpsilon`: what is left of an alternative once its empty-word marks are dropped.
-/

namespace PhraseGrammar

/-- A symbol. Letters of different kinds are different symbols, whatever the letter. -/
inductive Symbol
  | start
  | terminal (letter : Char)
  | nonterminal (letter : Char)
  | epsilon
  deriving DecidableEq

namespace Symbol

/-- Only nonterminals keep a derivation going; the start symbol does not. -/
def isNonterminal : Symbol → Bool
  | nonterminal _ => true
  | _ => false

/-- The character that shows a symbol. -/
def glyph : Symbol → Char
  | start => 'S'
  | terminal c => c
  | nonterminal c => c
  | epsilon => 'ε'

end Symbol

/-- A word of symbols: a pattern, an alternative or a sentential form. -/
abbrev Form := List Symbol

namespace Form

/-- The characters that show a form, one for each symbol. -/
def spelling (f : Form) : List Char := f.map Symbol.glyph

/-- A form as text. -/
def text (f : Form) : String := String.ofList (spelling f)

/-- The form without its empty-word marks, which stand for nothing in a replacement. -/
def withoutEpsilon (f : Form) : Form := f.filter (· ≠ .epsilon)

@[simp] theorem length_spelling (f : Form) : (spelling f).length = f.length := by
  simp [spelling]

@[simp] theorem spelling_append (f g : Form) : spelling (f ++ g) = spelling f ++ spelling g := by
  simp [spelling]

@[simp] theorem withoutEpsilon_append (f g : Form) :
    withoutEpsilon (f ++ g) = withoutEpsilon f ++ withoutEpsilon g := by
  simp [withoutEpsilon]

theorem mem_withoutEpsilon {f : Form} {s : Symbol} :
    s ∈ withoutEpsilon f ↔ s ∈ f ∧ s ≠ .epsilon := by
  simp [withoutEpsilon]

end Form

end PhraseGrammar
