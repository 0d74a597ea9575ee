import PhraseGrammar.Grammar
import PhraseGrammar.Token

/-!
# Grammars written in tokens

Which grammars can be written, and the token lists that write them, without a word about how they
are read.

* `Form.IsPattern`, `Form.IsAlternative`, `Rule.IsStartRule`, `Rule.IsProduction`,
  `Grammar.WellFormed`: what may stand where;
* `Form.tokens`, `Rule.tokens`: the tokens that spell a form and a rule;
* `Layout`: rules in lines, with or without blank lines between them;
* `Grammar.Written`: a token list writes a grammar in some layout.
-/

namespace PhraseGrammar

/-! ### Well-formed grammars -/

/-- Terminals and nonterminals are letters. -/
def Symbol.isLetter : Symbol → Bool
  | terminal _ => true
  | nonterminal _ => true
  | _ => false

/-- The pattern of a production: at least one letter and nothing else. -/
def Form.IsPattern (f : Form) : Prop := f ≠ [] ∧ ∀ s ∈ f, s.isLetter = true

/-- An alternative: at least one symbol, of which the first may be the empty-word mark, and letters
besides. -/
def Form.IsAlternative : Form → Prop
  | [] => False
  | s :: rest => s ≠ .start ∧ ∀ t ∈ rest, t.isLetter = true

theorem Form.isAlternative_singleton {s : Symbol} (h : s ≠ .start) : Form.IsAlternative [s] :=
  ⟨h, by simp⟩

theorem Form.IsAlternative.concat {a : Form} {s : Symbol} (h : Form.IsAlternative a)
    (hs : s.isLetter = true) : Form.IsAlternative (a ++ [s]) := by
  cases a with
  | nil => exact h.elim
  | cons first rest =>
    refine ⟨h.1, fun t ht => ?_⟩
    rcases List.mem_append.1 ht with ht | ht
    · exact h.2 t ht
    · exact List.mem_singleton.1 ht ▸ hs

namespace Rule

/-- There is at least one alternative, and each is one. -/
def HasAlternatives (r : Rule) : Prop :=
  r.alternatives ≠ [] ∧ ∀ a ∈ r.alternatives, Form.IsAlternative a

/-- Such a rule has a last alternative. -/
theorem HasAlternatives.exists_concat {r : Rule} (h : r.HasAlternatives) :
    ∃ pattern others last, r = ⟨pattern, others ++ [last]⟩ := by
  obtain ⟨pattern, alternatives⟩ := r
  obtain ⟨others, last, heq⟩ := (List.eq_nil_or_concat alternatives).resolve_left h.1
  rw [List.concat_eq_append] at heq
  exact ⟨pattern, others, last, by rw [heq]⟩

/-- The rule for the start symbol. -/
def IsStartRule (r : Rule) : Prop := r.pattern = [.start] ∧ r.HasAlternatives

/-- A rule for a pattern of letters. -/
def IsProduction (r : Rule) : Prop := Form.IsPattern r.pattern ∧ r.HasAlternatives

end Rule

namespace Grammar

/-- The start rule comes first, and productions follow it. -/
def WellFormed : Grammar → Prop
  | ⟨[]⟩ => False
  | ⟨first :: rest⟩ => first.IsStartRule ∧ ∀ r ∈ rest, r.IsProduction

theorem WellFormed.concat {rules : List Rule} {r : Rule} (h : WellFormed ⟨rules⟩)
    (hr : r.IsProduction) : WellFormed ⟨rules ++ [r]⟩ := by
  cases rules with
  | nil => exact h.elim
  | cons first rest =>
    refine ⟨h.1, fun q hq => ?_⟩
    rcases List.mem_append.1 hq with hq | hq
    · exact h.2 q hq
    · exact List.mem_singleton.1 hq ▸ hr

end Grammar

section Decidable

instance : DecidablePred Form.IsPattern := fun f =>
  inferInstanceAs (Decidable (f ≠ [] ∧ ∀ s ∈ f, s.isLetter = true))

instance : DecidablePred Form.IsAlternative
  | [] => inferInstanceAs (Decidable False)
  | s :: rest => inferInstanceAs (Decidable (s ≠ .start ∧ ∀ t ∈ rest, t.isLetter = true))

instance : DecidablePred Rule.HasAlternatives := fun r =>
  inferInstanceAs (Decidable (r.alternatives ≠ [] ∧ ∀ a ∈ r.alternatives, Form.IsAlternative a))

instance : DecidablePred Rule.IsStartRule := fun r =>
  inferInstanceAs (Decidable (r.pattern = [.start] ∧ r.HasAlternatives))

instance : DecidablePred Rule.IsProduction := fun r =>
  inferInstanceAs (Decidable (Form.IsPattern r.pattern ∧ r.HasAlternatives))

instance : DecidablePred Grammar.WellFormed
  | ⟨[]⟩ => inferInstanceAs (Decidable False)
  | ⟨first :: rest⟩ =>
    inferInstanceAs (Decidable (first.IsStartRule ∧ ∀ r ∈ rest, r.IsProduction))

end Decidable

/-! ### Tokens -/

/-- The token that stands for a symbol. -/
def Symbol.token : Symbol → Token
  | start => .start
  | terminal c => .terminal c
  | nonterminal c => .nonterminal c
  | epsilon => .epsilon

/-- The tokens that spell a form, one for each symbol. -/
def Form.tokens (f : Form) : List Token := f.map Symbol.token

@[simp] theorem Form.tokens_nil : Form.tokens [] = [] := rfl

@[simp] theorem Form.tokens_cons (s : Symbol) (f : Form) :
    Form.tokens (s :: f) = s.token :: Form.tokens f := rfl

@[simp] theorem Form.tokens_append (f g : Form) :
    Form.tokens (f ++ g) = Form.tokens f ++ Form.tokens g := by
  simp [Form.tokens]

/-- The tokens that spell a rule: the pattern, the arrow, and the alternatives with a bar between
any two of them. -/
def Rule.tokens (r : Rule) : List Token :=
  Form.tokens r.pattern ++ .assign :: [.or].intercalate (r.alternatives.map Form.tokens)

/-- Alternatives that others follow, each with the bar behind it. -/
def Rule.barred (alternatives : List Form) : List Token :=
  alternatives.flatMap fun a => Form.tokens a ++ [.or]

@[simp] theorem Rule.barred_concat (alternatives : List Form) (a : Form) :
    barred (alternatives ++ [a]) = barred alternatives ++ Form.tokens a ++ [.or] := by
  simp [barred]

theorem Rule.intercalate_concat (alternatives : List Form) (last : Form) :
    [Token.or].intercalate ((alternatives ++ [last]).map Form.tokens) =
      barred alternatives ++ Form.tokens last := by
  induction alternatives with
  | nil => simp [barred]
  | cons a rest ih =>
    have hne : (rest ++ [last]).map Form.tokens ≠ [] := by simp
    rw [List.cons_append, List.map_cons, List.intercalate_cons_of_ne_nil hne, ih]
    simp [barred]

theorem Rule.tokens_concat (pattern : Form) (alternatives : List Form) (last : Form) :
    Rule.tokens ⟨pattern, alternatives ++ [last]⟩ =
      Form.tokens pattern ++ .assign :: (barred alternatives ++ Form.tokens last) := by
  rw [Rule.tokens, intercalate_concat]

/-! ### Lines -/

/-- What stands before a rule that is not the first one: a new line, and perhaps a blank line. -/
def lineBreak (blank : Bool) : List Token :=
  if blank then [.newLine, .newLine] else [.newLine]

/-- Rules in lines. For every rule after the first one it is noted whether a blank line stands
before it. -/
structure Layout where
  first : Rule
  rest : List (Bool × Rule)

namespace Layout

/-- The rules in their order. -/
def rules (l : Layout) : List Rule := l.first :: l.rest.map Prod.snd

/-- The tokens of the rules with what separates them. -/
def tokens (l : Layout) : List Token :=
  l.first.tokens ++ l.rest.flatMap fun (blank, r) => lineBreak blank ++ r.tokens

/-- One more rule at the end. -/
def add (l : Layout) (blank : Bool) (r : Rule) : Layout := ⟨l.first, l.rest ++ [(blank, r)]⟩

@[simp] theorem rules_add (l : Layout) (blank : Bool) (r : Rule) :
    (l.add blank r).rules = l.rules ++ [r] := by
  simp [rules, add]

@[simp] theorem tokens_add (l : Layout) (blank : Bool) (r : Rule) :
    (l.add blank r).tokens = l.tokens ++ lineBreak blank ++ r.tokens := by
  simp [tokens, add]

end Layout

/-- The tokens write the grammar: its rules in lines, perhaps a new line, and the end of the
file. -/
def Grammar.Written (g : Grammar) (tokens : List Token) : Prop :=
  ∃ l : Layout, l.rules = g.rules ∧
    (tokens = l.tokens ++ [.endOfFile] ∨ tokens = l.tokens ++ [.newLine, .endOfFile])

end PhraseGrammar
