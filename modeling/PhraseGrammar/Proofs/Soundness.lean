import PhraseGrammar.Proofs.Run

/-!
# Derivations are sound

The engine keeps the form and the record of steps side by side. `isDerivation_of_reaches` is the
invariant that ties them together: replaying the steps from the start symbol is a derivation of the
form. Main statement: `derivation_sound`, for the sentence of a run and for the form in which a run
is stuck.
-/

namespace PhraseGrammar.Engine

variable {σ : Type} {e : Engine σ}

theorem rewrites_of_isSite {g : Grammar} {w : Work} {offset : Nat} {site : Site} {chosen : Form}
    (found : g.IsSite w.form offset site) (mem : chosen ∈ site.rule.alternatives) :
    g.Rewrites w.form
      ⟨site.index, site.start, site.rule.pattern.length, Form.withoutEpsilon chosen⟩
      (w.replace site (Form.withoutEpsilon chosen)).form := by
  obtain ⟨left, right, hform, hleft⟩ := found.leftmost.occursAt.exists_eq_append
  rw [Work.replace, hform, ← hleft, Form.splice_append]
  exact .intro left right found.production mem

/-- The invariant of a run: the steps that were recorded derive the form. -/
theorem isDerivation_of_reaches {w : Work} (h : e.Reaches w) :
    e.grammar.IsDerivation w.steps.toList w.form := by
  induction h with
  | first start mem => exact Grammar.isDerivation_first start mem
  | advance reaches pass ih =>
    cases pass with
    | replace found allowed picks =>
      rw [Work.replace, Array.toList_push]
      exact ih.snoc (rewrites_of_isSite found picks.mem)
    | reset nowhere moved => exact ih

/-- In the run that begins in session `s` the chooser, asked a question, fails with `cause`. -/
def ChooserFails (e : Engine σ) (s : Session σ) (cause : GenerateError) : Prop :=
  ∃ m alternatives, 2 ≤ alternatives.length ∧
    e.chooser.answer alternatives (e.run m (start s)).session.chooser =
      some (.error cause, (e.run (m + 1) (start s)).session.chooser)

/-- **A derivation is a derivation of its sentence**, step by step from the start symbol. So is what
led to the form that a stuck run shows; only the chooser could claim to be stuck by itself. -/
theorem derivation_sound (e : Engine σ) (s : Session σ) :
    (∀ d, e.Ends s (.ok d) → e.grammar.IsDerivation d.steps d.sentence) ∧
      ∀ text, e.Ends s (.error (.stuckDerivation text)) →
        (∃ steps form, e.grammar.IsDerivation steps form ∧ text = Form.text form) ∨
          e.ChooserFails s (.stuckDerivation text) := by
  constructor
  · intro d hd
    obtain ⟨w, hw, -, rfl⟩ := reaches_of_ends hd
    exact isDerivation_of_reaches hw
  · intro text htext
    obtain ⟨m, ⟨-, hbegins⟩ | ⟨w, hw, -, hadvances⟩⟩ := advances_of_ends htext
    · cases hbegins with
      | declined start picks =>
        cases picks with
        | refused several answer => exact .inr ⟨m, _, several, answer⟩
    · generalize hafter : (e.run (m + 1) (start s)).session.chooser = after at hadvances
      cases hadvances with
      | declined found allowed picks =>
        cases picks with
        | refused several answer =>
          rw [← hafter] at answer
          exact .inr ⟨m, _, several, answer⟩
      | stuck nowhere home => exact .inl ⟨_, _, isDerivation_of_reaches hw, rfl⟩

/-- A grammar in which a two-symbol pattern vanishes, and the first production of all is left aside
because it only occurs before the cursor. -/
def wandering : Grammar where
  rules := [
    ⟨[.start], [[.terminal 'a'], [.nonterminal 'A', .terminal 'a', .nonterminal 'B',
      .nonterminal 'A']]⟩,
    ⟨[.terminal 'a', .nonterminal 'B'], [[.epsilon]]⟩,
    ⟨[.nonterminal 'A', .nonterminal 'A'], [[.terminal 'd']]⟩,
    ⟨[.nonterminal 'A'], [[.terminal 'b'], [.epsilon, .terminal 'c']]⟩]

/-- The engine for this grammar with answers prepared in advance. -/
def wanderer : Engine (List Nat) := ⟨wandering, .script, none⟩

/-- What it derives when it is told to take the second alternatives, and then the first one. -/
def wandered : Derivation where
  sentence := [.terminal 'b', .terminal 'c']
  steps := [
    ⟨0, 0, 1, [.nonterminal 'A', .terminal 'a', .nonterminal 'B', .nonterminal 'A']⟩,
    ⟨1, 1, 2, []⟩, ⟨3, 1, 1, [.terminal 'c']⟩, ⟨3, 0, 1, [.terminal 'b']⟩]

theorem derivation_sound_wanderer :
    (wanderer.Ends ⟨[1, 1, 0], .empty none⟩ (.ok wandered) ∧
        wandering.IsDerivation wandered.steps wandered.sentence) ∧
      wanderer.Ends ⟨[0], .empty none⟩ (.error (.stuckDerivation "a")) ∧
        ((∃ steps form, wandering.IsDerivation steps form ∧ "a" = Form.text form) ∨
          wanderer.ChooserFails ⟨[0], .empty none⟩ (.stuckDerivation "a")) := by
  have hended : wanderer.Ends ⟨[1, 1, 0], .empty none⟩ (.ok wandered) := ⟨5, rfl⟩
  have hstuck : wanderer.Ends ⟨[0], .empty none⟩ (.error (.stuckDerivation "a")) := ⟨2, rfl⟩
  exact ⟨⟨hended, (derivation_sound _ _).1 _ hended⟩, hstuck, (derivation_sound _ _).2 _ hstuck⟩

end PhraseGrammar.Engine
