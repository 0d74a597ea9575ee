import PhraseGrammar.Proofs.Soundness

/-!
# Priority of the productions

Which production is applied, and where, depends on the step before: the search goes on from the
start of that step, and takes in what is left of it only when there is nothing else.
`cursorKept_of_reaches` is the invariant that ties the cursor to the record of steps. Main
statement: `priority_of_performs`.
-/

namespace PhraseGrammar

/-- The start of the last step, or 0 when only the first step of all has been made. -/
def Work.previousStart (w : Work) : Nat :=
  (w.steps.toList.tail.getLast?.map Step.start).getD 0

theorem Work.previousStart_replace {w : Work} (h : w.steps.toList ≠ []) (site : Site)
    (replacement : Form) : (w.replace site replacement).previousStart = site.start := by
  simp [previousStart, replace, List.tail_append_of_ne_nil h]

namespace Engine

variable {σ : Type} {e : Engine σ}

/-- The cursor stands at the start of the last step; or at the start of the form, and then nothing
was found from the last step on. -/
def CursorKept (g : Grammar) (w : Work) : Prop :=
  w.cursor = w.previousStart ∨ (w.cursor = 0 ∧ ¬ g.OccursFrom w.form w.previousStart)

theorem cursorKept_of_reaches {w : Work} (h : e.Reaches w) : CursorKept e.grammar w := by
  induction h with
  | first start mem => exact .inl rfl
  | advance reaches pass ih =>
    cases pass with
    | replace found allowed picks =>
      have hne := (isDerivation_of_reaches reaches).ne_nil
      refine .inl ?_
      rw [Work.previousStart_replace hne, Work.replace]
    | reset nowhere moved =>
      -- the cursor leaves the last step only when nothing is found from there on
      rcases ih with hcursor | ⟨hcursor, -⟩
      · rw [hcursor] at nowhere
        exact .inr ⟨rfl, nowhere⟩
      · exact absurd hcursor moved

/-- What a step that has been made in a run says about the pass that made it. -/
theorem exists_site_of_performs {s : Session σ} {w w' : Work} {step : Step}
    (h : e.Performs s w step w') :
    e.Reaches w ∧ ∃ rule, e.grammar.IsSite w.form w.cursor ⟨step.rule, rule, step.start⟩ ∧
      e.grammar.Rewrites w.form step w'.form := by
  obtain ⟨n, before, after, hrun, hadvance, hsteps⟩ := h
  have hphase : (e.run n (start s)).phase = .working w := by rw [hrun]
  refine ⟨reaches_of_run hphase, ?_⟩
  have hadvances := advances_of_advance hadvance
  generalize after.chooser = state at hadvances
  cases hadvances with
  | @replace site chosen _ found allowed picks =>
    obtain rfl := Array.back_eq_of_push_eq hsteps
    exact ⟨site.rule, found, rewrites_of_isSite found picks.mem⟩
  | reset nowhere moved =>
    have := congrArg Array.size hsteps
    simp at this

/-- **Earlier productions come first, and the search is sticky.** A step applies the first
production that occurs at or after the start of the step before, at its leftmost place from there
on; if there is none, the first production that occurs at all, at its leftmost place. So no earlier
production occurs from the place of the step on, and a step is made to the left of the step before
only if nothing was left from there on. -/
theorem priority_of_performs {s : Session σ} {w w' : Work} {step : Step}
    (h : e.Performs s w step w') :
    e.grammar.Rewrites w.form step w'.form ∧
      (e.grammar.OccursFrom w.form w.previousStart →
        ∃ rule, e.grammar.IsSite w.form w.previousStart ⟨step.rule, rule, step.start⟩) ∧
      (¬ e.grammar.OccursFrom w.form w.previousStart →
        ∃ rule, e.grammar.IsSite w.form 0 ⟨step.rule, rule, step.start⟩) ∧
      (∀ j r, j < step.rule → e.grammar.HasProduction j r → ¬ r.OccursFrom w.form step.start) ∧
      (step.start < w.previousStart → ¬ e.grammar.OccursFrom w.form w.previousStart) := by
  obtain ⟨hreaches, rule, hsite, hrewrites⟩ := exists_site_of_performs h
  have hfirst : ∀ j r, j < step.rule → e.grammar.HasProduction j r →
      ¬ r.OccursFrom w.form step.start := by
    intro j r hj hr hocc
    exact hsite.first j r hj hr (hocc.mono hsite.leftmost.offset_le)
  rcases cursorKept_of_reaches hreaches with hcursor | ⟨hcursor, hnowhere⟩
  · rw [hcursor] at hsite
    refine ⟨hrewrites, fun _ => ⟨rule, hsite⟩, ?_, hfirst, ?_⟩
    · intro hnowhere
      exact absurd hsite.occursFrom hnowhere
    · intro hlt
      have hle : w.previousStart ≤ step.start := hsite.leftmost.offset_le
      omega
  · rw [hcursor] at hsite
    refine ⟨hrewrites, ?_, fun _ => ⟨rule, hsite⟩, hfirst, fun _ => hnowhere⟩
    intro hocc
    exact absurd hocc hnowhere

theorem priority_of_performs_wanderer :
    wanderer.Performs ⟨[1, 1, 0], .empty none⟩
        ⟨[.nonterminal 'A', .terminal 'c'], 0, (wandered.steps.take 3).toArray⟩
        ⟨3, 0, 1, [.terminal 'b']⟩ ⟨wandered.sentence, 0, wandered.steps.toArray⟩ ∧
      ¬ wandering.OccursFrom [.nonterminal 'A', .terminal 'c'] 1 := by
  have h : wanderer.Performs ⟨[1, 1, 0], .empty none⟩
      ⟨[.nonterminal 'A', .terminal 'c'], 0, (wandered.steps.take 3).toArray⟩
      ⟨3, 0, 1, [.terminal 'b']⟩ ⟨wandered.sentence, 0, wandered.steps.toArray⟩ :=
    ⟨4, _, _, rfl, rfl, rfl⟩
  exact ⟨h, (priority_of_performs h).2.2.2.2 (by decide)⟩

end Engine

end PhraseGrammar
