import PhraseGrammar.Proofs.Failure
import PhraseGrammar.Proofs.Soundness

/-!
# When a derivation halts

On an output that takes all bytes, a derivation succeeds exactly if some replacement after the
first one leaves no nonterminal, and it is stuck exactly if it comes to a form in which nothing can
be replaced. Main statement: `halting_exact`.
-/

namespace PhraseGrammar.Engine

variable {σ : Type} {e : Engine σ} {s : Session σ}

section Unlimited

variable (hs : s.output.Unlimited)
include hs

theorem unlimited_of_run (n : Nat) : (e.run n (start s)).session.output.Unlimited :=
  hs.of_extends (e.run_extends (start s) n)

/-- A replacement that leaves no nonterminal ends the run, unless it is the first one. -/
theorem finishes_of_terminal {k : Nat} {w : Work} {t : Session σ} (hk : 1 ≤ k)
    (h : e.Arrives s k w t) (hany : w.form.any Symbol.isNonterminal = false) :
    ∃ t', e.Finishes s (.ok ⟨w.form, w.steps.toList⟩) t' := by
  have ht := hs.of_extends h.extends
  cases h with
  | first opening => cases hk
  | @later n k v w u t run advance before after =>
    obtain ⟨t', hwrite, -⟩ := Action.write_of_unlimited ht (Trace.final w.form)
    have hconclude : (conclude w : Action σ Phase) t =
        some (.ok (.ended (.ok ⟨w.form, w.steps.toList⟩)), t') := by
      rw [conclude, if_neg (by simp [hany])]
      exact Action.bind_eq_some.2 (.inl ⟨(), t', hwrite, rfl⟩)
    have hpass : e.pass v u = some (.ok (.ended (.ok ⟨w.form, w.steps.toList⟩)), t') :=
      Action.bind_eq_some.2 (.inl ⟨w, t, advance, hconclude⟩)
    refine ⟨t', n + 1, ?_⟩
    rw [run_succ, run, step_of_pass hpass]
    rfl

/-- With the cursor at the start of the form, a run in which nothing can be replaced shows the form
and ends. -/
theorem finishes_of_home {n : Nat} {w : Work} {t : Session σ}
    (hrun : e.run n (start s) = ⟨.working w, t⟩) (home : w.cursor = 0)
    (nowhere : ¬ e.grammar.OccursFrom w.form 0) :
    ∃ t', e.Finishes s (.error (.stuckDerivation (Form.text w.form))) t' ∧
      t'.output.written = t.output.written ++ (Trace.form w.form).toUTF8 := by
  have ht : t.output.Unlimited := by
    have hsession := unlimited_of_run (e := e) hs n
    rwa [hrun] at hsession
  obtain ⟨t', hwrite, -, -, hwritten⟩ := Action.write_of_unlimited ht (Trace.form w.form)
  have hadvance :
      e.advance w t = some (.error (.stuckDerivation (Form.text w.form)), t') := by
    simp only [advance, home, Grammar.site?_eq_none_iff.2 nowhere, if_true]
    exact Action.bind_eq_some.2 (.inl ⟨(), t', hwrite, rfl⟩)
  have hpass : e.pass w t = some (.error (.stuckDerivation (Form.text w.form)), t') :=
    Action.bind_eq_some.2 (.inr ⟨_, hadvance, rfl⟩)
  refine ⟨t', ⟨n + 1, ?_⟩, hwritten⟩
  rw [run_succ, hrun, step_of_pass hpass]
  rfl

/-- A run that comes to a form in which nothing can be replaced is stuck there, wherever its cursor
stands. -/
theorem finishes_of_stuckAt {k : Nat} {w : Work} {t : Session σ} (h : e.StuckAt s k w t) :
    ∃ t', e.Finishes s (.error (.stuckDerivation (Form.text w.form))) t' ∧
      t'.output.written = t.output.written ++ (Trace.form w.form).toUTF8 := by
  obtain ⟨arrives, nowhere, unfinished⟩ := h
  obtain ⟨n, cursor, hrun, ⟨-, index, r, hr, hocc⟩ | ⟨home, -⟩⟩ := arrives.exists_search unfinished
  · exact absurd ⟨index, r, hr, hocc.mono (Nat.zero_le _)⟩ nowhere
  · exact finishes_of_home (w := { w with cursor }) hs hrun home nowhere

/-- What the chooser gives as a cause of failure ends the run. -/
theorem ends_of_declines {cause : GenerateError} (h : e.Declines s cause) :
    e.Ends s (.error cause) := by
  obtain ⟨alternatives, after, m, asks, answer⟩ := h
  have hm := unlimited_of_run (e := e) hs m
  refine ⟨m + 1, ?_⟩
  rw [run_succ]
  generalize e.run m (start s) = r at asks answer hm ⊢
  obtain ⟨phase, u⟩ := r
  cases asks with
  | @opening rule start several =>
    obtain ⟨t, hchoose⟩ := choose_of_declined several hm answer [.start] 0 1
    have hopening : e.opening u = some (.error cause, t) := by
      simp only [opening, start]
      exact Action.bind_eq_some.2 (.inr ⟨cause, hchoose, rfl⟩)
    simp [step, step?, next?, hopening, settle]
  | @working w site found allowed several =>
    obtain ⟨t, hchoose⟩ := choose_of_declined several hm answer w.form site.start
      site.rule.pattern.length
    have hadvance : e.advance w u = some (.error cause, t) := by
      simp only [advance, Grammar.site?_eq_some_iff.2 found, allowed]
      exact Action.bind_eq_some.2 (.inr ⟨cause, hchoose, rfl⟩)
    have hpass : e.pass w u = some (.error cause, t) :=
      Action.bind_eq_some.2 (.inr ⟨cause, hadvance, rfl⟩)
    rw [step_of_pass hpass]
    rfl

end Unlimited

/-- **A derivation halts exactly where it should.** It succeeds if and only if some replacement
after the first one leaves no nonterminal, and its sentence is the first form of this kind. It is
stuck if and only if it comes to a form in which no production occurs anywhere, and a nonterminal
is left or only the start symbol has been replaced; that form is shown then, below a line of
dashes. Besides, the chooser could claim to be stuck by itself. -/
theorem halting_exact (e : Engine σ) (s : Session σ) (hs : s.output.Unlimited) :
    ((∃ d, e.Ends s (.ok d)) ↔
        ∃ k w t, 1 ≤ k ∧ e.Arrives s k w t ∧ w.form.any Symbol.isNonterminal = false) ∧
      (∀ d, e.Ends s (.ok d) →
        ∃ k w t, 1 ≤ k ∧ e.Arrives s k w t ∧ w.form.any Symbol.isNonterminal = false ∧
          d = ⟨w.form, w.steps.toList⟩ ∧
          ∀ j v u, 1 ≤ j → j < k → e.Arrives s j v u →
            v.form.any Symbol.isNonterminal = true) ∧
      (∀ text, e.Ends s (.error (.stuckDerivation text)) ↔
        (∃ k w t, e.StuckAt s k w t ∧ text = Form.text w.form) ∨
          e.Declines s (.stuckDerivation text)) ∧
      ∀ k w t, e.StuckAt s k w t →
        ∃ t', e.Finishes s (.error (.stuckDerivation (Form.text w.form))) t' ∧
          t'.output.written = t.output.written ++ (Trace.form w.form).toUTF8 ∧
          ∃ before, t.output.written = before ++ "\n".toUTF8 := by
  refine ⟨⟨?_, ?_⟩, ?_, ?_, ?_⟩
  · rintro ⟨d, hd⟩
    obtain ⟨t, ht⟩ := ends_iff.1 hd
    obtain ⟨k, w, u, hk, harrives, hany, -⟩ := ht.arrives
    exact ⟨k, w, u, hk, harrives, hany⟩
  · rintro ⟨k, w, t, hk, harrives, hany⟩
    obtain ⟨t', ht'⟩ := finishes_of_terminal hs hk harrives hany
    exact ⟨_, ht'.ends⟩
  · intro d hd
    obtain ⟨t, ht⟩ := ends_iff.1 hd
    obtain ⟨k, w, u, hk, harrives, hany, rfl⟩ := ht.arrives
    refine ⟨k, w, u, hk, harrives, hany, rfl, ?_⟩
    intro j v u' hj hjk hv
    -- had an earlier replacement left no nonterminal, the run would have ended there
    by_contra hleft
    obtain ⟨t', ht'⟩ := finishes_of_terminal hs hj hv (by simpa using hleft)
    obtain ⟨heq, -⟩ := ht.unique ht'
    have hsize : w.steps.size = v.steps.size := by
      have hsteps := congrArg (fun result : Except GenerateError Derivation =>
        result.toOption.map fun d => d.steps.length) heq
      simpa [Except.toOption] using hsteps
    rw [harrives.size_eq, hv.size_eq] at hsize
    omega
  · intro text
    constructor
    · intro h
      obtain ⟨t, ht⟩ := ends_iff.1 h
      have hfails := fails_of_finishes ht
      generalize t.chooser = after at hfails
      cases hfails with
      | stuck hstuck => exact .inl ⟨_, _, _, hstuck, rfl⟩
      | declined answers => exact .inr ⟨_, _, answers⟩
    · rintro (⟨k, w, t, hstuck, rfl⟩ | hdeclines)
      · obtain ⟨t', ht', -⟩ := finishes_of_stuckAt hs hstuck
        exact ht'.ends
      · exact ends_of_declines hs hdeclines
  · intro k w t hstuck
    obtain ⟨t', ht', hwritten⟩ := finishes_of_stuckAt hs hstuck
    exact ⟨t', ht', hwritten, hstuck.arrives.written⟩

/-- A grammar whose only production occurs once. After that its form is `Ba`, and the search has to
go back before the derivation is stuck. -/
def cornered : Engine (List Nat) where
  grammar := ⟨[⟨[.start], [[.nonterminal 'B', .nonterminal 'A']]⟩,
    ⟨[.nonterminal 'A'], [[.terminal 'a']]⟩]⟩
  chooser := .script
  maxSteps := none

theorem halting_exact_cornered :
    (∃ k w t, 1 ≤ k ∧ wanderer.Arrives ⟨[1, 1, 0], .empty none⟩ k w t ∧
        w.form.any Symbol.isNonterminal = false) ∧
      (∃ w t, cornered.StuckAt ⟨[], .empty none⟩ 1 w t ∧ w.cursor = 1) ∧
      cornered.Ends ⟨[], .empty none⟩ (.error (.stuckDerivation "Ba")) := by
  have hended : wanderer.Ends ⟨[1, 1, 0], .empty none⟩ (.ok wandered) := ⟨5, rfl⟩
  have hstuck : cornered.StuckAt ⟨[], .empty none⟩ 1
      ⟨[.nonterminal 'B', .terminal 'a'], 1,
        #[⟨0, 0, 1, [.nonterminal 'B', .nonterminal 'A']⟩, ⟨1, 1, 1, [.terminal 'a']⟩]⟩
      (cornered.run 2 (start ⟨[], .empty none⟩)).session :=
    ⟨.later (n := 1) rfl rfl rfl rfl, Grammar.site?_eq_none_iff.1 rfl, .inr rfl⟩
  refine ⟨(halting_exact _ _ Stream.unlimited_empty).1.1 ⟨_, hended⟩, ⟨_, _, hstuck, rfl⟩, ?_⟩
  exact ((halting_exact _ _ Stream.unlimited_empty).2.2.1 "Ba").2 (.inl ⟨1, _, _, hstuck, rfl⟩)

end PhraseGrammar.Engine
