import PhraseGrammar.Proofs.Pass

/-!
# What a run can meet

A run is taken apart into its passes. What every pass keeps holds throughout the run.

* `Engine.Reaches`: the work that can be met, by induction over the passes. Every run keeps to it
  (`reaches_of_run`);
* `Engine.Performs`: a pass of a run makes a step;
* `Engine.Ends`: a run ends with a result. The work behind it has been reached (`reaches_of_ends`,
  `advances_of_ends`).
-/

namespace PhraseGrammar

variable {σ : Type}

theorem Run.eq_mk {r : Run σ} {phase : Phase} (h : r.phase = phase) : r = ⟨phase, r.session⟩ := by
  rw [← h]

namespace Engine

variable {e : Engine σ}

/-! ### Single passes -/

theorem next?_eq_some {phase : Phase} {act : Action σ Phase} (h : e.next? phase = some act) :
    (phase = .opening ∧ act = e.opening) ∨ ∃ w, phase = .working w ∧ act = e.pass w := by
  cases phase with
  | opening => cases h; exact .inl ⟨rfl, rfl⟩
  | working w => cases h; exact .inr ⟨w, rfl, rfl⟩
  | ended result => cases h

/-- An action that succeeds does not end the derivation with a failure. -/
theorem ne_error_of_next? {phase phase' : Phase} {act : Action σ Phase} {s t : Session σ}
    {cause : GenerateError} (hnext : e.next? phase = some act)
    (h : act s = some (.ok phase', t)) : phase' ≠ .ended (.error cause) := by
  rintro rfl
  rcases next?_eq_some hnext with ⟨-, rfl⟩ | ⟨w, -, rfl⟩
  · cases begins_of_opening h
  · obtain ⟨_, _, -, ⟨-, ⟨⟩⟩ | ⟨-, ⟨⟩⟩⟩ := pass_eq_ok h

/-- The run stays where it is, or goes where the next pass leads. -/
theorem step_cases (e : Engine σ) (r : Run σ) :
    e.step r = r ∨ ∃ act, e.next? r.phase = some act ∧ ∃ outcome, act r.session = some outcome ∧
      e.step r = settle outcome := by
  unfold step step?
  cases hnext : e.next? r.phase with
  | none => exact .inl rfl
  | some act =>
    cases houtcome : act r.session with
    | none => exact .inl (by simp [houtcome])
    | some outcome => exact .inr ⟨act, rfl, outcome, houtcome, by simp [houtcome]⟩

/-! ### Work that is met -/

/-- Work that the first step and any passes after it can lead to, whatever is chosen. -/
inductive Reaches (e : Engine σ) : Work → Prop
  | first {rule : Rule} {chosen : Form} (start : e.grammar.startRule? = some rule)
      (mem : chosen ∈ rule.alternatives) : Reaches e (.first (Form.withoutEpsilon chosen))
  | advance {w w' : Work} {before after : σ} (reaches : Reaches e w)
      (pass : e.Advances w before (.ok w') after) : Reaches e w'

theorem reaches_of_step {r : Run σ} (h : ∀ w, r.phase = .working w → e.Reaches w) (w : Work)
    (hw : (e.step r).phase = .working w) : e.Reaches w := by
  rcases step_cases e r with hstay | ⟨act, hnext, ⟨result, t⟩, houtcome, hstep⟩
  · rw [hstay] at hw
    exact h w hw
  rw [hstep] at hw
  cases result with
  | error cause => cases hw
  | ok phase =>
    obtain rfl : phase = .working w := hw
    rcases next?_eq_some hnext with ⟨-, rfl⟩ | ⟨v, hphase, rfl⟩
    · cases begins_of_opening houtcome with
      | first start picks => exact .first start picks.mem
    · obtain ⟨v', u, hadvance, ⟨-, heq⟩ | ⟨-, ⟨⟩⟩⟩ := pass_eq_ok houtcome
      cases heq
      exact .advance (h v hphase) (advances_of_advance hadvance)

/-- All work of a run has been reached. -/
theorem reaches_of_run {s : Session σ} {n : Nat} {w : Work}
    (h : (e.run n (start s)).phase = .working w) : e.Reaches w := by
  induction n generalizing w with
  | zero => cases h
  | succ n ih =>
    rw [run_succ] at h
    refine reaches_of_step ?_ w h
    intro v hv
    exact ih hv

/-- In the run that begins in session `s`, a pass makes `step` in the work `w` and so comes to the
work `w'`. -/
def Performs (e : Engine σ) (s : Session σ) (w : Work) (step : Step) (w' : Work) : Prop :=
  ∃ n before after, e.run n (start s) = ⟨.working w, before⟩ ∧
    e.advance w before = some (.ok w', after) ∧ w'.steps = w.steps.push step

/-! ### Results -/

/-- The run that begins in session `s` ends with `result`. -/
def Ends (e : Engine σ) (s : Session σ) (result : Except GenerateError Derivation) : Prop :=
  ∃ n, (e.run n (start s)).phase = .ended result

/-- A run that ends has a last pass. -/
theorem exists_last_pass {r : Run σ} {n : Nat} {result : Except GenerateError Derivation}
    (hr : r.phase ≠ .ended result) (h : (e.run n r).phase = .ended result) :
    ∃ m act outcome, (e.run m r).phase ≠ .ended result ∧ e.next? (e.run m r).phase = some act ∧
      act (e.run m r).session = some outcome ∧ e.run (m + 1) r = settle outcome ∧
      (settle outcome).phase = .ended result := by
  induction n with
  | zero => exact absurd h hr
  | succ n ih =>
    -- the result was there before the pass, or the pass has brought it
    by_cases hn : (e.run n r).phase = .ended result
    · exact ih hn
    rw [run_succ] at h
    rcases step_cases e (e.run n r) with hstay | ⟨act, hnext, outcome, houtcome, hstep⟩
    · rw [hstay] at h
      exact absurd h hn
    · exact ⟨n, act, outcome, hn, hnext, houtcome, by rw [run_succ, hstep], by rwa [hstep] at h⟩

/-- A sentence is the form of work that has been reached, and no nonterminal is left in it. -/
theorem reaches_of_ends {s : Session σ} {d : Derivation} (h : e.Ends s (.ok d)) :
    ∃ w, e.Reaches w ∧ w.form.any Symbol.isNonterminal = false ∧ d = ⟨w.form, w.steps.toList⟩ := by
  obtain ⟨n, hn⟩ := h
  obtain ⟨m, act, ⟨result, t⟩, -, hnext, houtcome, -, hended⟩ :=
    exists_last_pass (by rintro ⟨⟩) hn
  cases result with
  | error cause => cases hended
  | ok phase =>
    obtain rfl : phase = .ended (.ok d) := hended
    rcases next?_eq_some hnext with ⟨-, rfl⟩ | ⟨w, hphase, rfl⟩
    · cases begins_of_opening houtcome
    · obtain ⟨w', u, hadvance, ⟨-, ⟨⟩⟩ | ⟨hany, heq⟩⟩ := pass_eq_ok houtcome
      cases heq
      have hreaches := Reaches.advance (reaches_of_run hphase) (advances_of_advance hadvance)
      exact ⟨w', hreaches, hany, rfl⟩

/-- A run that ends without a sentence has failed in its first step, or in a pass from work that
has been reached. -/
theorem advances_of_ends {s : Session σ} {cause : GenerateError} (h : e.Ends s (.error cause)) :
    ∃ m, ((e.run m (start s)).phase = .opening ∧
        e.Begins (e.run m (start s)).session.chooser (.error cause)
          (e.run (m + 1) (start s)).session.chooser) ∨
      ∃ w, e.Reaches w ∧ (e.run m (start s)).phase = .working w ∧
        e.Advances w (e.run m (start s)).session.chooser (.error cause)
          (e.run (m + 1) (start s)).session.chooser := by
  obtain ⟨n, hn⟩ := h
  obtain ⟨m, act, ⟨result, t⟩, -, hnext, houtcome, hrun, hended⟩ :=
    exists_last_pass (by rintro ⟨⟩) hn
  refine ⟨m, ?_⟩
  rw [hrun]
  cases result with
  | error other =>
    cases hended
    rcases next?_eq_some hnext with ⟨hphase, rfl⟩ | ⟨w, hphase, rfl⟩
    · exact .inl ⟨hphase, begins_of_opening houtcome⟩
    · exact .inr ⟨w, reaches_of_run hphase, hphase, pass_eq_error houtcome⟩
  | ok phase => exact absurd hended (ne_error_of_next? hnext houtcome)

end Engine

end PhraseGrammar
