import PhraseGrammar.Proofs.Output

/-!
# The replacements of a run

A run is a row of replacements. Between two of them the cursor may go back to the start of the
form, which changes nothing else.

* `Engine.Arrives`: a replacement of the run has just been made, and this is the work and the
  session that it has led to. `arrives_of_run` and `run_of_arrives` tie the replacements to the
  passes of the run;
* `Engine.Finishes`: the run ends with a result, and this is the session it leaves behind.
-/

namespace PhraseGrammar

/-- `w` is the work `v`, but for the cursor, which may have gone back to the start of the form. -/
structure Work.Resumes (w v : Work) : Prop where
  form_eq : w.form = v.form
  steps_eq : w.steps = v.steps
  cursor_eq : w.cursor = v.cursor ∨ w.cursor = 0

theorem Work.Resumes.refl (w : Work) : w.Resumes w := ⟨rfl, rfl, .inl rfl⟩

namespace Engine

variable {σ : Type} {e : Engine σ} {s : Session σ}

/-! ### What a single pass does to a session -/

theorem opening_eq_ok {phase : Phase} {t : Session σ} (h : e.opening s = some (.ok phase, t)) :
    ∃ rule replacement, e.grammar.startRule? = some rule ∧
      choose e.chooser [.start] 0 1 rule.alternatives s = some (.ok replacement, t) ∧
      phase = .working (.first replacement) := by
  unfold opening at h
  cases hrule : e.grammar.startRule? with
  | none => simp only [hrule] at h; cases h
  | some rule =>
    simp only [hrule] at h
    rcases Action.bind_eq_some.1 h with ⟨replacement, u, hchoose, h⟩ | ⟨cause, -, ⟨⟩⟩
    cases h
    exact ⟨rule, replacement, rfl, hchoose, rfl⟩

/-- A pass that does not fail replaces a span, or it moves the cursor and nothing else. -/
theorem advance_eq_ok {w w' : Work} {s t : Session σ} (h : e.advance w s = some (.ok w', t)) :
    (∃ site replacement, e.grammar.IsSite w.form w.cursor site ∧
        choose e.chooser w.form site.start site.rule.pattern.length site.rule.alternatives s =
          some (.ok replacement, t) ∧ w' = w.replace site replacement) ∨
      (¬ e.grammar.OccursFrom w.form w.cursor ∧ w.cursor ≠ 0 ∧ w' = { w with cursor := 0 } ∧
        t = s) := by
  unfold advance at h
  cases hsite : e.grammar.site? w.form w.cursor with
  | some site =>
    simp only [hsite] at h
    split at h
    · cases h
    · rcases Action.bind_eq_some.1 h with ⟨replacement, u, hchoose, h⟩ | ⟨cause, -, ⟨⟩⟩
      cases h
      exact .inl ⟨site, replacement, Grammar.site?_eq_some_iff.1 hsite, hchoose, rfl⟩
  | none =>
    simp only [hsite] at h
    split at h
    · rcases Action.bind_eq_some.1 h with ⟨_, u, -, ⟨⟩⟩ | ⟨cause, -, ⟨⟩⟩
    · cases h
      exact .inr ⟨Grammar.site?_eq_none_iff.1 hsite, ‹_›, rfl, rfl⟩

/-- A pass that adds a step has found a place for it. -/
theorem exists_isSite_of_advance {w w' : Work} {s t : Session σ}
    (h : e.advance w s = some (.ok w', t)) (hsize : w.steps.size < w'.steps.size) :
    ∃ site, e.grammar.IsSite w.form w.cursor site := by
  rcases advance_eq_ok h with ⟨site, -, found, -, -⟩ | ⟨-, -, rfl, -⟩
  · exact ⟨site, found⟩
  · exact absurd hsize (Nat.lt_irrefl _)

theorem advance_of_reset {w : Work} (nowhere : ¬ e.grammar.OccursFrom w.form w.cursor)
    (moved : w.cursor ≠ 0) (s : Session σ) :
    e.advance w s = some (.ok { w with cursor := 0 }, s) := by
  simp only [advance, Grammar.site?_eq_none_iff.2 nowhere, if_neg moved]
  rfl

/-- The derivation goes on after a pass if a nonterminal is left. -/
theorem pass_eq_working {w w' : Work} {t : Session σ} :
    e.pass w s = some (.ok (.working w'), t) ↔
      e.advance w s = some (.ok w', t) ∧ w'.form.any Symbol.isNonterminal = true := by
  constructor
  · intro h
    rcases Action.bind_eq_some.1 h with ⟨v, u, hadvance, hconclude⟩ | ⟨cause, -, ⟨⟩⟩
    unfold conclude at hconclude
    by_cases hany : v.form.any Symbol.isNonterminal = true
    · rw [if_pos hany] at hconclude
      cases hconclude
      exact ⟨hadvance, hany⟩
    · rw [if_neg hany] at hconclude
      rcases Action.bind_eq_some.1 hconclude with ⟨_, _, -, ⟨⟩⟩ | ⟨cause, -, ⟨⟩⟩
  · rintro ⟨hadvance, hany⟩
    refine Action.bind_eq_some.2 (.inl ⟨w', t, hadvance, ?_⟩)
    rw [conclude, if_pos hany]
    rfl

theorem step_of_pass {w : Work} {outcome : Except GenerateError Phase × Session σ}
    (h : e.pass w s = some outcome) : e.step ⟨.working w, s⟩ = settle outcome := by
  simp [step, step?, next?, h]

/-- The pass that has led to work. -/
theorem step_eq_working {r : Run σ} {w : Work} {t : Session σ} (h : e.step r = ⟨.working w, t⟩) :
    r = ⟨.working w, t⟩ ∨ (r.phase = .opening ∧ e.opening r.session = some (.ok (.working w), t)) ∨
      ∃ v u, r = ⟨.working v, u⟩ ∧ e.advance v u = some (.ok w, t) ∧
        w.form.any Symbol.isNonterminal = true := by
  rcases step_cases e r with hstay | ⟨act, hnext, ⟨result, u⟩, houtcome, hstep⟩
  · rw [hstay] at h
    exact .inl h
  rw [hstep] at h
  cases result with
  | error cause => cases h
  | ok phase =>
    cases h
    rcases next?_eq_some hnext with ⟨hphase, rfl⟩ | ⟨v, hphase, rfl⟩
    · exact .inr (.inl ⟨hphase, houtcome⟩)
    · obtain ⟨hadvance, hany⟩ := pass_eq_working.1 houtcome
      cases r
      cases hphase
      exact .inr (.inr ⟨v, _, rfl, hadvance, hany⟩)

/-- No pass leads back to the start symbol. -/
theorem step_eq_of_opening {r : Run σ} (h : (e.step r).phase = .opening) : e.step r = r := by
  rcases step_cases e r with hstay | ⟨act, hnext, ⟨result, t⟩, houtcome, hstep⟩
  · exact hstay
  rw [hstep] at h
  cases result with
  | error cause => cases h
  | ok phase =>
    obtain rfl : phase = .opening := h
    rcases next?_eq_some hnext with ⟨-, rfl⟩ | ⟨w, -, rfl⟩
    · obtain ⟨_, _, -, -, ⟨⟩⟩ := opening_eq_ok houtcome
    · obtain ⟨_, _, -, ⟨-, ⟨⟩⟩ | ⟨-, ⟨⟩⟩⟩ := pass_eq_ok houtcome

/-- As long as the start symbol has not been replaced, nothing has been done. -/
theorem run_eq_of_opening {r : Run σ} {n : Nat} (h : (e.run n r).phase = .opening) :
    e.run n r = r := by
  induction n with
  | zero => rfl
  | succ n ih =>
    rw [run_succ] at h ⊢
    have hstay := step_eq_of_opening h
    rw [hstay] at h ⊢
    exact ih h

/-! ### Arrivals -/

/-- In the run that begins in session `s`, the replacement number `k` has just been made, and it
has led to the work `w` and the session `t`. The replacement of the start symbol has the number
0. -/
inductive Arrives (e : Engine σ) (s : Session σ) : Nat → Work → Session σ → Prop
  | first {w : Work} {t : Session σ} (opening : e.opening s = some (.ok (.working w), t)) :
      Arrives e s 0 w t
  | later {n k : Nat} {v w : Work} {u t : Session σ} (run : e.run n (start s) = ⟨.working v, u⟩)
      (advance : e.advance v u = some (.ok w, t)) (before : v.steps.size = k + 1)
      (after : w.steps.size = k + 2) : Arrives e s (k + 1) w t

theorem Arrives.size_eq {k : Nat} {w : Work} {t : Session σ} (h : e.Arrives s k w t) :
    w.steps.size = k + 1 := by
  cases h with
  | first opening =>
    obtain ⟨rule, replacement, -, -, heq⟩ := opening_eq_ok opening
    cases heq
    rfl
  | later run advance before after => exact after

/-- After the first replacement the search begins at the start of the form. -/
theorem Arrives.cursor_eq {w : Work} {t : Session σ} (h : e.Arrives s 0 w t) : w.cursor = 0 := by
  cases h with
  | first opening =>
    obtain ⟨rule, replacement, -, -, heq⟩ := opening_eq_ok opening
    cases heq
    rfl

theorem Arrives.reaches {k : Nat} {w : Work} {t : Session σ} (h : e.Arrives s k w t) :
    e.Reaches w := by
  cases h with
  | first opening =>
    cases begins_of_opening opening with
    | first start picks => exact .first start picks.mem
  | @later n k v w u t run advance before after =>
    have hv : e.Reaches v := reaches_of_run (s := s) (n := n) (by rw [run])
    exact .advance hv (advances_of_advance advance)

theorem Arrives.keeps {P : Stream → Prop} (hP : ∀ s text, P s → P (s.write text).2) {k : Nat}
    {w : Work} {t : Session σ} (h : e.Arrives s k w t) (hs : P s.output) : P t.output := by
  cases h with
  | first opening => exact closed_opening (Action.closed_keeps hP) e _ _ _ opening hs
  | @later n k v w u t run advance before after =>
    have hu := run_keeps hP e (r := start s) hs n
    rw [run] at hu
    exact closed_advance (Action.closed_keeps hP) e v _ _ _ advance hu

theorem Arrives.extends {k : Nat} {w : Work} {t : Session σ} (h : e.Arrives s k w t) :
    s.output.Extends t.output :=
  h.keeps (fun s text h => h.trans (s.extends_write text)) (.refl _)

/-- After a replacement the output stands at the beginning of a line. -/
theorem Arrives.written {k : Nat} {w : Work} {t : Session σ} (h : e.Arrives s k w t) :
    ∃ before, t.output.written = before ++ "\n".toUTF8 := by
  cases h with
  | first opening =>
    obtain ⟨rule, replacement, -, hchoose, -⟩ := opening_eq_ok opening
    exact written_of_choose hchoose
  | later run advance before after =>
    rcases advance_eq_ok advance with ⟨site, replacement, -, hchoose, -⟩ | ⟨-, -, rfl, -⟩
    · exact written_of_choose hchoose
    · -- moving the cursor adds no step
      simp only at after
      omega

/-- Work of a run is that of an arrival, but for the cursor. Unless the arrival is the first one, a
nonterminal is left. -/
theorem arrives_of_run {n : Nat} {w : Work} {t : Session σ}
    (h : e.run n (start s) = ⟨.working w, t⟩) :
    ∃ k v, e.Arrives s k v t ∧ w.Resumes v ∧
      (k = 0 ∨ w.form.any Symbol.isNonterminal = true) := by
  induction n generalizing w t with
  | zero => cases h
  | succ n ih =>
    rw [run_succ] at h
    rcases step_eq_working h with hstay | ⟨hphase, hopening⟩ | ⟨v, u, hrun, hadvance, hany⟩
    · exact ih hstay
    · rw [run_eq_of_opening hphase] at hopening
      exact ⟨0, w, .first hopening, .refl w, .inl rfl⟩
    · obtain ⟨k, v', harrives, hv, -⟩ := ih hrun
      have hsize : v.steps.size = k + 1 := by rw [hv.steps_eq, harrives.size_eq]
      rcases advance_eq_ok hadvance with ⟨site, replacement, -, -, rfl⟩ | ⟨-, -, rfl, rfl⟩
      · refine ⟨k + 1, _, .later hrun hadvance hsize ?_, .refl _, .inr hany⟩
        simp [Work.replace, hsize]
      · exact ⟨k, v', harrives, ⟨hv.form_eq, hv.steps_eq, .inr rfl⟩, .inr hany⟩

/-- What has been arrived at is met by the run, unless the derivation ends there. -/
theorem run_of_arrives {k : Nat} {w : Work} {t : Session σ} (h : e.Arrives s k w t)
    (hany : k = 0 ∨ w.form.any Symbol.isNonterminal = true) :
    ∃ n, e.run n (start s) = ⟨.working w, t⟩ := by
  cases h with
  | first opening =>
    refine ⟨1, ?_⟩
    rw [run_succ, run_zero]
    simp [step, step?, next?, start, opening, settle]
  | @later n k v w u t run advance before after =>
    have hpass : e.pass v u = some (.ok (.working w), t) :=
      pass_eq_working.2 ⟨advance, hany.resolve_left (Nat.succ_ne_zero k)⟩
    refine ⟨n + 1, ?_⟩
    rw [run_succ, run, step_of_pass hpass]
    rfl

/-- After a replacement the search is made from the cursor on, if something occurs from there on, and
else from the start of the form. -/
theorem Arrives.exists_search {k : Nat} {w : Work} {t : Session σ} (h : e.Arrives s k w t)
    (hany : k = 0 ∨ w.form.any Symbol.isNonterminal = true) :
    ∃ n cursor, e.run n (start s) = ⟨.working { w with cursor }, t⟩ ∧
      ((cursor = w.cursor ∧ e.grammar.OccursFrom w.form w.cursor) ∨
        (cursor = 0 ∧ ¬ e.grammar.OccursFrom w.form w.cursor)) := by
  obtain ⟨n, hrun⟩ := run_of_arrives h hany
  by_cases hoccurs : e.grammar.OccursFrom w.form w.cursor
  · exact ⟨n, w.cursor, hrun, .inl ⟨rfl, hoccurs⟩⟩
  by_cases home : w.cursor = 0
  · exact ⟨n, w.cursor, hrun, .inr ⟨home, hoccurs⟩⟩
  -- the cursor has left the start of the form, so this is not the first replacement
  have hleft : w.form.any Symbol.isNonterminal = true := by
    rcases hany with rfl | hleft
    · exact absurd h.cursor_eq home
    · exact hleft
  have hpass : e.pass w t = some (.ok (.working { w with cursor := 0 }), t) :=
    pass_eq_working.2 ⟨advance_of_reset hoccurs home t, hleft⟩
  refine ⟨n + 1, 0, ?_, .inr ⟨rfl, hoccurs⟩⟩
  rw [run_succ, hrun, step_of_pass hpass]
  rfl

/-- The number of steps only grows. -/
theorem size_le_of_run {m n : Nat} (hmn : m ≤ n) {v w : Work} {u t : Session σ}
    (hm : e.run m (start s) = ⟨.working v, u⟩) (hn : e.run n (start s) = ⟨.working w, t⟩) :
    v.steps.size ≤ w.steps.size := by
  obtain ⟨d, rfl⟩ := Nat.exists_eq_add_of_le hmn
  induction d generalizing w t with
  | zero =>
    rw [Nat.add_zero, hm] at hn
    cases hn
    exact Nat.le_refl _
  | succ d ih =>
    rw [← Nat.add_assoc, run_succ] at hn
    rcases step_eq_working hn with hstay | ⟨hphase, -⟩ | ⟨w', u', hrun, hadvance, -⟩
    · exact ih (Nat.le_add_right m d) hstay
    · rw [run_add] at hphase
      rw [run_eq_of_opening hphase, hm] at hphase
      cases hphase
    · have hle := ih (Nat.le_add_right m d) hrun
      rcases advance_eq_ok hadvance with ⟨site, replacement, -, -, rfl⟩ | ⟨-, -, rfl, -⟩
      · rw [Work.replace, Array.size_push]
        omega
      · exact hle

/-- A search that finds a place is followed by a replacement, unless the run ends or waits for ever.
So no later search of the run has the same number of steps behind it. -/
theorem run_eq_of_found {m n : Nat} (hmn : m ≤ n) {v w : Work} {u t : Session σ} {site : Site}
    (hm : e.run m (start s) = ⟨.working v, u⟩) (found : e.grammar.IsSite v.form v.cursor site)
    (hn : e.run n (start s) = ⟨.working w, t⟩) (hsize : w.steps.size ≤ v.steps.size) :
    w = v ∧ t = u := by
  obtain ⟨d, rfl⟩ := Nat.exists_eq_add_of_le hmn
  induction d generalizing w t with
  | zero =>
    rw [Nat.add_zero, hm] at hn
    cases hn
    exact ⟨rfl, rfl⟩
  | succ d ih =>
    rw [← Nat.add_assoc, run_succ] at hn
    rcases step_eq_working hn with hstay | ⟨hphase, -⟩ | ⟨w', u', hrun, hadvance, -⟩
    · exact ih hsize (Nat.le_add_right m d) hstay
    · rw [run_add] at hphase
      rw [run_eq_of_opening hphase, hm] at hphase
      cases hphase
    · have hle := size_le_of_run (Nat.le_add_right m d) hm hrun
      rcases advance_eq_ok hadvance with ⟨site', replacement, -, -, rfl⟩ | ⟨nowhere, -, rfl, -⟩
      · rw [Work.replace, Array.size_push] at hsize
        omega
      · obtain ⟨rfl, -⟩ := ih (w := w') hsize (Nat.le_add_right m d) hrun
        exact absurd found.occursFrom nowhere

/-- A replacement of a run is made once. -/
theorem Arrives.unique {k : Nat} {v w : Work} {t u : Session σ} (hv : e.Arrives s k v t)
    (hw : e.Arrives s k w u) : v = w ∧ t = u := by
  cases hv with
  | first opening =>
    cases hw with
    | first opening' =>
      rw [opening] at opening'
      cases opening'
      exact ⟨rfl, rfl⟩
  | @later n k v' v u' t run advance before after =>
    cases hw with
    | @later n' k w' w t' u run' advance' before' after' =>
      have hsame : v' = w' ∧ u' = t' := by
        rcases Nat.le_total n n' with hle | hle
        · obtain ⟨site, found⟩ := exists_isSite_of_advance advance (by omega)
          obtain ⟨rfl, rfl⟩ := run_eq_of_found hle run found run' (by omega)
          exact ⟨rfl, rfl⟩
        · obtain ⟨site, found⟩ := exists_isSite_of_advance advance' (by omega)
          exact run_eq_of_found hle run' found run (by omega)
      obtain ⟨rfl, rfl⟩ := hsame
      rw [advance] at advance'
      cases advance'
      exact ⟨rfl, rfl⟩

/-! ### The end -/

/-- The run that begins in session `s` ends with `result` and leaves the session `t` behind. -/
def Finishes (e : Engine σ) (s : Session σ) (result : Except GenerateError Derivation)
    (t : Session σ) : Prop :=
  ∃ n, e.run n (start s) = ⟨.ended result, t⟩

theorem ends_iff {result : Except GenerateError Derivation} :
    e.Ends s result ↔ ∃ t, e.Finishes s result t := by
  constructor
  · rintro ⟨n, hn⟩
    refine ⟨(e.run n (start s)).session, n, ?_⟩
    rw [← hn]
  · rintro ⟨t, n, hn⟩
    exact ⟨n, by rw [hn]⟩

theorem Finishes.ends {result : Except GenerateError Derivation} {t : Session σ}
    (h : e.Finishes s result t) : e.Ends s result :=
  ends_iff.2 ⟨t, h⟩

/-- A run ends once only. -/
theorem Finishes.unique {a b : Except GenerateError Derivation} {t u : Session σ}
    (ha : e.Finishes s a t) (hb : e.Finishes s b u) : a = b ∧ t = u := by
  obtain ⟨m, hm⟩ := ha
  obtain ⟨n, hn⟩ := hb
  have heq : e.run m (start s) = e.run n (start s) :=
    run_eq_of_ended (by rw [hm]) (by rw [hn])
  rw [hm, hn] at heq
  cases heq
  exact ⟨rfl, rfl⟩

/-- The action that has brought the end. -/
theorem Finishes.exists_outcome {result : Except GenerateError Derivation} {t : Session σ}
    (h : e.Finishes s result t) :
    ∃ m act outcome, e.next? (e.run m (start s)).phase = some act ∧
      act (e.run m (start s)).session = some outcome ∧ settle outcome = ⟨.ended result, t⟩ := by
  obtain ⟨n, hn⟩ := h
  obtain ⟨m, act, outcome, -, hnext, houtcome, hrun, hended⟩ :=
    exists_last_pass (r := start s) (by rintro ⟨⟩) (n := n) (by rw [hn])
  refine ⟨m, act, outcome, hnext, houtcome, ?_⟩
  rw [← hrun] at hended ⊢
  rw [← hn]
  exact run_eq_of_ended hended (by rw [hn])

/-- A run fails in its first step, or in a later pass. -/
theorem Finishes.exists_failure {cause : GenerateError} {t : Session σ}
    (h : e.Finishes s (.error cause) t) :
    e.opening s = some (.error cause, t) ∨
      ∃ n w u, e.run n (start s) = ⟨.working w, u⟩ ∧ e.pass w u = some (.error cause, t) := by
  obtain ⟨m, act, ⟨result, u⟩, hnext, houtcome, hsettle⟩ := h.exists_outcome
  cases result with
  | ok phase =>
    cases hsettle
    exact absurd rfl (ne_error_of_next? hnext houtcome)
  | error other =>
    cases hsettle
    rcases next?_eq_some hnext with ⟨hphase, rfl⟩ | ⟨w, hphase, rfl⟩
    · rw [run_eq_of_opening hphase] at houtcome
      exact .inl houtcome
    · exact .inr ⟨m, w, _, by rw [← hphase], houtcome⟩

/-- The last pass of a derivation comes to a form without nonterminals, by a replacement other than
the first one, and writes it. -/
theorem Finishes.exists_conclude {d : Derivation} {t : Session σ} (h : e.Finishes s (.ok d) t) :
    ∃ k w u, 1 ≤ k ∧ e.Arrives s k w u ∧
      (conclude w : Action σ Phase) u = some (.ok (.ended (.ok d)), t) := by
  obtain ⟨m, act, ⟨result, u⟩, hnext, houtcome, hsettle⟩ := h.exists_outcome
  cases result with
  | error cause => cases hsettle
  | ok phase =>
    cases hsettle
    rcases next?_eq_some hnext with ⟨-, rfl⟩ | ⟨v, hphase, rfl⟩
    · obtain ⟨_, _, -, -, ⟨⟩⟩ := opening_eq_ok houtcome
    rcases Action.bind_eq_some.1 houtcome with ⟨w, u, hadvance, hconclude⟩ | ⟨cause, -, ⟨⟩⟩
    have hrun := Run.eq_mk hphase
    obtain ⟨k, v', harrives, hv, hunfinished⟩ := arrives_of_run hrun
    rcases advance_eq_ok hadvance with ⟨site, replacement, -, -, rfl⟩ | ⟨-, moved, rfl, -⟩
    · have hsize : v.steps.size = k + 1 := by rw [hv.steps_eq, harrives.size_eq]
      refine ⟨k + 1, _, u, Nat.le_add_left 1 k, .later hrun hadvance hsize ?_, hconclude⟩
      simp [Work.replace, hsize]
    · -- the cursor moves only after a replacement that has left a nonterminal
      exfalso
      rcases hunfinished with rfl | hleft
      · rcases hv.cursor_eq with hcursor | hcursor
        · exact moved (hcursor.trans harrives.cursor_eq)
        · exact moved hcursor
      · rcases conclude_eq_some hconclude with ⟨-, ⟨⟩⟩ | ⟨hany, -⟩
        rw [show v.form.any Symbol.isNonterminal = false from hany] at hleft
        cases hleft

/-- The sentence of a run has been arrived at by a replacement other than the first one. -/
theorem Finishes.arrives {d : Derivation} {t : Session σ} (h : e.Finishes s (.ok d) t) :
    ∃ k w u, 1 ≤ k ∧ e.Arrives s k w u ∧ w.form.any Symbol.isNonterminal = false ∧
      d = ⟨w.form, w.steps.toList⟩ := by
  obtain ⟨k, w, u, hk, harrives, hconclude⟩ := h.exists_conclude
  rcases conclude_eq_some hconclude with ⟨-, ⟨⟩⟩ | ⟨hany, heq | ⟨fault, ⟨⟩⟩⟩
  cases heq
  exact ⟨k, w, u, hk, harrives, hany, rfl⟩

end Engine

end PhraseGrammar
