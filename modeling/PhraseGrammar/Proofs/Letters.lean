import Mathlib.Logic.Equiv.Basic
import PhraseGrammar.Proofs.Likeness

/-!
# Letters are insignificant

The engine tells symbols apart and tells nonterminals from other symbols; it does not look at their
letters. So the run of a renamed grammar goes along with the run of the grammar itself, pass by
pass, as long as both get the same answers and can write alike.

* `Likened.next?`: what the two runs do next mirrors each other, unless it is a stuck pass, which can
  only fail;
* `Engine.Retold`, `Engine.Alongside`: how the phases of the two runs belong together at any point,
  and that the two runs are at the same point. Every pass keeps this (`Likened.step`).

Main statement: `letters_insignificant`.
-/

namespace PhraseGrammar

variable {σ τ α : Type}

/-- What two stuck passes fail for: each of them shows its form, or it cannot be shown. -/
inductive Renaming.Exposes (ρ : Renaming) (f : Form) : GenerateError → GenerateError → Prop
  | shown : Exposes ρ f (.stuckDerivation (Form.text (Form.rename ρ f)))
      (.stuckDerivation (Form.text f))
  | unwritten (fault : Fault) : Exposes ρ f (.console fault) (.console fault)

theorem Agree.eq_none_or_exists {R : Session τ → Session σ → Prop}
    {x : Option (Except GenerateError α × Session τ)}
    {y : Option (Except GenerateError α × Session σ)} (h : Agree R x y) :
    (x = none ∧ y = none) ∨
      ∃ result s t, R s t ∧ x = some (result, s) ∧ y = some (result, t) := by
  cases h with
  | waiting => exact .inl ⟨rfl, rfl⟩
  | done h => exact .inr ⟨_, _, _, h, rfl, rfl⟩

namespace Engine

open PhraseGrammar.Action

/-! ### Passes -/

/-- What is done next goes along with what is done next in the grammar itself, unless that pass is
stuck. -/
theorem Likened.next? {ρ : Renaming} {g : Grammar} {R : Session τ → Session σ → Prop}
    {c : Chooser τ} {c' : Chooser σ} (h : Likened ρ g R c c') (hsep : ρ.Separates g)
    (limit : Option Nat) (phase : Phase)
    (hwork : ∀ w, phase = .working w → g.Spells w.form ∧ ¬ w.Stuck g) {y : Action σ Phase}
    (hy : Engine.next? ⟨g, c', limit⟩ phase = some y) :
    ∃ x, Engine.next? ⟨g.rename ρ, c, limit⟩ (phase.rename ρ) = some x ∧
      Mirrors R x (Phase.rename ρ <$> y) := by
  have haccord : Accord ρ.translation ⟨g.rename ρ, c, limit⟩ ⟨g, c', limit⟩ phase _ _ :=
    accord_of_mirrors (fun hline f => h.write (hline.texts ρ f)) fun alternatives hasks => by
      obtain ⟨r, hr, rfl⟩ := hasks.exists_rule
      exact h.pick hr
  refine haccord.next? ⟨Grammar.startRule?_rename, rfl, fun w hw => ?_, fun w hw => ?_⟩ hy
  · exact hsep.site?_rename (hwork w hw).1
  · exact fun hstuck => absurd hstuck (hwork w hw).2

/-- A stuck pass shows the form and fails. -/
theorem pass_of_stuck {e : Engine σ} {w : Work} (h : w.Stuck e.grammar) :
    e.pass w = Action.write (Trace.form w.form) >>= fun _ =>
      fail (.stuckDerivation (Form.text w.form)) := by
  have hnone : e.grammar.site? w.form 0 = none := Grammar.site?_eq_none_iff.2 h.nowhere
  unfold pass advance
  simp only [h.home, hnone, if_true, bind_assoc]
  rfl

/-! ### Runs -/

/-- A cause of failure without any form of the run in it: it shows none at all, or it is what the
chooser has answered. -/
def Formless (e : Engine σ) (t : Session σ) (cause : GenerateError) : Prop :=
  (∀ text, cause ≠ .stuckDerivation text) ∨ e.Declines t cause

/-- How the phase of the renamed run and that of the run of `e` belong together. The session `t` is
where the run of `e` begins. If it is stuck, then the form is shown with the new letters. -/
inductive Retold (ρ : Renaming) (e : Engine σ) (t : Session σ) : Phase → Phase → Prop
  | opening : Retold ρ e t .opening .opening
  | working (w : Work) : Retold ρ e t (.working (w.rename ρ)) (.working w)
  | sentence (d : Derivation) : Retold ρ e t (.ended (.ok (d.rename ρ))) (.ended (.ok d))
  | stuck {k : Nat} {w : Work} {u : Session σ} (h : e.StuckAt t k w u) :
      Retold ρ e t (.ended (.error (.stuckDerivation (Form.text (Form.rename ρ w.form)))))
        (.ended (.error (.stuckDerivation (Form.text w.form))))
  | failed {cause : GenerateError} (h : e.Formless t cause) :
      Retold ρ e t (.ended (.error cause)) (.ended (.error cause))

/-- The renamed run `r` has come to the point where the run `q` of `e` is. -/
structure Alongside (ρ : Renaming) (R : Session τ → Session σ → Prop) (e : Engine σ)
    (t : Session σ) (r : Run τ) (q : Run σ) : Prop where
  phase : Retold ρ e t r.phase q.phase
  session : R r.session q.session

section Runs

variable {e : Engine σ} {t u v : Session σ} {cause : GenerateError}

theorem step_of_next? {r : Run σ} {act : Action σ Phase} (hnext : e.next? r.phase = some act) :
    e.step r = ((act r.session).map settle).getD r := by
  simp [step, step?, hnext]

theorem formless_console (fault : Fault) : e.Formless t (.console fault) := .inl fun _ => by simp

theorem formless_of_picks {n : Nat} {alternatives : List Form} {after : σ}
    (asks : 2 ≤ alternatives.length → e.Asks (e.run n (start t)).phase alternatives)
    (picks : Picks e.chooser alternatives (e.run n (start t)).session.chooser (.error cause)
      after) : e.Formless t cause := by
  generalize hbefore : (e.run n (start t)).session.chooser = before at picks
  cases picks with
  | nothingToChoose h => exact .inl fun _ => by simp
  | outOfRange several answer h => exact .inl fun _ => by simp
  | refused several answer => exact .inr ⟨_, _, n, asks several, hbefore ▸ answer⟩
  | unwritten fault => exact formless_console fault

theorem formless_of_opening (h : e.opening t = some (.error cause, u)) : e.Formless t cause := by
  have hbegins := begins_of_opening h
  generalize u.chooser = after at hbegins
  cases hbegins with
  | noRule hrule => exact .inl fun _ => by simp
  | declined start picks =>
    exact formless_of_picks (n := 0) (fun several => .opening start several) picks
  | unwritten fault after => exact formless_console fault

/-- A pass that is not stuck shows no form when it fails. -/
theorem formless_of_pass {n : Nat} {w : Work} (hrun : e.run n (start t) = ⟨.working w, u⟩)
    (hstuck : ¬ w.Stuck e.grammar) (h : e.pass w u = some (.error cause, v)) :
    e.Formless t cause := by
  have hadvances := pass_eq_error h
  generalize v.chooser = after at hadvances
  cases hadvances with
  | limit found exceeded => exact .inl fun _ => by simp
  | declined found allowed picks =>
    have hbefore : (e.run n (start t)).session.chooser = u.chooser := by rw [hrun]
    rw [← hbefore] at picks
    refine formless_of_picks (fun several => ?_) picks
    rw [hrun]
    exact .working found allowed several
  | stuck nowhere home => exact absurd ⟨home, nowhere⟩ hstuck
  | unwritten fault after => exact formless_console fault

/-- A stuck pass is stuck after some replacement. -/
theorem exists_stuckAt {n : Nat} {w : Work} (hrun : e.run n (start t) = ⟨.working w, u⟩)
    (hstuck : w.Stuck e.grammar) : ∃ k v, e.StuckAt t k v u ∧ v.form = w.form := by
  obtain ⟨k, v, harrives, hv, hunfinished⟩ := arrives_of_run hrun
  have nowhere := hstuck.nowhere
  rw [hv.form_eq] at nowhere hunfinished
  exact ⟨k, v, ⟨harrives, nowhere, hunfinished⟩, hv.form_eq.symm⟩

theorem retold_of_exposes {ρ : Renaming} {n : Nat} {w : Work} {cause cause' : GenerateError}
    (hrun : e.run n (start t) = ⟨.working w, u⟩) (hstuck : w.Stuck e.grammar)
    (h : ρ.Exposes w.form cause cause') :
    Retold ρ e t (.ended (.error cause)) (.ended (.error cause')) := by
  cases h with
  | shown =>
    obtain ⟨k, v, hv, heq⟩ := exists_stuckAt hrun hstuck
    rw [← heq]
    exact .stuck hv
  | unwritten fault => exact .failed (formless_console fault)

variable {ρ : Renaming} {R : Session τ → Session σ → Prop}

/-- One phase is the last one if the other is. -/
theorem Retold.exists_ended_iff {phase phase' : Phase} (h : Retold ρ e t phase phase') :
    (∃ result, phase = .ended result) ↔ ∃ result, phase' = .ended result := by
  cases h <;> simp

theorem retold_rename {phase : Phase} (h : ∀ cause, phase ≠ .ended (.error cause)) :
    Retold ρ e t (phase.rename ρ) phase := by
  cases phase with
  | opening => exact .opening
  | working w => exact .working w
  | ended result =>
    cases result with
    | ok d => exact .sentence d
    | error cause => exact absurd rfl (h cause)

/-- What is done next keeps the runs together if it does the same in both. -/
theorem Alongside.step_of_mirrors {e' : Engine τ} {r : Run τ} {q : Run σ} {x : Action τ Phase}
    {y : Action σ Phase} (h : Alongside ρ R e t r q) (hx : e'.next? r.phase = some x)
    (hy : e.next? q.phase = some y) (hmirrors : Mirrors R x (Phase.rename ρ <$> y))
    (hformless : ∀ cause u, y q.session = some (.error cause, u) → e.Formless t cause) :
    Alongside ρ R e t (e'.step r) (e.step q) := by
  have hagree := hmirrors _ _ h.session
  rw [map_apply] at hagree
  rw [step_of_next? hx, step_of_next? hy]
  generalize x r.session = outcome at hagree ⊢
  rcases hq : y q.session with _ | ⟨cause | phase, u⟩ <;> rw [hq] at hagree
  · cases hagree
    exact h
  · cases hagree with
    | done hr => exact ⟨.failed (hformless cause u hq), hr⟩
  · cases hagree with
    | done hr => exact ⟨retold_rename fun cause => ne_error_of_next? hy hq, hr⟩

end Runs

namespace Likened

variable {ρ : Renaming} {g : Grammar} {R : Session τ → Session σ → Prop} {c : Chooser τ}
  {c' : Chooser σ} (h : Likened ρ g R c c') (hsep : ρ.Separates g) (limit : Option Nat)
  {t : Session σ}
include h hsep

/-- A stuck pass is stuck with the new letters too. -/
theorem step_of_stuck {s : Session τ} {u : Session σ} {w : Work} (hr : R s u)
    (hstuck : w.Stuck g) (hform : g.Spells w.form) :
    ∃ cause cause' s' u', ρ.Exposes w.form cause cause' ∧ R s' u' ∧
      step ⟨g.rename ρ, c, limit⟩ ⟨.working (w.rename ρ), s⟩ = ⟨.ended (.error cause), s'⟩ ∧
      step ⟨g, c', limit⟩ ⟨.working w, u⟩ = ⟨.ended (.error cause'), u'⟩ := by
  have hstuck' : (w.rename ρ).Stuck (g.rename ρ) :=
    ⟨hstuck.home, fun hoccurs => hstuck.nowhere ((hsep.occursFrom_rename hform).1 hoccurs)⟩
  rw [step_of_next? rfl, step_of_next? rfl, pass_of_stuck hstuck', pass_of_stuck hstuck]
  simp only [bind_apply]
  rw [Work.rename_form]
  rcases (h.write (.form w.form) s u hr).eq_none_or_exists with
    ⟨hx, -⟩ | ⟨result, s', u', hr', hx, hy⟩
  · cases hx
  rw [hx, hy]
  cases result with
  | error cause =>
    obtain ⟨fault, rfl⟩ := (write_eq_some hy).2 cause rfl
    exact ⟨_, _, s', u', .unwritten fault, hr', rfl, rfl⟩
  | ok _ => exact ⟨_, _, s', u', .shown, hr', rfl, rfl⟩

/-- A pass keeps the two runs together. -/
theorem step {r : Run τ} {n : Nat}
    (hr : Alongside ρ R ⟨g, c', limit⟩ t r (run ⟨g, c', limit⟩ n (start t))) :
    Alongside ρ R ⟨g, c', limit⟩ t (step ⟨g.rename ρ, c, limit⟩ r)
      (Engine.step ⟨g, c', limit⟩ (run ⟨g, c', limit⟩ n (start t))) := by
  generalize hq : run ⟨g, c', limit⟩ n (start t) = q at hr ⊢
  obtain ⟨phase, s⟩ := r
  obtain ⟨phase', u⟩ := q
  have hsession := hr.session
  cases hr.phase with
  | opening =>
    obtain ⟨x, hx, hmirrors⟩ := h.next? hsep limit .opening (by rintro _ ⟨⟩) rfl
    refine hr.step_of_mirrors hx rfl hmirrors fun cause v hfails => ?_
    have hstart : run ⟨g, c', limit⟩ n (start t) = start t := run_eq_of_opening (by rw [hq])
    rw [hstart] at hq
    cases hq
    exact formless_of_opening hfails
  | working w =>
    have hform : g.Spells w.form :=
      spells_of_reaches (reaches_of_run (s := t) (n := n) (by rw [hq]))
    by_cases hstuck : w.Stuck g
    · obtain ⟨cause, cause', s', u', hexposes, hr', hx, hy⟩ :=
        h.step_of_stuck hsep limit hsession hstuck hform
      rw [hx, hy]
      exact ⟨retold_of_exposes hq hstuck hexposes, hr'⟩
    · obtain ⟨x, hx, hmirrors⟩ := h.next? hsep limit (.working w)
        (by rintro _ ⟨⟩; exact ⟨hform, hstuck⟩) rfl
      exact hr.step_of_mirrors hx rfl hmirrors fun cause v hfails =>
        formless_of_pass hq hstuck hfails
  | sentence d => exact ⟨.sentence d, hsession⟩
  | stuck hstuck => exact ⟨.stuck hstuck, hsession⟩
  | failed hformless => exact ⟨.failed hformless, hsession⟩

/-- The two runs stay together. -/
theorem run {s : Session τ} (hst : R s t) (n : Nat) :
    Alongside ρ R ⟨g, c', limit⟩ t (run ⟨g.rename ρ, c, limit⟩ n (start s))
      (Engine.run ⟨g, c', limit⟩ n (start t)) := by
  induction n with
  | zero => exact ⟨.opening, hst⟩
  | succ n ih =>
    rw [run_succ, run_succ]
    exact h.step hsep limit ih

/-- Where one run is stuck the other one is. -/
theorem finishes_of_stuckAt {s : Session τ} (hst : R s t) {k : Nat} {w : Work} {u : Session σ}
    (hstuck : StuckAt ⟨g, c', limit⟩ t k w u) :
    ∃ cause cause' v v', ρ.Exposes w.form cause cause' ∧ R v v' ∧
      Finishes ⟨g.rename ρ, c, limit⟩ s (.error cause) v ∧
      Finishes ⟨g, c', limit⟩ t (.error cause') v' := by
  obtain ⟨n, cursor, hrun, ⟨-, index, r, hr, hocc⟩ | ⟨rfl, -⟩⟩ :=
    hstuck.arrives.exists_search hstuck.unfinished
  · exact absurd ⟨index, r, hr, hocc.mono (Nat.zero_le _)⟩ hstuck.nowhere
  have halong := h.run hsep limit hst n
  generalize hrenamed : Engine.run ⟨g.rename ρ, c, limit⟩ n (start s) = r at halong
  rw [hrun] at halong
  obtain ⟨phase, s'⟩ := r
  cases halong.phase with
  | working _ =>
    have home : Work.Stuck g { w with cursor := 0 } := ⟨rfl, hstuck.nowhere⟩
    obtain ⟨cause, cause', v, v', hexposes, hr, hx, hy⟩ :=
      h.step_of_stuck hsep limit halong.session home (spells_of_reaches hstuck.arrives.reaches)
    refine ⟨cause, cause', v, v', hexposes, hr, ⟨n + 1, ?_⟩, ⟨n + 1, ?_⟩⟩
    · rw [run_succ, hrenamed, hx]
    · rw [run_succ, hrun, hy]

end Likened

/-! ### The main statement -/

/-- **Letters are insignificant.** Give new letters to the terminals and to the nonterminals of a
grammar, so that the terminals stay apart and the nonterminals do; a terminal and a nonterminal may
share a letter. If the answers are the same and the texts are taken alike, then the two runs go
along with each other, pass by pass: the rules and the spans are the same, and forms and
replacements have the new letters. One run ends exactly if the other one does, and at the same
point: with the renamed sentence, with the same cause of failure, or because both are stuck, and
then the cause shows the renamed form. -/
theorem letters_insignificant {ρ : Renaming} {g : Grammar} {R : Session τ → Session σ → Prop}
    {c : Chooser τ} {c' : Chooser σ} (hsep : ρ.Separates g) (h : Likened ρ g R c c')
    (limit : Option Nat) {s : Session τ} {t : Session σ} (hst : R s t) :
    (∀ n, Alongside ρ R ⟨g, c', limit⟩ t (run ⟨g.rename ρ, c, limit⟩ n (start s))
      (run ⟨g, c', limit⟩ n (start t))) ∧
    (∀ result v, Finishes ⟨g.rename ρ, c, limit⟩ s result v →
      ∃ result' u, Finishes ⟨g, c', limit⟩ t result' u ∧
        Retold ρ ⟨g, c', limit⟩ t (.ended result) (.ended result') ∧ R v u) ∧
    (∀ result' u, Finishes ⟨g, c', limit⟩ t result' u →
      ∃ result v, Finishes ⟨g.rename ρ, c, limit⟩ s result v ∧
        Retold ρ ⟨g, c', limit⟩ t (.ended result) (.ended result') ∧ R v u) ∧
    ∀ k w u, StuckAt ⟨g, c', limit⟩ t k w u →
      ∃ cause cause' v v', ρ.Exposes w.form cause cause' ∧ R v v' ∧
        Finishes ⟨g.rename ρ, c, limit⟩ s (.error cause) v ∧
        Finishes ⟨g, c', limit⟩ t (.error cause') v' := by
  have halong := h.run hsep limit hst
  refine ⟨halong, ?_, ?_, fun k w u hstuck => h.finishes_of_stuckAt hsep limit hst hstuck⟩
  · rintro result v ⟨n, hn⟩
    obtain ⟨hphase, hsession⟩ := halong n
    rw [hn] at hphase hsession
    obtain ⟨result', hresult'⟩ := hphase.exists_ended_iff.1 ⟨_, rfl⟩
    rw [hresult'] at hphase
    exact ⟨result', _, ⟨n, Run.eq_mk hresult'⟩, hphase, hsession⟩
  · rintro result' u ⟨n, hn⟩
    obtain ⟨hphase, hsession⟩ := halong n
    rw [hn] at hphase hsession
    obtain ⟨result, hresult⟩ := hphase.exists_ended_iff.2 ⟨_, rfl⟩
    rw [hresult] at hphase
    exact ⟨result, _, ⟨n, Run.eq_mk hresult⟩, hphase, hsession⟩

/-- A grammar in which `A` can be replaced and `B` cannot. -/
def tangled : Grammar where
  rules := [
    ⟨[.start], [[.nonterminal 'A', .terminal 'a'], [.nonterminal 'B']]⟩,
    ⟨[.nonterminal 'A'], [[.terminal 'b'], [.terminal 'a', .nonterminal 'B']]⟩]

/-- The terminal `a` and the nonterminal `A` are both shown as `z`. -/
def merging : Renaming where
  terminal := Equiv.swap 'a' 'z'
  nonterminal := Equiv.swap 'A' 'z'

theorem utf8Size_rename_merging (x : Symbol) :
    (x.rename merging).glyph.utf8Size = x.glyph.utf8Size := by
  have hswap : ∀ (a b c : Char), a.utf8Size = b.utf8Size →
      (Equiv.swap a b c).utf8Size = c.utf8Size := by
    intro a b c h
    rw [Equiv.swap_apply_def]
    split_ifs with ha hb
    · rw [ha, h]
    · rw [hb, h]
    · rfl
  cases x with
  | start => rfl
  | terminal c => exact hswap 'a' 'z' c rfl
  | nonterminal c => exact hswap 'A' 'z' c rfl
  | epsilon => rfl

/-- The first answers lead from `Aa`, which is shown as `zz`, to a sentence. With the other ones
both runs are stuck. On an output with too little room both runs fail in the second step. -/
theorem letters_insignificant_merged :
    merging.Separates tangled ∧
      (∃ d v, Finishes ⟨tangled.rename merging, .script, none⟩ ⟨[0, 0], .empty none⟩ (.ok d) v ∧
        Form.text d.sentence = "bz" ∧ d.steps.map Step.start = [0, 0]) ∧
      (∃ v, Finishes ⟨tangled.rename merging, .script, none⟩ ⟨[0, 1], .empty none⟩
        (.error (.stuckDerivation "zBz")) v) ∧
      ∃ v, Finishes ⟨tangled.rename merging, .script, none⟩ ⟨[0, 0], .empty (some 100)⟩
        (.error (.console .outputFull)) v := by
  have hsep : merging.Separates tangled :=
    Renaming.separates_of_injective (Equiv.injective _) (Equiv.injective _)
  have hanswer := Chooser.counts_script.alike merging tangled
  have hsession : ∀ answers : List Nat, Session.Alike Eq (fun x y => x.Unlimited ∧ y.Unlimited)
      ⟨answers, .empty none⟩ ⟨answers, .empty none⟩ := fun answers =>
    ⟨rfl, Stream.unlimited_empty, Stream.unlimited_empty⟩
  refine ⟨hsep, ?_, ?_, ?_⟩
  · have hfinishes : Finishes ⟨tangled, .script, none⟩ ⟨[0, 0], .empty none⟩ (.ok _) _ := ⟨2, rfl⟩
    obtain ⟨result, v, hv, hretold, -⟩ :=
      (letters_insignificant hsep (likened_of_unlimited hanswer) none (hsession _)).2.2.1 _ _
        hfinishes
    cases hretold with
    | sentence d => exact ⟨_, v, hv, by decide, by decide⟩
  · have hfinishes : Finishes ⟨tangled, .script, none⟩ ⟨[0, 1], .empty none⟩
        (.error (.stuckDerivation "aBa")) _ := ⟨3, rfl⟩
    have hstuckAt : StuckAt ⟨tangled, .script, none⟩ ⟨[0, 1], .empty none⟩ 1
        ⟨[.terminal 'a', .nonterminal 'B', .terminal 'a'], 0, _⟩ _ :=
      ⟨.later (n := 1) rfl rfl rfl rfl, Grammar.site?_eq_none_iff.1 rfl, .inr rfl⟩
    obtain ⟨cause, cause', v, v', hexposes, -, hv, hv'⟩ :=
      (letters_insignificant hsep (likened_of_unlimited hanswer) none (hsession _)).2.2.2 _ _ _
        hstuckAt
    obtain ⟨⟨⟩, -⟩ := hfinishes.unique hv'
    cases hexposes with
    | shown => exact ⟨v, hv⟩
  · have hfinishes : Finishes ⟨tangled, .script, none⟩ ⟨[0, 0], .empty (some 100)⟩
        (.error (.console .outputFull)) _ := ⟨2, rfl⟩
    have hlikened := likened_of_room hanswer utf8Size_rename_merging (fun _ _ => rfl) (some 100)
    obtain ⟨result, v, hv, hretold, -⟩ :=
      (letters_insignificant hsep hlikened none ⟨rfl, rfl, rfl, rfl⟩).2.2.1 _ _ hfinishes
    cases hretold with
    | failed h => exact ⟨v, hv⟩

end Engine

end PhraseGrammar
