import PhraseGrammar.Proofs.Arrival

/-!
# Runs side by side

Two runs of one grammar go on alike, pass by pass, when their sessions stay related: whatever is
written, and whatever the two choosers are asked.

* `Agree`: two outcomes with the same result and related sessions, or none at all;
* `Action.Mirrors`: two actions that agree in related sessions. This is kept when actions are put
  together, and so by all of the engine's actions (`accord_of_mirrors`);
* `Engine.Mirrored`: two choosers that agree, and a relation that writing keeps. Then the runs of
  two engines agree (`Mirrored.run`), and they end alike (`Mirrored.exists_finishes`);
* `Session.Behind`: the output of one session is that of the other behind some text. What has been
  written before a run begins stays in front of it, and changes nothing (`mirrored_behind`).
-/

namespace PhraseGrammar

variable {σ τ α β γ : Type}

/-- Both actions wait for ever, or both come to the same result in related sessions. -/
inductive Agree (R : Session τ → Session σ → Prop) :
    Option (Except GenerateError α × Session τ) → Option (Except GenerateError α × Session σ) → Prop
  | waiting : Agree R none none
  | done {result : Except GenerateError α} {s : Session τ} {t : Session σ} (h : R s t) :
      Agree R (some (result, s)) (some (result, t))

namespace Action

variable {R : Session τ → Session σ → Prop}

/-- In related sessions the two actions agree. -/
def Mirrors (R : Session τ → Session σ → Prop) (x : Action τ α) (y : Action σ α) : Prop :=
  ∀ s t, R s t → Agree R (x s) (y t)

theorem mirrors_pure (a : α) : Mirrors R (pure a) (pure a) := fun _ _ h => .done h

theorem mirrors_fail (cause : GenerateError) :
    Mirrors R (fail cause : Action τ α) (fail cause) := fun _ _ h => .done h

/-- What follows may use another value, if this is the one that the first value is turned into. -/
theorem Mirrors.map_bind {x : Action τ β} {y : Action σ α} {m : α → β} {f : β → Action τ γ}
    {g : α → Action σ γ} (hxy : Mirrors R x (m <$> y)) (hfg : ∀ a, Mirrors R (f (m a)) (g a)) :
    Mirrors R (x >>= f) (y >>= g) := by
  intro s t h
  have hagree := hxy s t h
  rw [map_apply] at hagree
  rw [bind_apply, bind_apply]
  generalize x s = outcome, y t = outcome' at hagree
  rcases outcome' with _ | ⟨cause | a, u⟩
  · cases hagree
    exact .waiting
  · cases hagree with
    | done hr => exact .done hr
  · cases hagree with
    | done hr => exact hfg a _ _ hr

theorem Mirrors.bind {x : Action τ α} {y : Action σ α} {f : α → Action τ β} {g : α → Action σ β}
    (hxy : Mirrors R x y) (hfg : ∀ a, Mirrors R (f a) (g a)) : Mirrors R (x >>= f) (y >>= g) :=
  Mirrors.map_bind ((id_map y).symm ▸ hxy) hfg

theorem Mirrors.refl (x : Action σ α) : Mirrors Eq x x := by
  rintro s _ rfl
  rcases x s with _ | ⟨result, t⟩
  · exact .waiting
  · exact .done rfl

/-- Actions are equal if they agree in every session. -/
theorem Mirrors.eq {x y : Action σ α} (h : Mirrors Eq x y) : x = y := by
  funext s
  have hagree := h s s rfl
  generalize x s = outcome, y s = outcome' at hagree
  cases hagree with
  | waiting => rfl
  | done hr => rw [hr]

end Action

namespace Engine

open PhraseGrammar.Action

/-- Agreement is kept by all of the engine's actions, if what is written and what is asked agrees. -/
theorem accord_of_mirrors {R : Session τ → Session σ → Prop} {T : Translation} {e' : Engine τ}
    {e : Engine σ} {phase : Phase}
    (hwrite : ∀ {line : Form → String}, Trace.Line line → ∀ f,
      Mirrors R (Action.write (line (T.form f))) (Action.write (line f)))
    (hpick : ∀ alternatives, e.Asks phase alternatives →
      Mirrors R (e'.chooser.pick (alternatives.map T.form)) (e.chooser.pick alternatives)) :
    Accord T e' e phase (fun {_ _} m x y => Mirrors R x (m <$> y))
      (fun {_ _} m x y => Mirrors R x (m <$> y)) where
  pure m b := by
    rw [map_pure]
    exact mirrors_pure _
  fail _ cause := mirrors_fail cause
  write hline f := by
    rw [id_map]
    exact hwrite hline f
  bind hx hf := by
    rw [map_bind]
    exact hx.map_bind hf
  quiet := id
  question hposes := by
    rw [id_map]
    exact (hwrite (.heading _ _) _).bind fun _ => hpick _ hposes.asks
  asking_bind hx hf := by
    rw [map_bind]
    exact hx.map_bind hf

/-- Writing keeps the sessions related, and the two choosers agree in them. -/
structure Mirrored (R : Session τ → Session σ → Prop) (c : Chooser τ) (c' : Chooser σ) : Prop where
  write (text : String) : Mirrors R (Action.write text) (Action.write text)
  pick (alternatives : List Form) : Mirrors R (c.pick alternatives) (c'.pick alternatives)

namespace Mirrored

variable {R : Session τ → Session σ → Prop} {c : Chooser τ} {c' : Chooser σ}
  (h : Mirrored R c c')
include h

/-- What is done next agrees. -/
theorem next? (g : Grammar) (limit : Option Nat) (phase : Phase) {y : Action σ Phase}
    (hy : Engine.next? ⟨g, c', limit⟩ phase = some y) :
    ∃ x, Engine.next? ⟨g, c, limit⟩ phase = some x ∧ Mirrors R x y := by
  have haccord : Accord .identity ⟨g, c, limit⟩ ⟨g, c', limit⟩ phase _ _ :=
    accord_of_mirrors (fun _ _ => h.write _) fun alternatives _ =>
      (List.map_id alternatives).symm ▸ h.pick alternatives
  obtain ⟨x, hx, hxy⟩ := haccord.next? (carries_identity g limit c c' phase) hy
  exact ⟨x, hx, id_map y ▸ hxy⟩

variable (g : Grammar) (limit : Option Nat)

/-- A pass keeps the two runs alike. -/
theorem step {r : Run τ} {q : Run σ} (hphase : r.phase = q.phase) (hr : R r.session q.session) :
    (Engine.step ⟨g, c, limit⟩ r).phase = (Engine.step ⟨g, c', limit⟩ q).phase ∧
      R (Engine.step ⟨g, c, limit⟩ r).session (Engine.step ⟨g, c', limit⟩ q).session := by
  obtain ⟨phase, s⟩ := r
  obtain ⟨_, t⟩ := q
  cases hphase
  have hsettle : ∀ {outcome outcome'}, Agree R outcome outcome' →
      ((outcome.map settle).getD ⟨phase, s⟩).phase = ((outcome'.map settle).getD ⟨phase, t⟩).phase ∧
        R ((outcome.map settle).getD ⟨phase, s⟩).session
          ((outcome'.map settle).getD ⟨phase, t⟩).session := by
    intro outcome outcome' hagree
    cases hagree with
    | waiting => exact ⟨rfl, hr⟩
    | @done result s' t' h' => cases result <;> exact ⟨rfl, h'⟩
  cases phase with
  | opening =>
    obtain ⟨x, ⟨⟩, hxy⟩ := h.next? g limit .opening rfl
    exact hsettle (hxy s t hr)
  | working w =>
    obtain ⟨x, ⟨⟩, hxy⟩ := h.next? g limit (.working w) rfl
    exact hsettle (hxy s t hr)
  | ended result => exact ⟨rfl, hr⟩

theorem run {s : Session τ} {t : Session σ} (hst : R s t) (n : Nat) :
    (Engine.run ⟨g, c, limit⟩ n (start s)).phase = (Engine.run ⟨g, c', limit⟩ n (start t)).phase ∧
      R (Engine.run ⟨g, c, limit⟩ n (start s)).session
        (Engine.run ⟨g, c', limit⟩ n (start t)).session := by
  induction n with
  | zero => exact ⟨rfl, hst⟩
  | succ n ih =>
    rw [run_succ, run_succ]
    exact h.step g limit ih.1 ih.2

/-- When the second run ends, the first one ends alike. -/
theorem exists_finishes {s : Session τ} {t u : Session σ} (hst : R s t)
    {result : Except GenerateError Derivation} (hu : Finishes ⟨g, c', limit⟩ t result u) :
    ∃ v, Finishes ⟨g, c, limit⟩ s result v ∧ R v u := by
  obtain ⟨n, hn⟩ := hu
  obtain ⟨hphase, hsession⟩ := h.run g limit hst n
  rw [hn] at hphase hsession
  have hended : (Engine.run ⟨g, c, limit⟩ n (start s)).phase = .ended result := hphase
  exact ⟨_, ⟨n, by rw [← hended]⟩, hsession⟩

end Mirrored

/-- Choosers that show the same questions agree if their answers do. -/
theorem mirrored_of_ask {R : Session τ → Session σ → Prop} {c : Chooser τ} {c' : Chooser σ}
    (hwrite : ∀ text, Mirrors R (Action.write text) (Action.write text))
    (hprompt : c.prompt = c'.prompt)
    (hask : ∀ alternatives,
      Mirrors R (ask (c.answer alternatives)) (ask (c'.answer alternatives))) :
    Mirrored R c c' where
  write := hwrite
  pick alternatives := by
    unfold Chooser.pick
    rw [hprompt]
    exact (hwrite _).bind fun _ => hask alternatives

end Engine

/-! ### What has been written before -/

/-- The session `s` is the session `t`, but for a text in front of its output. Both outputs take all
bytes. -/
structure Session.Behind (text : String) (s t : Session σ) : Prop where
  chooser_eq : s.chooser = t.chooser
  unlimited : s.output.Unlimited
  unlimited' : t.output.Unlimited
  written_eq : s.output.written = text.toUTF8 ++ t.output.written

theorem mirrors_write_behind (before text : String) :
    Action.Mirrors (Session.Behind before) (Action.write text : Action σ Unit)
      (Action.write text) := by
  rintro s t ⟨hchooser, hs, ht, hwritten⟩
  obtain ⟨s', hs', hchooser', hunlimited, hmore⟩ := Action.write_of_unlimited hs text
  obtain ⟨t', ht', hchooser'', hunlimited', hmore'⟩ := Action.write_of_unlimited ht text
  rw [hs', ht']
  refine .done ⟨?_, hunlimited, hunlimited', ?_⟩
  · rw [hchooser', hchooser'', hchooser]
  · rw [hmore, hmore', hwritten, ByteArray.append_assoc]

/-- A text in front of the output changes nothing. -/
theorem mirrored_behind (before : String) (c : Chooser σ) :
    Engine.Mirrored (Session.Behind before) c c := by
  refine Engine.mirrored_of_ask (mirrors_write_behind before) rfl fun alternatives => ?_
  rintro s t ⟨hchooser, hs, ht, hwritten⟩
  unfold Action.ask
  rw [hchooser]
  cases c.answer alternatives t.chooser with
  | none => exact .waiting
  | some answer => exact .done ⟨rfl, hs, ht, hwritten⟩

end PhraseGrammar
