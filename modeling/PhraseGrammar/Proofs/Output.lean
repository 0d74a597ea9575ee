import PhraseGrammar.Proofs.Accord

/-!
# What is written

* `Stream.Unlimited`: an output that never fails;
* `Stream.Extends`: an output after more has been written to it;
* `Action.Closed`: a property that is kept when actions are put together. All of the engine's
  actions have it (`closed_of_next?`);
* `Action.Keeps`: what is kept when something is written is kept by all actions, and so by runs
  (`run_keeps`);
* `Action.Appends`: whatever an action comes to, it only writes more. This too holds of runs
  (`run_extends`).
-/

namespace PhraseGrammar

namespace Stream

/-- An output that takes all bytes. -/
def Unlimited (s : Stream) : Prop := ∀ taken bytes, s.refusal taken bytes = none

/-- `t` is the output `s` after more bytes have been written to it. -/
structure Extends (s t : Stream) : Prop where
  refusal_eq : t.refusal = s.refusal
  written_eq : ∃ more, t.written = s.written ++ more

theorem unlimited_empty : (empty none).Unlimited := fun _ _ => rfl

theorem Extends.refl (s : Stream) : s.Extends s := ⟨rfl, .empty, by simp⟩

theorem Extends.trans {s t u : Stream} (h : s.Extends t) (h' : t.Extends u) : s.Extends u := by
  obtain ⟨hst, more, hmore⟩ := h
  obtain ⟨htu, rest, hrest⟩ := h'
  refine ⟨htu.trans hst, more ++ rest, ?_⟩
  rw [hrest, hmore, ByteArray.append_assoc]

theorem Unlimited.of_extends {s t : Stream} (hs : s.Unlimited) (h : s.Extends t) :
    t.Unlimited := by
  intro taken bytes
  rw [h.refusal_eq]
  exact hs taken bytes

theorem extends_write (s : Stream) (text : String) : s.Extends (s.write text).2 := by
  unfold write writeBytes
  split
  · exact ⟨rfl, _, rfl⟩
  · exact ⟨rfl, _, rfl⟩

/-- What is written without a failure is written in full. -/
theorem written_of_write {s t : Stream} {text : String} (h : s.write text = (.ok (), t)) :
    t.written = s.written ++ text.toUTF8 := by
  unfold write writeBytes at h
  split at h
  · cases h; rfl
  · cases h

theorem Unlimited.write_eq_ok {s : Stream} (hs : s.Unlimited) (text : String) :
    (s.write text).1 = .ok () := by
  simp [write, writeBytes, hs _ _]

end Stream

namespace Action

variable {σ α β : Type}

/-- A property of actions that the single operations have, and that is kept when one action is done
after another. -/
structure Closed (P : ∀ {α : Type}, Action σ α → Prop) : Prop where
  pure {α : Type} (a : α) : P (Pure.pure a : Action σ α)
  fail {α : Type} (cause : GenerateError) : P (Action.fail cause : Action σ α)
  write (text : String) : P (Action.write text)
  ask {α : Type} (question : σ → Option (Except GenerateError α × σ)) : P (Action.ask question)
  bind {α β : Type} {x : Action σ α} {f : α → Action σ β} (hx : P x) (hf : ∀ a, P (f a)) :
    P (x >>= f)

/-- What holds of the output before the action still holds after it. -/
def Keeps (P : Stream → Prop) (x : Action σ α) : Prop :=
  ∀ s result t, x s = some (result, t) → P s.output → P t.output

theorem closed_keeps {P : Stream → Prop} (hP : ∀ s text, P s → P (s.write text).2) :
    Closed fun {_} (x : Action σ _) => Keeps P x where
  pure a := by
    rintro s result t ⟨⟩ hs
    exact hs
  fail cause := by
    rintro s result t ⟨⟩ hs
    exact hs
  write text := by
    rintro s result t ⟨⟩ hs
    exact hP _ _ hs
  ask question := by
    intro s result t h hs
    obtain ⟨⟨_, _⟩, -, hr⟩ := Option.map_eq_some_iff.1 h
    cases hr
    exact hs
  bind hx hf := by
    intro s result t h hs
    rcases bind_eq_some.1 h with ⟨a, u, hu, ht⟩ | ⟨cause, ht, -⟩
    · exact hf a u result t ht (hx s _ u hu hs)
    · exact hx s _ t ht hs

/-- Whatever the action comes to, it has only written more to the output. -/
def Appends (x : Action σ α) : Prop :=
  ∀ s result t, x s = some (result, t) → s.output.Extends t.output

theorem appends_iff {x : Action σ α} : Appends x ↔ ∀ s : Stream, Keeps s.Extends x := by
  constructor
  · intro h s₀ s result t ht hs
    exact hs.trans (h s result t ht)
  · intro h s result t ht
    exact h s.output s result t ht (.refl _)

theorem closed_appends : Closed (@Appends σ) := by
  have hkeeps (s : Stream) : Closed fun {_} (x : Action σ _) => Keeps s.Extends x :=
    closed_keeps fun t text h => h.trans (t.extends_write text)
  exact {
    pure := fun a => appends_iff.2 fun s => (hkeeps s).pure a
    fail := fun cause => appends_iff.2 fun s => (hkeeps s).fail cause
    write := fun text => appends_iff.2 fun s => (hkeeps s).write text
    ask := fun question => appends_iff.2 fun s => (hkeeps s).ask question
    bind := fun hx hf => appends_iff.2 fun s =>
      (hkeeps s).bind (appends_iff.1 hx s) fun a => appends_iff.1 (hf a) s }

/-- Writing to an output that takes all bytes. -/
theorem write_of_unlimited {s : Session σ} (hs : s.output.Unlimited) (text : String) :
    ∃ t, write text s = some (.ok (), t) ∧ t.chooser = s.chooser ∧ t.output.Unlimited ∧
      t.output.written = s.output.written ++ text.toUTF8 := by
  cases hwrite : s.output.write text with
  | mk result output =>
    obtain rfl : result = .ok () := by simpa [hwrite] using hs.write_eq_ok text
    refine ⟨{ s with output }, by simp [write, hwrite, Except.mapError], rfl, ?_, ?_⟩
    · exact hs.of_extends (by simpa [hwrite] using s.output.extends_write text)
    · exact Stream.written_of_write hwrite

theorem written_of_write {s t : Session σ} {text : String} (h : write text s = some (.ok (), t)) :
    t.output.written = s.output.written ++ text.toUTF8 := by
  cases hwrite : s.output.write text with
  | mk result output =>
    cases result with
    | error fault => simp [write, hwrite, Except.mapError] at h
    | ok u =>
      simp only [write, hwrite, Except.mapError, Option.some.injEq, Prod.mk.injEq] at h
      obtain ⟨-, rfl⟩ := h
      exact Stream.written_of_write hwrite

end Action

namespace Engine

open PhraseGrammar.Action

variable {σ : Type}

section Closed

variable {P : ∀ {α : Type}, Action σ α → Prop} (hP : Closed P)
include hP

/-- A property of actions is a relation that looks at one side only. -/
theorem accord_of_closed (e : Engine σ) (phase : Phase) :
    Accord .identity e e phase (fun {_ _} _ _ y => P y) (fun {_ _} _ _ y => P y) where
  pure _ b := hP.pure b
  fail _ cause := hP.fail cause
  write _ _ := hP.write _
  bind := hP.bind
  quiet := id
  question _ := hP.bind (hP.write _) fun _ => hP.bind (hP.write _) fun _ => hP.ask _
  asking_bind := hP.bind

theorem closed_opening (e : Engine σ) : P e.opening :=
  (accord_of_closed hP e .opening).opening (carries_identity _ _ _ _ _)

theorem closed_advance (e : Engine σ) (w : Work) : P (e.advance w) :=
  (accord_of_closed hP e (.working w)).advance (carries_identity _ _ _ _ _)

theorem closed_of_next? {e : Engine σ} {phase : Phase} {act : Action σ Phase}
    (h : e.next? phase = some act) : P act := by
  obtain ⟨_, -, hact⟩ := (accord_of_closed hP e phase).next? (carries_identity _ _ _ _ _) h
  exact hact

end Closed

/-- After a choice the output stands at the beginning of a line. -/
theorem written_of_choose {c : Chooser σ} {form : Form} {start length : Nat}
    {alternatives : List Form} {s t : Session σ} {replacement : Form}
    (h : choose c form start length alternatives s = some (.ok replacement, t)) :
    ∃ before, t.output.written = before ++ "\n".toUTF8 := by
  rcases bind_eq_some.1 h with ⟨_, u, -, h⟩ | ⟨cause, -, ⟨⟩⟩
  rcases bind_eq_some.1 h with ⟨chosen, v, -, h⟩ | ⟨cause, -, ⟨⟩⟩
  rcases bind_eq_some.1 h with ⟨_, w, hchoice, h⟩ | ⟨cause, -, ⟨⟩⟩
  cases h
  have hline : Trace.choice start length chosen =
      Trace.times start ' ' ++ Trace.times length '|' ++ "__will be replaced by '" ++
        Form.text chosen ++ "'\n" ++ "\n" := by
    have hquote : "'\n\n" = "'\n" ++ "\n" := rfl
    rw [Trace.choice, hquote, ← String.append_assoc]
  rw [Action.written_of_write hchoice, hline, String.toUTF8, String.toByteArray_append,
    ← ByteArray.append_assoc]
  exact ⟨_, rfl⟩

/-- An answer that the chooser gives to a question. -/
theorem pick_of_answer {c : Chooser σ} {alternatives : List Form} {s : Session σ}
    (hs : s.output.Unlimited) {answer : Except GenerateError Nat} {after : σ}
    (h : c.answer alternatives s.chooser = some (answer, after)) :
    ∃ t, c.pick alternatives s = some (answer, t) ∧ t.chooser = after ∧ t.output.Unlimited := by
  obtain ⟨u, hprompt, huchooser, hu, -⟩ := Action.write_of_unlimited hs (c.prompt alternatives)
  rw [← huchooser] at h
  have hask : ask (c.answer alternatives) u = some (answer, { u with chooser := after }) := by
    simp [ask, h]
  refine ⟨{ u with chooser := after }, ?_, rfl, hu⟩
  show (write (c.prompt alternatives) >>= fun _ => ask (c.answer alternatives)) s = _
  rw [bind_apply, hprompt]
  exact hask

/-- A question that the chooser declines. -/
theorem choose_of_declined {c : Chooser σ} {alternatives : List Form}
    (several : 2 ≤ alternatives.length) {s : Session σ} (hs : s.output.Unlimited)
    {cause : GenerateError} {after : σ}
    (answer : c.answer alternatives s.chooser = some (.error cause, after)) (form : Form)
    (start length : Nat) :
    ∃ t, choose c form start length alternatives s = some (.error cause, t) := by
  obtain ⟨u, hheading, huchooser, hu, -⟩ :=
    Action.write_of_unlimited hs (Trace.heading form start length)
  rw [← huchooser] at answer
  obtain ⟨t, hpick, -⟩ := pick_of_answer hu answer
  have hselect : select c alternatives u = some (.error cause, t) := by
    rcases alternatives with _ | ⟨only, _ | ⟨second, rest⟩⟩
    · simp at several
    · simp at several
    · exact bind_eq_some.2 (.inr ⟨cause, hpick, rfl⟩)
  exact ⟨t, bind_eq_some.2 (.inl ⟨(), u, hheading, bind_eq_some.2 (.inr ⟨cause, hselect, rfl⟩)⟩)⟩

/-- A choice that the chooser settles. -/
theorem choose_of_picks {c : Chooser σ} {alternatives : List Form} {s : Session σ}
    (hs : s.output.Unlimited) {chosen : Form} {after : σ}
    (picks : Picks c alternatives s.chooser (.ok chosen) after) (form : Form)
    (start length : Nat) :
    ∃ t, choose c form start length alternatives s = some (.ok (Form.withoutEpsilon chosen), t) ∧
      t.chooser = after := by
  obtain ⟨u, hheading, huchooser, hu, -⟩ :=
    Action.write_of_unlimited hs (Trace.heading form start length)
  rw [← huchooser] at picks
  have hselect : ∃ v, select c alternatives u = some (.ok chosen, v) ∧ v.chooser = after ∧
      v.output.Unlimited := by
    generalize hbefore : u.chooser = before at picks
    cases picks with
    | only h => exact ⟨u, by rw [h]; rfl, hbefore, hu⟩
    | @asked index _ _ several answer h =>
      rw [← hbefore] at answer
      obtain ⟨v, hpick, hv⟩ := pick_of_answer hu answer
      refine ⟨v, ?_, hv⟩
      rcases alternatives with _ | ⟨only, _ | ⟨second, rest⟩⟩
      · simp at several
      · simp at several
      · exact bind_eq_some.2 (.inl ⟨index, v, hpick, by simp only [h]; rfl⟩)
  obtain ⟨v, hselect, hvchooser, hv⟩ := hselect
  obtain ⟨t, hchoice, htchooser, -⟩ :=
    Action.write_of_unlimited hv (Trace.choice start length chosen)
  refine ⟨t, bind_eq_some.2 (.inl ⟨(), u, hheading, ?_⟩), htchooser.trans hvchooser⟩
  exact bind_eq_some.2 (.inl ⟨chosen, v, hselect, bind_eq_some.2 (.inl ⟨(), t, hchoice, rfl⟩)⟩)

section Keeps

variable {P : Stream → Prop} (hP : ∀ s text, P s → P (s.write text).2)
include hP

theorem step_keeps (e : Engine σ) {r : Run σ} (hr : P r.session.output) :
    P (e.step r).session.output := by
  rcases step_cases e r with hstay | ⟨act, hnext, ⟨result, t⟩, houtcome, hstep⟩
  · rwa [hstay]
  · have ht : P t.output := closed_of_next? (closed_keeps hP) hnext _ _ _ houtcome hr
    rw [hstep]
    cases result <;> exact ht

theorem run_keeps (e : Engine σ) {r : Run σ} (hr : P r.session.output) (n : Nat) :
    P (e.run n r).session.output := by
  induction n with
  | zero => exact hr
  | succ n ih =>
    rw [run_succ]
    exact step_keeps hP e ih

end Keeps

theorem run_extends (e : Engine σ) (r : Run σ) (n : Nat) :
    r.session.output.Extends (e.run n r).session.output :=
  run_keeps (fun s text h => h.trans (s.extends_write text)) e (.refl _) n

theorem run_extends_of_le (e : Engine σ) (r : Run σ) {m n : Nat} (h : m ≤ n) :
    (e.run m r).session.output.Extends (e.run n r).session.output := by
  obtain ⟨d, rfl⟩ := Nat.exists_eq_add_of_le h
  rw [run_add]
  exact e.run_extends _ d

end Engine

end PhraseGrammar
