import PhraseGrammar.Proofs.Checked
import PhraseGrammar.Proofs.Failure

/-!
# Runs without faults

The engine's passes once more, with every operation on words and lists checked. There is one fault
only. It comes when the chooser picks the largest word and that is no alternative: the number of the
option is one more, and no word. The engine refuses this pick under the number 0.

* `Checked.select`, `Checked.advance`, `Checked.run` and others: the actions and runs with checks.
  At a fault an action ends without a value;
* `Chooser.Overshoots`: the picks that lead to the fault;
* `Checked.Follows`: an action with checks does what the one without them does, or there is the
  fault. Nothing but writing comes before the pick (`Follows.write_bind`), and nothing that comes
  after it is a fault (`Follows.bind_lift`);
* `Checked.step_eq`, `Checked.run_eq`: passes and runs.

Main statement: `Checked.run_faultless`. The fault itself: `Checked.run_lastWord`.
-/

namespace PhraseGrammar

variable {σ : Type}

/-- The largest word. -/
def Numeral.lastWord : Nat := Numeral.wordCount - 1

/-! ### Actions with checks -/

namespace Checked

/-- What a checked operation comes to, as an action. -/
def of {α : Type} (x : Option α) : OptionT (Action σ) α := OptionT.mk (pure x)

/-- The alternative that has been picked, if there is one. -/
def pickedFrom (alternatives : List Form) (index : Nat) : OptionT (Action σ) Form :=
  if alternatives.length ≤ index then do
    let number ← of (add index 1)
    OptionT.lift (Action.fail (.invalidSelection number.repr))
  else of alternatives[index]?

/-- Settles on one of the alternatives. -/
def select (c : Chooser σ) (alternatives : List Form) : OptionT (Action σ) Form :=
  match alternatives.length with
  | 0 => OptionT.lift (Action.fail .emptyAlternatives)
  | 1 => of alternatives[0]?
  | _ => OptionT.lift (c.pick alternatives) >>= pickedFrom alternatives

/-- Shows the span, settles on an alternative and shows it. -/
def choose (c : Chooser σ) (form : Form) (start length : Nat) (alternatives : List Form) :
    OptionT (Action σ) Form := do
  OptionT.lift (Action.write (Trace.heading form start length))
  let chosen ← select c alternatives
  OptionT.lift (Action.write (Trace.choice start length chosen))
  return Form.withoutEpsilon chosen

/-- The first step. -/
def opening (e : Engine σ) : OptionT (Action σ) Phase :=
  match e.grammar.startRule? with
  | none => OptionT.lift (Action.fail .emptyGrammar)
  | some rule => do
    let replacement ← choose e.chooser [.start] 0 1 rule.alternatives
    return .working (.first replacement)

/-- The search and what it leads to. -/
def advance (e : Engine σ) (w : Work) : OptionT (Action σ) Work := do
  match ← of (site e.grammar w.form w.cursor) with
  | some found =>
    if e.exhausted w then do
      let done ← of (sub w.steps.size 1)
      OptionT.lift (Action.fail (.stepLimitExceeded done))
    else do
      let length := found.rule.pattern.length
      let replacement ← choose e.chooser w.form found.start length found.rule.alternatives
      let stop ← of (add found.start length)
      let form ← of (splice w.form found.start stop replacement)
      return ⟨form, found.start, w.steps.push ⟨found.index, found.start, length, replacement⟩⟩
  | none =>
    if w.cursor = 0 then do
      OptionT.lift (Action.write (Trace.form w.form))
      OptionT.lift (Action.fail (.stuckDerivation (Form.text w.form)))
    else return { w with cursor := 0 }

/-- One pass. -/
def pass (e : Engine σ) (w : Work) : OptionT (Action σ) Phase := do
  let w ← advance e w
  OptionT.lift (Engine.conclude w)

/-- What is done next; nothing follows the end. -/
def next? (e : Engine σ) : Phase → Option (OptionT (Action σ) Phase)
  | .opening => some (opening e)
  | .working w => some (pass e w)
  | .ended _ => none

/-- The run that a checked action leads to, or `none` at a fault. -/
def settle : Except GenerateError (Option Phase) × Session σ → Option (Run σ)
  | (.ok none, _) => none
  | (.ok (some phase), session) => some ⟨phase, session⟩
  | (.error cause, session) => some ⟨.ended (.error cause), session⟩

/-- The run after the next pass, or `none` if there is a fault in it. -/
def step (e : Engine σ) (r : Run σ) : Option (Run σ) :=
  match (next? e r.phase).bind fun act => act.run r.session with
  | none => some r
  | some outcome => settle outcome

/-- The run after at most so many passes, or `none` if there is a fault in one of them. -/
def run (e : Engine σ) : Nat → Run σ → Option (Run σ)
  | 0, r => some r
  | n + 1, r => (run e n r).bind (step e)

end Checked

/-! ### The pick that is too large -/

/-- Asked for one of these alternatives, the chooser picks an index that is none of theirs, and so
large that the number of the option, which is one more, is no word. -/
structure Chooser.Overshoots (c : Chooser σ) (alternatives : List Form) (before : σ) (index : Nat)
    (after : σ) : Prop where
  several : 2 ≤ alternatives.length
  answer : c.answer alternatives before = some (.ok index, after)
  refused : alternatives.length ≤ index
  tooLarge : Numeral.wordCount ≤ index + 1

namespace Engine

theorem optionNumber_of_lt {index : Nat} (h : index + 1 < Numeral.wordCount) :
    optionNumber index = (index + 1).repr :=
  congrArg Nat.repr (Nat.mod_eq_of_lt h)

/-- The number of an option, for an index that is a word. -/
theorem optionNumber_of_word {index : Nat} (h : index < Numeral.wordCount) :
    optionNumber index = if index = Numeral.lastWord then "0" else (index + 1).repr := by
  split_ifs with hlast
  · rw [hlast]
    rfl
  · exact optionNumber_of_lt (by unfold Numeral.lastWord at hlast; omega)

/-- How a pick is refused that names none of several alternatives. -/
theorem select_of_refused {c : Chooser σ} {alternatives : List Form} {s t : Session σ} {index : Nat}
    (several : 2 ≤ alternatives.length) (hpick : c.pick alternatives s = some (.ok index, t))
    (h : alternatives.length ≤ index) :
    select c alternatives s = some (.error (.invalidSelection (optionNumber index)), t) := by
  rcases alternatives with _ | ⟨only, _ | ⟨second, rest⟩⟩
  · cases several
  · exact absurd several (by simp)
  have hnone : (only :: second :: rest)[index]? = none := List.getElem?_eq_none h
  refine Action.bind_eq_some.2 (.inl ⟨index, t, hpick, ?_⟩)
  simp only [hnone]
  rfl

end Engine

/-! ### Checks that change nothing -/

namespace Checked

variable {α β : Type}

/-- An action with checks does what the one without them does; or there is a fault, because the
chooser has been asked for one of certain alternatives and has picked too large an index, and the
action without checks refuses this pick. -/
def Follows (c : Chooser σ) (asked : List Form → Prop) (x : OptionT (Action σ) α)
    (y : Action σ α) : Prop :=
  ∀ s, x.run s = (OptionT.lift y).run s ∨
    ∃ alternatives index t, asked alternatives ∧
      c.Overshoots alternatives s.chooser index t.chooser ∧ x.run s = some (.ok none, t) ∧
      y s = some (.error (.invalidSelection (Engine.optionNumber index)), t)

variable {c : Chooser σ} {asked : List Form → Prop} {x : OptionT (Action σ) α} {y : Action σ α}

theorem follows_lift (c : Chooser σ) (asked : List Form → Prop) (y : Action σ α) :
    Follows c asked (OptionT.lift y) y := fun _ => .inl rfl

theorem Follows.mono {asked' : List Form → Prop} (h : Follows c asked x y)
    (hasked : ∀ alternatives, 2 ≤ alternatives.length → asked alternatives → asked' alternatives) :
    Follows c asked' x y := by
  intro s
  rcases h s with hsame | ⟨alternatives, index, t, halternatives, hovershoots, hfault⟩
  · exact .inl hsame
  · exact .inr ⟨alternatives, index, t, hasked _ hovershoots.several halternatives, hovershoots,
      hfault⟩

theorem of_some_bind (a : α) (f : α → OptionT (Action σ) β) : (of (some a) >>= f) = f a := rfl

theorem run_bind_apply (x : OptionT (Action σ) α) (f : α → OptionT (Action σ) β) (s : Session σ) :
    (x >>= f).run s =
      match x.run s with
      | none => none
      | some (.error cause, t) => some (.error cause, t)
      | some (.ok none, t) => some (.ok none, t)
      | some (.ok (some a), t) => (f a).run t := by
  have hrun : (x >>= f).run = x.run >>= fun
    | some a => (f a).run
    | none => pure none := rfl
  rw [hrun, Action.bind_apply]
  rcases x.run s with _ | ⟨cause | _ | a, t⟩ <;> rfl

theorem run_lift_apply (y : Action σ α) (s : Session σ) :
    (OptionT.lift y).run s = (y s).map fun (result, t) => (result.map some, t) :=
  Action.map_apply some y s

/-- What comes after the pick meets no fault. -/
theorem Follows.bind_lift {f : α → OptionT (Action σ) β} {g : α → Action σ β}
    (h : Follows c asked x y) (hnext : ∀ a, f a = OptionT.lift (g a)) :
    Follows c asked (x >>= f) (y >>= g) := by
  obtain rfl : f = fun a => OptionT.lift (g a) := funext hnext
  intro s
  rw [run_bind_apply, run_lift_apply, Action.bind_apply]
  rcases h s with hsame | ⟨alternatives, index, t, halternatives, hovershoots, hx, hy⟩
  · rw [hsame, run_lift_apply]
    rcases y s with _ | ⟨cause | a, t⟩
    · exact .inl rfl
    · exact .inl rfl
    · exact .inl (run_lift_apply (g a) t)
  · rw [hx, hy]
    exact .inr ⟨alternatives, index, t, halternatives, hovershoots, rfl, rfl⟩

/-- What is written before the pick leaves the chooser alone. -/
theorem Follows.write_bind (text : String) (h : Follows c asked x y) :
    Follows c asked (OptionT.lift (Action.write text) >>= fun _ => x)
      (Action.write text >>= fun _ => y) := by
  intro s
  rw [run_bind_apply, run_lift_apply, run_lift_apply, Action.bind_apply]
  rcases hwrite : (Action.write text s : Option (Except GenerateError Unit × Session σ)) with
    _ | ⟨cause | _, u⟩
  · exact .inl rfl
  · exact .inl rfl
  · rw [← (Action.write_eq_some hwrite).1]
    rcases h u with hsame | hfault
    · exact .inl (hsame.trans (run_lift_apply y u))
    · exact .inr hfault

/-! ### The actions

With checks the actions are other actions, so each of them is compared with its counterpart. -/

/-- An action that goes on with a pick follows the other if it does so for every pick. -/
theorem follows_pick_bind {alternatives : List Form} {f : Nat → OptionT (Action σ) α}
    {g : Nat → Action σ α}
    (hnext : ∀ s index t, c.pick alternatives s = some (.ok index, t) →
      (f index).run t = (OptionT.lift (g index)).run t ∨
        c.Overshoots alternatives s.chooser index t.chooser ∧ (f index).run t = some (.ok none, t) ∧
          g index t = some (.error (.invalidSelection (Engine.optionNumber index)), t)) :
    Follows c (· = alternatives) (OptionT.lift (c.pick alternatives) >>= f)
      (c.pick alternatives >>= g) := by
  intro s
  rw [run_bind_apply, run_lift_apply, run_lift_apply, Action.bind_apply]
  rcases hpick : c.pick alternatives s with _ | ⟨cause | index, t⟩
  · exact .inl rfl
  · exact .inl rfl
  · rcases hnext s index t hpick with hsame | ⟨hovershoots, hfault⟩
    · exact .inl (hsame.trans (run_lift_apply (g index) t))
    · exact .inr ⟨alternatives, index, t, rfl, hovershoots, hfault⟩

theorem follows_select (c : Chooser σ) (alternatives : List Form) :
    Follows c (· = alternatives) (select c alternatives) (Engine.select c alternatives) := by
  -- the chooser is asked only if there are two alternatives or more
  rcases alternatives with _ | ⟨only, _ | ⟨second, rest⟩⟩
  · exact follows_lift c _ _
  · exact follows_lift c _ (pure only)
  refine follows_pick_bind fun s index t hpick => ?_
  have hanswer : c.answer (only :: second :: rest) s.chooser = some (.ok index, t.chooser) := by
    rcases Chooser.pick_eq_some hpick with h | ⟨-, fault, ⟨⟩⟩
    exact h
  unfold pickedFrom
  by_cases hrange : (only :: second :: rest).length ≤ index
  · have hnone : (only :: second :: rest)[index]? = none := List.getElem?_eq_none hrange
    simp only [hnone]
    rw [if_pos hrange]
    by_cases hnumber : index + 1 < Numeral.wordCount
    · rw [add_eq_some hnumber, of_some_bind, Engine.optionNumber_of_lt hnumber]
      exact .inl rfl
    · have htooLarge := Nat.not_lt.1 hnumber
      rw [add_eq_none htooLarge]
      exact .inr ⟨⟨by simp, hanswer, hrange, htooLarge⟩, rfl, rfl⟩
  · simp only [List.getElem?_eq_getElem (Nat.not_le.1 hrange)]
    rw [if_neg hrange]
    exact .inl rfl

theorem follows_choose (c : Chooser σ) (form : Form) (start length : Nat)
    (alternatives : List Form) :
    Follows c (· = alternatives) (choose c form start length alternatives)
      (Engine.choose c form start length alternatives) := by
  refine ((follows_select c alternatives).bind_lift fun chosen => ?_).write_bind _
  exact (OptionT.lift_bind (Action.write (Trace.choice start length chosen))
    fun _ => pure (Form.withoutEpsilon chosen)).symm

variable {e : Engine σ}

theorem follows_opening (e : Engine σ) :
    Follows e.chooser (e.Asks .opening) (opening e) e.opening := by
  unfold opening Engine.opening
  cases hrule : e.grammar.startRule? with
  | none => exact follows_lift e.chooser _ _
  | some rule =>
    have hchoose := follows_choose e.chooser [.start] 0 1 rule.alternatives
    have hlift : ∀ replacement, (pure (.working (.first replacement)) : OptionT (Action σ) Phase) =
        OptionT.lift (pure (.working (.first replacement))) := fun _ => rfl
    refine (hchoose.bind_lift hlift).mono ?_
    rintro _ several rfl
    exact .opening hrule several

/-- **A pass meets no other fault**, when the form is in memory and a step has been made. -/
theorem follows_advance {w : Work} (hform : w.form.InMemory) (hsteps : 1 ≤ w.steps.size) :
    Follows e.chooser (e.Asks (.working w)) (advance e w) (e.advance w) := by
  unfold advance Engine.advance
  rw [site_eq e.grammar hform, of_some_bind]
  cases hsite : e.grammar.site? w.form w.cursor with
  | some found =>
    have hfound := Grammar.site?_eq_some_iff.1 hsite
    have hspan := hfound.leftmost.occursAt.add_length_le
    simp only
    by_cases exceeded : e.exhausted w = true
    · rw [if_pos exceeded, if_pos exceeded, sub_eq_some hsteps, of_some_bind]
      exact follows_lift e.chooser _ _
    · rw [if_neg exceeded, if_neg exceeded]
      refine ((follows_choose e.chooser _ _ _ _).bind_lift fun replacement => ?_).mono ?_
      · rw [add_of_span hspan hform, of_some_bind, splice_of_span hspan, of_some_bind]
        rfl
      · rintro _ several rfl
        exact .working hfound (by simpa using exceeded) several
  | none =>
    simp only
    by_cases home : w.cursor = 0
    · rw [if_pos home, if_pos home]
      exact (follows_lift e.chooser _ _).write_bind _
    · rw [if_neg home, if_neg home]
      exact follows_lift e.chooser _ (pure { w with cursor := 0 })

theorem follows_pass {w : Work} (hform : w.form.InMemory) (hsteps : 1 ≤ w.steps.size) :
    Follows e.chooser (e.Asks (.working w)) (pass e w) (e.pass w) :=
  (follows_advance hform hsteps).bind_lift fun _ => rfl

/-! ### Runs -/

/-- At least the first step has been made in all work that is met. -/
theorem one_le_size_of_reaches {w : Work} (h : e.Reaches w) : 1 ≤ w.steps.size := by
  induction h with
  | first start mem => exact Nat.le_refl 1
  | advance reaches pass ih =>
    cases pass with
    | replace found allowed picks => simp [Work.replace]
    | reset nowhere moved => exact ih

/-- There is a fault in the pass that comes next in a run: the chooser, asked, picks too large an
index, and without checks the run ends there with the number that this index has. -/
def FaultsAt (e : Engine σ) (r : Run σ) : Prop :=
  ∃ alternatives index after, e.Asks r.phase alternatives ∧
    e.chooser.Overshoots alternatives r.session.chooser index after ∧
    (e.step r).phase = .ended (.error (.invalidSelection (Engine.optionNumber index)))

theorem step_of_follows {r : Run σ} {x : OptionT (Action σ) Phase} {y : Action σ Phase}
    (hx : next? e r.phase = some x) (hy : e.next? r.phase = some y)
    (h : Follows e.chooser (e.Asks r.phase) x y) :
    step e r = some (e.step r) ∨ step e r = none ∧ FaultsAt e r := by
  unfold FaultsAt
  rw [step, Engine.step, Engine.step?, hx, hy, Option.bind_some, Option.bind_some]
  rcases h r.session with hsame | ⟨alternatives, index, t, hasked, hovershoots, hrun, hfail⟩
  · rw [hsame, run_lift_apply]
    rcases y r.session with _ | ⟨cause | phase, t⟩ <;> exact .inl rfl
  · rw [hrun, hfail]
    exact .inr ⟨rfl, alternatives, index, _, hasked, hovershoots, rfl⟩

/-- A pass with checks leads where the pass leads, or there is a fault in it. -/
theorem step_eq {r : Run σ}
    (hwork : ∀ w, r.phase = .working w → w.form.InMemory ∧ 1 ≤ w.steps.size) :
    step e r = some (e.step r) ∨ step e r = none ∧ FaultsAt e r := by
  obtain ⟨phase, session⟩ := r
  cases phase with
  | opening => exact step_of_follows rfl rfl (follows_opening e)
  | working w =>
    obtain ⟨hform, hsteps⟩ := hwork w rfl
    exact step_of_follows rfl rfl (follows_pass hform hsteps)
  | ended result => exact .inl rfl

/-- A run with checks goes as the run does, or comes to a fault. -/
theorem run_eq {s : Session σ} {n : Nat}
    (hforms : ∀ m < n, ∀ w, (e.run m (Engine.start s)).phase = .working w → w.form.InMemory) :
    run e n (Engine.start s) = some (e.run n (Engine.start s)) ∨
      run e n (Engine.start s) = none ∧ ∃ m < n, FaultsAt e (e.run m (Engine.start s)) := by
  induction n with
  | zero => exact .inl rfl
  | succ n ih =>
    have hn : n < n + 1 := Nat.lt_succ_self n
    rw [run, Engine.run_succ]
    rcases ih fun m hm => hforms m (Nat.lt_trans hm hn) with hrun | ⟨hrun, m, hm, hfault⟩
    · have hwork : ∀ w, (e.run n (Engine.start s)).phase = .working w →
          w.form.InMemory ∧ 1 ≤ w.steps.size := fun w hw =>
        ⟨hforms n hn w hw, one_le_size_of_reaches (Engine.reaches_of_run hw)⟩
      rw [hrun, Option.bind_some]
      exact (step_eq hwork).imp_right fun ⟨hstep, hfault⟩ => ⟨hstep, n, hn, hfault⟩
    · rw [hrun]
      exact .inr ⟨rfl, m, Nat.lt_trans hm hn, hfault⟩

/-- **Runs are free of faults but for one.** As long as forms are in memory, no span leaves its
form, no alternative is looked up that is not there, and all differences and sums are words,
whatever the grammar, the limit and the chooser; unless the chooser, asked in this run, picks an
index that is refused and has no number. A word that is picked and names no alternative is refused
under its number, which is one more; but the largest word is refused under the number 0. -/
theorem run_faultless (e : Engine σ) (s : Session σ) :
    (∀ n, (∀ m < n, ∀ w, (e.run m (Engine.start s)).phase = .working w → w.form.InMemory) →
      run e n (Engine.start s) = some (e.run n (Engine.start s)) ∨
        run e n (Engine.start s) = none ∧ ∃ m < n, FaultsAt e (e.run m (Engine.start s))) ∧
    ∀ alternatives t u index, 2 ≤ alternatives.length →
      e.chooser.pick alternatives t = some (.ok index, u) → alternatives.length ≤ index →
        index < Numeral.wordCount →
          Engine.select e.chooser alternatives t =
            some (.error (.invalidSelection
              (if index = Numeral.lastWord then "0" else (index + 1).repr)), u) := by
  constructor
  · intro n hforms
    exact run_eq hforms
  · intro alternatives t u index several hpick hrange hindex
    rw [Engine.select_of_refused several hpick hrange, Engine.optionNumber_of_word hindex]

/-- A grammar with a production whose first alternative is empty. -/
def fading : Grammar where
  rules := [
    ⟨[.start], [[.nonterminal 'A'], [.terminal 'b']]⟩,
    ⟨[.nonterminal 'A'], [[], [.terminal 'c']]⟩]

theorem run_faultless_fading :
    run ⟨fading, .script, none⟩ 2 (Engine.start ⟨[0, 7], .empty none⟩) =
        some ((⟨fading, .script, none⟩ : Engine _).run 2 (Engine.start ⟨[0, 7], .empty none⟩)) ∧
      Engine.select .script [[], [.terminal 'c']] ⟨[7], .empty none⟩ =
        some (.error (.invalidSelection "8"), ⟨[], .empty none⟩) := by
  obtain ⟨hruns, hrefused⟩ :=
    run_faultless ⟨fading, .script, none⟩ ⟨[0, 7], .empty none⟩
  have hforms : ∀ m < 2, ∀ w, ((⟨fading, .script, none⟩ : Engine _).run m
      (Engine.start ⟨[0, 7], .empty none⟩)).phase = .working w → w.form.InMemory := by
    intro m hm w hw
    have hm : m = 0 ∨ m = 1 := by omega
    rcases hm with rfl | rfl
    · cases hw
    · obtain rfl : Work.first [.nonterminal 'A'] = w := Phase.working.inj hw
      show 1 < Numeral.wordCount
      decide
  constructor
  · rcases hruns 2 hforms with hrun | ⟨hrun, -⟩
    · exact hrun
    · cases hrun
  · exact hrefused _ _ _ 7 (by decide) rfl (by decide) (by decide)

/-- The largest word is picked, and refused under a number that is not the one of this option. -/
theorem run_lastWord :
    run ⟨fading, .script, none⟩ 1 (Engine.start ⟨[Numeral.lastWord], .empty none⟩) = none ∧
      ((⟨fading, .script, none⟩ : Engine _).run 1
          (Engine.start ⟨[Numeral.lastWord], .empty none⟩)).phase =
        .ended (.error (.invalidSelection "0")) ∧
      (Numeral.lastWord + 1).repr = "18446744073709551616" := by
  refine ⟨rfl, rfl, ?_⟩
  decide

end Checked

end PhraseGrammar
