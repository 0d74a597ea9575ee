import PhraseGrammar.Chooser
import PhraseGrammar.Derivation
import PhraseGrammar.Trace

/-!
# The derivation engine

The engine replaces the start symbol by an alternative of the start rule, and then makes passes.
A pass looks for the next place to replace from the cursor on. If there is one, the cursor goes
there and the span is replaced; if there is none, the search begins anew at the start of the form;
and if it was there already, the derivation is stuck. After each pass the derivation ends if no
nonterminal is left.

* `Engine`: a grammar, a chooser and a limit for the number of steps;
* `Work`, `Phase`, `Run`: the states between passes;
* `Engine.choose`, `Engine.opening`, `Engine.advance`, `Engine.pass`: what is done in a session;
* `Engine.step?`, `Engine.step`, `Engine.run`: single passes and several of them. A run that has
  ended stays as it is (`step_of_ended`, `run_of_ended`), and runs compose (`run_add`);
* `Engine.question?`: what is shown before an answer is awaited.
-/

namespace PhraseGrammar

/-- A grammar, a chooser for its alternatives and the largest number of steps allowed after the
first one. -/
structure Engine (σ : Type) where
  grammar : Grammar
  chooser : Chooser σ
  maxSteps : Option Nat

/-- A derivation on its way: the form, the place where the search goes on, and the steps so far. -/
structure Work where
  form : Form
  cursor : Nat
  steps : Array Step

/-- The work after the first step, which puts `replacement` in place of the start symbol. -/
def Work.first (replacement : Form) : Work where
  form := replacement
  cursor := 0
  steps := #[⟨0, 0, 1, replacement⟩]

/-- The work after a step: the span is replaced, and the cursor stands at its start. -/
def Work.replace (w : Work) (site : Site) (replacement : Form) : Work where
  form := Form.splice w.form site.start site.rule.pattern.length replacement
  cursor := site.start
  steps := w.steps.push ⟨site.index, site.start, site.rule.pattern.length, replacement⟩

/-- How far a derivation has come. -/
inductive Phase
  | opening
  | working (w : Work)
  | ended (result : Except GenerateError Derivation)

/-- A derivation in its session. -/
structure Run (σ : Type) where
  phase : Phase
  session : Session σ

namespace Engine

variable {σ : Type}

/-! ### What is done in a session -/

/-- The number of an option as an answer shows it: options count from 1 on, in 64-bit words. -/
def optionNumber (index : Nat) : String := ((index + 1) % UInt64.size).repr

/-- Settles on one of the alternatives. The chooser is asked only if there are several, and its
answer is checked. -/
def select (c : Chooser σ) : List Form → Action σ Form
  | [] => Action.fail .emptyAlternatives
  | [only] => pure only
  | alternatives => do
    let index ← c.pick alternatives
    match alternatives[index]? with
    | some chosen => pure chosen
    | none => Action.fail (.invalidSelection (optionNumber index))

/-- Shows the span, settles on an alternative and shows it. The replacement is the alternative
without its empty-word marks. -/
def choose (c : Chooser σ) (form : Form) (start length : Nat) (alternatives : List Form) :
    Action σ Form := do
  Action.write (Trace.heading form start length)
  let chosen ← select c alternatives
  Action.write (Trace.choice start length chosen)
  return Form.withoutEpsilon chosen

/-- The first step, which replaces the start symbol by an alternative of the start rule. It does
not end the derivation, even if it leaves no nonterminal. -/
def opening (e : Engine σ) : Action σ Phase :=
  match e.grammar.startRule? with
  | none => Action.fail .emptyGrammar
  | some rule => do
    let replacement ← choose e.chooser [.start] 0 1 rule.alternatives
    return .working (.first replacement)

/-- What follows a pass: the end, if no nonterminal is left, or the next pass. -/
def conclude (w : Work) : Action σ Phase :=
  if w.form.any Symbol.isNonterminal then pure (.working w)
  else do
    Action.write (Trace.final w.form)
    return .ended (.ok ⟨w.form, w.steps.toList⟩)

/-- Whether no further step is allowed. The first step is not counted. -/
def exhausted (e : Engine σ) (w : Work) : Bool :=
  match e.maxSteps with
  | none => false
  | some limit => limit < w.steps.size

/-- The search and what it leads to: the work after a step, or with the cursor back at the start of
the form. -/
def advance (e : Engine σ) (w : Work) : Action σ Work :=
  match e.grammar.site? w.form w.cursor with
  | some site =>
    if e.exhausted w then Action.fail (.stepLimitExceeded (w.steps.size - 1))
    else do
      let replacement ←
        choose e.chooser w.form site.start site.rule.pattern.length site.rule.alternatives
      return w.replace site replacement
  | none =>
    if w.cursor = 0 then do
      Action.write (Trace.form w.form)
      Action.fail (.stuckDerivation (Form.text w.form))
    else return { w with cursor := 0 }

/-- One pass. -/
def pass (e : Engine σ) (w : Work) : Action σ Phase := do
  conclude (← e.advance w)

/-! ### Runs -/

/-- What is done next; nothing follows the end. -/
def next? (e : Engine σ) : Phase → Option (Action σ Phase)
  | .opening => some e.opening
  | .working w => some (e.pass w)
  | .ended _ => none

/-- The run that an action leads to. -/
def settle : Except GenerateError Phase × Session σ → Run σ
  | (.ok phase, session) => ⟨phase, session⟩
  | (.error cause, session) => ⟨.ended (.error cause), session⟩

/-- The run after the next pass, if there is one: nothing follows the end, nor a question that is
never answered. -/
def step? (e : Engine σ) (r : Run σ) : Option (Run σ) :=
  (e.next? r.phase).bind fun act => (act r.session).map settle

/-- The run after the next pass. A run that has ended, or waits for ever, stays as it is. -/
def step (e : Engine σ) (r : Run σ) : Run σ := (e.step? r).getD r

/-- The run after at most so many passes. -/
def run (e : Engine σ) : Nat → Run σ → Run σ
  | 0, r => r
  | n + 1, r =>
    match e.step? r with
    | some r => e.run n r
    | none => r

/-- The start of a derivation. -/
def start (session : Session σ) : Run σ := ⟨.opening, session⟩

@[simp] theorem run_zero (e : Engine σ) (r : Run σ) : e.run 0 r = r := rfl

theorem run_of_step?_eq_none {e : Engine σ} {r : Run σ} (h : e.step? r = none) (n : Nat) :
    e.run n r = r := by
  cases n <;> simp [run, h]

theorem run_succ' (e : Engine σ) (n : Nat) (r : Run σ) :
    e.run (n + 1) r = e.run n (e.step r) := by
  cases h : e.step? r with
  | some r' => simp [run, step, h]
  | none => simp [run, step, h, run_of_step?_eq_none h]

theorem run_succ (e : Engine σ) (n : Nat) (r : Run σ) :
    e.run (n + 1) r = e.step (e.run n r) := by
  induction n generalizing r with
  | zero => simp [run_succ']
  | succ n ih => rw [run_succ', ih, ← run_succ']

theorem run_add (e : Engine σ) (m n : Nat) (r : Run σ) :
    e.run (m + n) r = e.run n (e.run m r) := by
  induction n with
  | zero => rfl
  | succ n ih => rw [← Nat.add_assoc, run_succ, ih, run_succ]

theorem step_of_ended {e : Engine σ} {r : Run σ} {result : Except GenerateError Derivation}
    (h : r.phase = .ended result) : e.step r = r := by
  simp [step, step?, next?, h]

theorem run_of_ended {e : Engine σ} {r : Run σ} {result : Except GenerateError Derivation}
    (h : r.phase = .ended result) (n : Nat) : e.run n r = r :=
  run_of_step?_eq_none (by simp [step?, next?, h]) n

/-- Two runs of one derivation that have both ended have ended alike. -/
theorem run_eq_of_ended {e : Engine σ} {r : Run σ} {m n : Nat}
    {a b : Except GenerateError Derivation} (hm : (e.run m r).phase = .ended a)
    (hn : (e.run n r).phase = .ended b) : e.run m r = e.run n r := by
  rcases Nat.le_total m n with h | h
  · obtain ⟨d, rfl⟩ := Nat.exists_eq_add_of_le h
    rw [run_add, run_of_ended hm]
  · obtain ⟨d, rfl⟩ := Nat.exists_eq_add_of_le h
    rw [run_add, run_of_ended hn]

/-! ### Questions -/

/-- What a choice writes before its answer is awaited, if the chooser is asked at all. -/
def question (c : Chooser σ) (form : Form) (start length : Nat) (alternatives : List Form) :
    Option String :=
  if 2 ≤ alternatives.length then some (Trace.heading form start length ++ c.prompt alternatives)
  else none

/-- What the next pass writes before it awaits an answer, if it awaits one. -/
def question? (e : Engine σ) : Phase → Option String
  | .opening => e.grammar.startRule?.bind fun rule =>
    question e.chooser [.start] 0 1 rule.alternatives
  | .working w => (e.grammar.site? w.form w.cursor).bind fun site =>
    if e.exhausted w then none
    else question e.chooser w.form site.start site.rule.pattern.length site.rule.alternatives
  | .ended _ => none

end Engine

end PhraseGrammar
