import PhraseGrammar.GenerateError
import PhraseGrammar.Stream

/-!
# Sessions and actions

A derivation talks to two things that keep a state: the chooser that settles its choices, and the
output that its trace is written to.

* `Session`: the two states;
* `Action`: what is done in a session. An action ends with a value or a cause of failure, or it
  waits for ever;
* `Action.bind_apply` and its companions say what the operations do to a session. Actions are a
  lawful monad;
* `Action.bind_eq_some` and its companions say how an action can have come to its end.
-/

namespace PhraseGrammar

/-- The state of the chooser and the output. -/
structure Session (σ : Type) where
  chooser : σ
  output : Stream

/-- What is done in a session; `none` when a choice that it waits for is never made. -/
def Action (σ α : Type) : Type := Session σ → Option (Except GenerateError α × Session σ)

namespace Action

variable {σ α β : Type}

/-- Does nothing and gives a value. -/
protected def pure (a : α) : Action σ α := fun s => some (.ok a, s)

/-- Does one action after another. What follows a failure is left out. -/
protected def bind (x : Action σ α) (f : α → Action σ β) : Action σ β := fun s =>
  match x s with
  | none => none
  | some (.error e, s) => some (.error e, s)
  | some (.ok a, s) => f a s

instance : Monad (Action σ) where
  pure := Action.pure
  bind := Action.bind

/-- Fails. -/
def fail (e : GenerateError) : Action σ α := fun s => some (.error e, s)

/-- Writes text to the output. -/
def write (text : String) : Action σ Unit := fun s =>
  let (result, output) := s.output.write text
  some (result.mapError .console, { s with output })

/-- Asks the chooser. -/
def ask (question : σ → Option (Except GenerateError α × σ)) : Action σ α := fun s =>
  (question s.chooser).map fun (result, chooser) => (result, { s with chooser })

@[simp] theorem pure_apply (a : α) (s : Session σ) : (pure a : Action σ α) s = some (.ok a, s) :=
  rfl

theorem bind_apply (x : Action σ α) (f : α → Action σ β) (s : Session σ) :
    (x >>= f) s =
      match x s with
      | none => none
      | some (.error e, s) => some (.error e, s)
      | some (.ok a, s) => f a s := rfl

@[simp] theorem fail_apply (e : GenerateError) (s : Session σ) :
    (fail e : Action σ α) s = some (.error e, s) := rfl

theorem map_apply (f : α → β) (x : Action σ α) (s : Session σ) :
    (f <$> x) s = (x s).map fun (result, t) => (result.map f, t) := by
  show (x >>= fun a => pure (f a)) s = _
  rw [bind_apply]
  rcases x s with _ | ⟨_ | _, _⟩ <;> rfl

instance : LawfulMonad (Action σ) :=
  .mk' (Action σ)
    (fun x => by
      funext s
      rw [map_apply]
      rcases x s with _ | ⟨_ | _, _⟩ <;> rfl)
    (fun _ _ => rfl)
    (fun x f g => by
      funext s
      simp only [bind_apply]
      rcases x s with _ | ⟨_ | _, _⟩ <;> rfl)

theorem bind_eq_some {x : Action σ α} {f : α → Action σ β} {s t : Session σ}
    {result : Except GenerateError β} :
    (x >>= f) s = some (result, t) ↔
      (∃ a u, x s = some (.ok a, u) ∧ f a u = some (result, t)) ∨
        ∃ cause, x s = some (.error cause, t) ∧ result = .error cause := by
  rw [bind_apply]
  rcases x s with _ | ⟨cause | a, u⟩
  · simp
  · constructor
    · rintro ⟨⟩
      exact .inr ⟨cause, rfl, rfl⟩
    · rintro (⟨a, v, ⟨⟩, -⟩ | ⟨_, ⟨⟩, rfl⟩)
      rfl
  · constructor
    · intro h
      exact .inl ⟨a, u, rfl, h⟩
    · rintro (⟨_, _, ⟨⟩, h⟩ | ⟨_, ⟨⟩, -⟩)
      exact h

/-- Writing leaves the chooser alone, and fails only for a fault of the output. -/
theorem write_eq_some {text : String} {s t : Session σ} {result : Except GenerateError Unit}
    (h : write text s = some (result, t)) :
    t.chooser = s.chooser ∧ ∀ cause, result = .error cause → ∃ fault, cause = .console fault := by
  simp only [write, Option.some.injEq, Prod.mk.injEq] at h
  obtain ⟨rfl, rfl⟩ := h
  refine ⟨rfl, fun cause hcause => ?_⟩
  cases hw : (s.output.write text).1 with
  | ok u => rw [hw] at hcause; cases hcause
  | error fault => rw [hw] at hcause; cases hcause; exact ⟨fault, rfl⟩

theorem ask_eq_some {question : σ → Option (Except GenerateError α × σ)} {s t : Session σ}
    {result : Except GenerateError α} (h : ask question s = some (result, t)) :
    question s.chooser = some (result, t.chooser) := by
  obtain ⟨⟨_, _⟩, hq, hr⟩ := Option.map_eq_some_iff.1 h
  cases hr
  exact hq

end Action

end PhraseGrammar
