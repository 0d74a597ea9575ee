import Mathlib.Order.Interval.Finset.Nat
import PhraseGrammar.Proofs.Capacity
import PhraseGrammar.Proofs.Chronicle

/-!
# Bounded derivations end

A pass that makes no step moves the cursor back to the start of the form, where the next pass makes
a step or ends the derivation. So a run whose questions are answered goes on only as long as it
makes steps, and every step uses up some of what there is: of the number of steps that are allowed,
or of the room that the output has.

* `Chooser.Responds`, `Engine.Answered`: all questions are answered. Only for an answer does a pass
  wait (`exists_asks_of_eq_none`), and so a run ends or makes its next pass (`Answered.step_cases`);
* `Engine.Paced`: how many steps so many passes have made (`Answered.paced`). A bound for the steps
  bounds the passes (`Answered.passCount_le`, `Answered.exists_finishes`);
* `Stream.Within`: an output that holds at most so many bytes. Every step fills some of them
  (`le_size_story`).

Main statement: `ends_of_bounded`.
-/

namespace PhraseGrammar

variable {σ α β : Type}

/-- Every question is answered, if only with a cause of failure. -/
def Chooser.Responds (c : Chooser σ) : Prop :=
  ∀ alternatives before, c.answer alternatives before ≠ none

theorem Chooser.responds_script : script.Responds := by
  rintro alternatives (_ | ⟨index, rest⟩) ⟨⟩

/-! ### Passes that are made -/

namespace Action

theorem bind_eq_none {x : Action σ α} {f : α → Action σ β} {s : Session σ}
    (h : (x >>= f) s = none) :
    x s = none ∨ ∃ a t, x s = some (.ok a, t) ∧ f a t = none := by
  rw [bind_apply] at h
  rcases hx : x s with _ | ⟨cause | a, t⟩
  · exact .inl rfl
  · rw [hx] at h
    cases h
  · rw [hx] at h
    exact .inr ⟨a, t, rfl, h⟩

/-- Writing never waits. -/
theorem bind_write_eq_none {text : String} {x : Action σ α} {s : Session σ}
    (h : (write text >>= fun _ => x) s = none) : ∃ t, t.chooser = s.chooser ∧ x t = none := by
  rcases bind_eq_none h with hwrite | ⟨_, t, hwrite, hx⟩
  · simp [write] at hwrite
  · exact ⟨t, (write_eq_some hwrite).1, hx⟩

end Action

namespace Engine

open PhraseGrammar.Action

variable {e : Engine σ} {s : Session σ}

/-- Every question of the run that begins in session `s` is answered, if only with a cause of
failure. -/
def Answered (e : Engine σ) (s : Session σ) : Prop :=
  ∀ n alternatives, e.Asks (e.run n (start s)).phase alternatives →
    e.chooser.answer alternatives (e.run n (start s)).session.chooser ≠ none

theorem answered_of_responds (h : e.chooser.Responds) (s : Session σ) : e.Answered s :=
  fun _ alternatives _ => h alternatives _

/-- What is done next waits for ever only when its question is not answered. -/
theorem accord_responds (e : Engine σ) (phase : Phase) :
    Accord .identity e e phase
      (fun {_ _} _ _ y => ∀ s, y s = none → ∃ alternatives, e.Asks phase alternatives ∧
        e.chooser.answer alternatives s.chooser = none)
      (fun {_ _} _ _ y => ∀ s, y s ≠ none) where
  pure _ b s := by rintro ⟨⟩
  fail _ cause s := by rintro ⟨⟩
  write _ _ s := by rintro ⟨⟩
  bind hx hf s h := by
    rcases bind_eq_none h with h | ⟨b, t, -, h⟩
    · exact hx s h
    · exact hf b t h
  quiet hy s h := absurd h (hy s)
  question {form start length alternatives} hposes s h := by
    obtain ⟨t, ht, hpick⟩ := bind_write_eq_none h
    obtain ⟨u, hu, hask⟩ := bind_write_eq_none hpick
    rw [← ht, ← hu]
    exact ⟨alternatives, hposes.asks, Option.map_eq_none_iff.1 hask⟩
  asking_bind hx hf s h := by
    rcases bind_eq_none h with h | ⟨b, t, -, h⟩
    · exact hx s h
    · exact absurd h (hf b t)

/-- A pass waits for ever only if it asks a question that is not answered. -/
theorem exists_asks_of_eq_none {phase : Phase} {act : Action σ Phase}
    (hnext : e.next? phase = some act) (h : act s = none) :
    ∃ alternatives, e.Asks phase alternatives ∧
      e.chooser.answer alternatives s.chooser = none := by
  obtain ⟨_, -, hact⟩ := (accord_responds e phase).next? (carries_identity _ _ _ _ _) hnext
  exact hact s h

/-- A pass makes a step, or it moves the cursor back to the start of the form. -/
theorem size_of_advance {v w : Work} {t : Session σ} (h : e.advance v s = some (.ok w, t)) :
    w.steps.size = v.steps.size + 1 ∨
      (w.steps.size = v.steps.size ∧ v.cursor ≠ 0 ∧ w.cursor = 0) := by
  rcases advance_eq_ok h with ⟨site, replacement, -, -, rfl⟩ | ⟨-, moved, rfl, -⟩
  · exact .inl (by simp [Work.replace])
  · exact .inr ⟨rfl, moved, rfl⟩

namespace Answered

variable (h : e.Answered s)
include h

/-- A run whose questions are answered has ended, or it makes its next pass. -/
theorem step_cases (n : Nat) :
    (∃ result, (e.run n (start s)).phase = .ended result) ∨
      ∃ act outcome, e.next? (e.run n (start s)).phase = some act ∧
        act (e.run n (start s)).session = some outcome ∧
        e.run (n + 1) (start s) = settle outcome := by
  cases hnext : e.next? (e.run n (start s)).phase with
  | none =>
    generalize (e.run n (start s)).phase = phase at hnext
    cases phase with
    | opening => cases hnext
    | working w => cases hnext
    | ended result => exact .inl ⟨result, rfl⟩
  | some act =>
    cases houtcome : act (e.run n (start s)).session with
    | none =>
      obtain ⟨alternatives, hasks, hanswer⟩ := exists_asks_of_eq_none hnext houtcome
      exact absurd hanswer (h n alternatives hasks)
    | some outcome =>
      refine .inr ⟨act, outcome, rfl, houtcome, ?_⟩
      simp [run_succ, step, step?, hnext, houtcome]

/-- From work the run goes on by a pass. -/
theorem advance_eq_ok {n : Nat} {v w : Work} {u t : Session σ}
    (hn : e.run n (start s) = ⟨.working v, u⟩)
    (hnext : e.run (n + 1) (start s) = ⟨.working w, t⟩) :
    e.advance v u = some (.ok w, t) := by
  rcases h.step_cases n with ⟨result, hended⟩ | ⟨act, ⟨result, t'⟩, hact, houtcome, hrun⟩
  · rw [hn] at hended
    cases hended
  · rw [hn] at hact houtcome
    cases hact
    rw [hnext] at hrun
    cases result with
    | error cause => cases hrun
    | ok phase =>
      cases hrun
      exact (pass_eq_working.1 houtcome).1

/-- Of two passes in a row at least one makes a step. -/
theorem size_lt {n : Nat} {v w : Work} (hv : (e.run n (start s)).phase = .working v)
    (hw : (e.run (n + 2) (start s)).phase = .working w) : v.steps.size < w.steps.size := by
  have hfirst := Run.eq_mk hv
  have hlast := Run.eq_mk hw
  cases hbetween : (e.run (n + 1) (start s)).phase with
  | opening =>
    rw [run_succ] at hbetween
    rw [step_eq_of_opening hbetween, hv] at hbetween
    cases hbetween
  | ended result =>
    rw [run_succ, step_of_ended hbetween, hbetween] at hw
    cases hw
  | working x =>
    have hrun := Run.eq_mk hbetween
    rcases size_of_advance (h.advance_eq_ok hfirst hrun) with hx | ⟨hx, -, home⟩
    · rcases size_of_advance (h.advance_eq_ok hrun hlast) with hw | ⟨hw, -, -⟩ <;> omega
    · rcases size_of_advance (h.advance_eq_ok hrun hlast) with hw | ⟨-, moved, -⟩
      · omega
      · exact absurd home moved

end Answered

/-! ### Passes and steps -/

/-- How many steps `n` passes have made, if none of them waits. A pass that makes no step leaves the
cursor at the start of the form. -/
def Paced (n : Nat) : Phase → Prop
  | .opening => n = 0
  | .working w => n + 1 ≤ 2 * w.steps.size ∧ (w.cursor ≠ 0 → n + 2 ≤ 2 * w.steps.size)
  | .ended _ => True

theorem Answered.paced (h : e.Answered s) (n : Nat) : Paced n (e.run n (start s)).phase := by
  induction n with
  | zero => rfl
  | succ n ih =>
    rcases h.step_cases n with ⟨result, hended⟩ | ⟨act, ⟨result, t⟩, hnext, houtcome, hrun⟩
    · rw [run_succ, step_of_ended hended, hended]
      trivial
    rw [hrun]
    cases result with
    | error cause => trivial
    | ok phase =>
      rcases next?_eq_some hnext with ⟨hphase, rfl⟩ | ⟨v, hphase, rfl⟩
      · obtain ⟨rule, replacement, -, -, rfl⟩ := opening_eq_ok houtcome
        rw [hphase] at ih
        obtain rfl : n = 0 := ih
        exact ⟨Nat.le_refl _, fun hcursor => absurd rfl hcursor⟩
      · rw [hphase] at ih
        obtain ⟨hle, hmoved⟩ := ih
        obtain ⟨w, u, hadvance, ⟨-, rfl⟩ | ⟨-, rfl⟩⟩ := pass_eq_ok houtcome
        · rcases size_of_advance hadvance with hsize | ⟨hsize, moved, home⟩
          · exact ⟨by omega, fun _ => by omega⟩
          · have hmore := hmoved moved
            exact ⟨by omega, fun hcursor => absurd home hcursor⟩
        · trivial

/-- How many passes the run makes after the first step. -/
noncomputable def passCount (e : Engine σ) (s : Session σ) : ℕ∞ :=
  {n | ∃ w, (e.run n (start s)).phase = .working w}.encard

section Bounded

variable {bound : Nat} (h : e.Answered s)
  (hbound : ∀ k w t, e.Arrives s k w t → k ≤ bound)
include hbound

theorem size_le_of_arrives_le {n : Nat} {w : Work}
    (hw : (e.run n (start s)).phase = .working w) : w.steps.size ≤ bound + 1 := by
  obtain ⟨k, v, harrives, hv, -⟩ := arrives_of_run (Run.eq_mk hw)
  have hle := hbound _ _ _ harrives
  rw [hv.steps_eq, harrives.size_eq]
  omega

include h

theorem Answered.passCount_le : e.passCount s ≤ 2 * bound + 1 := by
  have hsub : {n | ∃ w, (e.run n (start s)).phase = .working w} ⊆
      (Finset.Icc 1 (2 * bound + 1) : Set Nat) := by
    rintro n ⟨w, hw⟩
    have hpaced := h.paced n
    rw [hw] at hpaced
    have hsize := size_le_of_arrives_le hbound hw
    have hpos : n ≠ 0 := by
      rintro rfl
      cases hw
    have hle := hpaced.1
    rw [Finset.mem_coe, Finset.mem_Icc]
    omega
  have hle := Set.encard_le_encard hsub
  rw [Set.encard_coe_eq_coe_finsetCard, Nat.card_Icc] at hle
  exact_mod_cast hle

/-- A run that makes only so many steps comes to its end. -/
theorem Answered.exists_finishes : ∃ result t, e.Finishes s result t := by
  have hpaced := h.paced (2 * bound + 2)
  cases hphase : (e.run (2 * bound + 2) (start s)).phase with
  | opening =>
    rw [hphase] at hpaced
    cases hpaced
  | working w =>
    rw [hphase] at hpaced
    have hsize := size_le_of_arrives_le hbound hphase
    have hle := hpaced.1
    omega
  | ended result => exact ⟨result, _, 2 * bound + 2, by rw [← hphase]⟩

end Bounded

/-! ### Limits -/

theorem Arrives.le_of_limit {m k : Nat} {w : Work} {t : Session σ} (h : e.Arrives s k w t)
    (hm : e.maxSteps = some m) : k ≤ m := by
  obtain ⟨decisions, hlength, hrecounts⟩ := h.exists_trail
  have hle := hrecounts.trail.length_le hm
  omega

end Engine

/-! ### Room -/

/-- An output that holds all bytes it has taken, and that takes at most `n`. -/
structure Stream.Within (n : Nat) (s : Stream) : Prop where
  cutoff : ∃ fault, s.refusal = cutoff n fault
  taken_eq : s.taken = s.written.size
  size_le : s.written.size ≤ n

theorem Stream.Within.write {n : Nat} {s : Stream} (h : s.Within n) (text : String) :
    (s.write text).2.Within n := by
  obtain ⟨⟨fault, hcutoff⟩, htaken, hsize⟩ := h
  unfold Stream.write
  generalize text.toUTF8 = bytes
  by_cases hfits : s.written.size + bytes.size ≤ n
  · have hwrite : s.writeBytes bytes =
        (.ok (), ⟨s.written ++ bytes, s.taken + bytes.size, s.refusal⟩) := by
      simp [writeBytes, hcutoff, Stream.cutoff, htaken, hfits]
    have hmore : (s.written ++ bytes).size = s.taken + bytes.size := by
      rw [ByteArray.size_append, htaken]
    rw [hwrite]
    exact ⟨⟨fault, hcutoff⟩, hmore.symm, by rw [hmore]; omega⟩
  · have hne : bytes.isEmpty = false := by
      rw [ByteArray.isEmpty, beq_eq_false_iff_ne]
      omega
    have hwrite : s.writeBytes bytes = (.error fault, ⟨s.written ++ bytes.extract 0 (n - s.taken),
        s.taken + min (n - s.taken) bytes.size, s.refusal⟩) := by
      simp [writeBytes, hcutoff, Stream.cutoff, htaken, hfits, hne]
    have hmore : (s.written ++ bytes.extract 0 (n - s.taken)).size =
        s.taken + min (n - s.taken) bytes.size := by
      rw [ByteArray.size_append, ByteArray.size_extract, Nat.sub_zero, htaken]
    rw [hwrite]
    exact ⟨⟨fault, hcutoff⟩, hmore.symm, by rw [hmore]; omega⟩

/-! ### Steps and bytes -/

theorem size_append (a b : String) : (a ++ b).toUTF8.size = a.toUTF8.size + b.toUTF8.size := by
  simp [ByteArray.size_append]

/-- Every step writes a line of dashes, and more. -/
theorem Decision.le_size_told {g : Grammar} (prompt : List Form → String) (f : Form)
    (δ : Decision g) : 47 ≤ (δ.told prompt f).toUTF8.size := by
  have hdashes : (Trace.times Trace.width '-' ++ "\n").toUTF8.size = 47 := by decide +kernel
  simp only [told, Trace.heading, Trace.form, size_append] at hdashes ⊢
  omega

theorem le_size_story {g : Grammar} (prompt : List Form → String) (f : Form)
    (decisions : List (Decision g)) :
    47 * decisions.length ≤ (story prompt f decisions).toUTF8.size := by
  induction decisions generalizing f with
  | nil => exact Nat.zero_le _
  | cons δ rest ih =>
    have hfirst := δ.le_size_told prompt f
    have hrest := ih (δ.step.apply f)
    rw [story, size_append, List.length_cons]
    omega

namespace Engine

variable {e : Engine σ} {s : Session σ}

/-- On an output with room for `n` bytes no more than `n / 47` steps are completed. -/
theorem Arrives.le_of_within {n k : Nat} {w : Work} {t : Session σ} (h : e.Arrives s k w t)
    (hs : s.output.Within n) : k + 1 ≤ n / 47 := by
  obtain ⟨decisions, hlength, hrecounts⟩ := h.exists_trail
  have hstory := le_size_story e.chooser.prompt [.start] decisions
  have hgains := congrArg ByteArray.size hrecounts.gains
  rw [ByteArray.size_append] at hgains
  have ht := (h.keeps (fun _ text hs => hs.write text) hs).size_le
  rw [Nat.le_div_iff_mul_le (by decide)]
  omega

/-- **A derivation ends when something is bounded**, whatever the grammar, if its questions are
answered. Of two passes in a row at least one makes a step. With a limit of `m` steps there are at
most `2 * m + 1` passes, and so the derivation ends. On an output that takes `n` bytes and then
fails it ends too, with a limit or without, and at most `n / 47` steps are completed. -/
theorem ends_of_bounded (e : Engine σ) (s : Session σ) (h : e.Answered s) :
    (∀ n v w, (e.run n (start s)).phase = .working v →
        (e.run (n + 2) (start s)).phase = .working w → v.steps.size < w.steps.size) ∧
      (∀ m, e.maxSteps = some m →
        e.passCount s ≤ 2 * m + 1 ∧ ∃ result t, e.Finishes s result t) ∧
      ∀ n fault, s.output = ⟨.empty, 0, Stream.cutoff n fault⟩ →
        (∃ result t, e.Finishes s result t) ∧
          ∀ k w t, e.Arrives s k w t → k + 1 ≤ n / 47 := by
  refine ⟨fun n v w => h.size_lt, ?_, ?_⟩
  · intro m hm
    have hsteps : ∀ k w t, e.Arrives s k w t → k ≤ m :=
      fun k w t harrives => harrives.le_of_limit hm
    exact ⟨h.passCount_le hsteps, h.exists_finishes hsteps⟩
  · intro n fault hs
    have hwithin : s.output.Within n := by
      rw [hs]
      exact ⟨⟨fault, rfl⟩, rfl, Nat.zero_le n⟩
    have hsteps : ∀ k w t, e.Arrives s k w t → k + 1 ≤ n / 47 :=
      fun k w t harrives => harrives.le_of_within hwithin
    have hbound : ∀ k w t, e.Arrives s k w t → k ≤ n / 47 :=
      fun k w t harrives => Nat.le_of_succ_le (hsteps k w t harrives)
    exact ⟨h.exists_finishes hbound, hsteps⟩

/-- A grammar whose derivations never end by themselves. The production at the end of the form is
applied first, and after each of its steps the search goes back. -/
def circling : Grammar where
  rules := [
    ⟨[.start], [[.nonterminal 'B', .nonterminal 'A']]⟩,
    ⟨[.nonterminal 'A'], [[.nonterminal 'C'], [.terminal 'a']]⟩,
    ⟨[.nonterminal 'B', .nonterminal 'C'], [[.nonterminal 'B', .nonterminal 'A']]⟩]

/-- Three passes are made within a limit of one step: a step, a search from the end of the form, and
the search that finds a place for the second step. -/
theorem ends_of_bounded_circling :
    (∃ w, ((bounded circling .script 1).run 3 (start ⟨[0, 0, 0], .empty none⟩)).phase =
        .working w) ∧
      (bounded circling .script 1).passCount ⟨[0, 0, 0], .empty none⟩ ≤ 2 * 1 + 1 ∧
      (∃ result t, (bounded circling .script 1).Finishes ⟨[0, 0, 0], .empty none⟩ result t) ∧
      ∃ result t, (unbounded circling .script).Finishes (roomFor 400 .outputFull [0, 0, 0, 0, 0])
        result t := by
  have hanswered (e : Engine (List Nat)) (hscript : e.chooser = .script) (s) : e.Answered s :=
    answered_of_responds (hscript ▸ Chooser.responds_script) s
  obtain ⟨-, hlimit, -⟩ := ends_of_bounded (bounded circling .script 1) _ (hanswered _ rfl _)
  obtain ⟨-, -, hroom⟩ := ends_of_bounded (unbounded circling .script)
    (roomFor 400 .outputFull [0, 0, 0, 0, 0]) (hanswered _ rfl _)
  obtain ⟨hpasses, hends⟩ := hlimit 1 rfl
  exact ⟨⟨_, rfl⟩, hpasses, hends, (hroom 400 .outputFull rfl).1⟩

end Engine

end PhraseGrammar
