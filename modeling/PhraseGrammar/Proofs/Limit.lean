import Mathlib.Data.Set.Card
import PhraseGrammar.Proofs.Halting

/-!
# The limit for the number of steps

A run with a limit is the run without one, until the search finds a place for one replacement too
many.

* `Engine.Finds`, `Engine.findCount`: the searches of a run that find a place;
* `Engine.unbounded`, `Engine.bounded`: engines for the same grammar and chooser that differ in the
  limit only;
* `Engine.Exceeds`: what the limit forbids. Up to there the two engines go on alike
  (`run_bounded`).

Main statement: `limit_exact`.
-/

namespace PhraseGrammar.Engine

variable {σ : Type} {s : Session σ}

/-! ### Searches that find a place -/

section Finds

variable {e : Engine σ}

/-- In the run that begins in session `s`, the search finds a place when `k` replacements have been
made after the first one. -/
def Finds (e : Engine σ) (s : Session σ) (k : Nat) : Prop :=
  ∃ n w t site, e.run n (start s) = ⟨.working w, t⟩ ∧ w.steps.size = k + 1 ∧
    e.grammar.IsSite w.form w.cursor site

/-- How many searches of the run find a place. Each of them has another number of replacements
behind it (`run_eq_of_found`). -/
noncomputable def findCount (e : Engine σ) (s : Session σ) : ℕ∞ := {k | e.Finds s k}.encard

/-- The replacement that a search has led to. -/
theorem Finds.exists_arrives {k : Nat} (h : e.Finds s k) :
    ∃ v t, e.Arrives s k v t ∧ e.grammar.OccursFrom v.form 0 ∧
      (k = 0 ∨ v.form.any Symbol.isNonterminal = true) := by
  obtain ⟨n, w, t, site, hrun, hsize, found⟩ := h
  obtain ⟨k', v, harrives, hv, hleft⟩ := arrives_of_run hrun
  obtain rfl : k' = k := by
    rw [hv.steps_eq, harrives.size_eq] at hsize
    omega
  obtain ⟨index, rule, hrule, hoccurs⟩ := found.occursFrom
  rw [hv.form_eq] at hoccurs hleft
  exact ⟨v, t, harrives, ⟨index, rule, hrule, hoccurs.mono (Nat.zero_le _)⟩, hleft⟩

/-- Before a replacement its place has been found. -/
theorem finds_of_arrives {k : Nat} {w : Work} {t : Session σ} (h : e.Arrives s (k + 1) w t) :
    e.Finds s k := by
  cases h with
  | @later n k v w u t run advance before after =>
    obtain ⟨site, found⟩ := exists_isSite_of_advance advance (by omega)
    exact ⟨n, v, u, site, run, before, found⟩

theorem Finds.of_le {j k : Nat} (h : e.Finds s k) (hjk : j ≤ k) : e.Finds s j := by
  induction hjk with
  | refl => exact h
  | step hjk ih =>
    obtain ⟨v, t, harrives, -, -⟩ := h.exists_arrives
    exact ih (finds_of_arrives harrives)

theorem lt_findCount_iff {m : Nat} : m < e.findCount s ↔ e.Finds s m := by
  constructor
  · intro hlt
    by_contra hm
    have hsub : {k | e.Finds s k} ⊆ (Finset.range m : Set Nat) := by
      intro k hk
      rw [Finset.mem_coe, Finset.mem_range]
      by_contra hmk
      exact hm (Finds.of_le hk (Nat.not_lt.1 hmk))
    have hle := Set.encard_le_encard hsub
    rw [Set.encard_coe_eq_coe_finsetCard, Finset.card_range] at hle
    exact absurd hlt (not_lt.2 hle)
  · intro hm
    have hsub : (Finset.range (m + 1) : Set Nat) ⊆ {k | e.Finds s k} := by
      intro k hk
      rw [Finset.mem_coe, Finset.mem_range] at hk
      exact hm.of_le (Nat.lt_succ_iff.1 hk)
    have hle := Set.encard_le_encard hsub
    rw [Set.encard_coe_eq_coe_finsetCard, Finset.card_range] at hle
    exact lt_of_lt_of_le (by exact_mod_cast Nat.lt_succ_self m) hle

theorem findCount_le_iff {m : Nat} : e.findCount s ≤ m ↔ ¬ e.Finds s m := by
  rw [← lt_findCount_iff, not_lt]

/-- Where a derivation is stuck, no search finds a place. -/
theorem StuckAt.not_finds {k : Nat} {w : Work} {t : Session σ} (h : e.StuckAt s k w t) :
    ¬ e.Finds s k := by
  intro hfinds
  obtain ⟨v, u, harrives, hoccurs, -⟩ := hfinds.exists_arrives
  obtain ⟨rfl, -⟩ := harrives.unique h.arrives
  exact h.nowhere hoccurs

/-- After the last step of a derivation there is no search. -/
theorem Finishes.not_finds {d : Derivation} {t : Session σ} (h : e.Finishes s (.ok d) t) {k : Nat}
    (hk : d.steps.length = k + 1) : ¬ e.Finds s k := by
  intro hfinds
  obtain ⟨v, u, harrives, -, hleft⟩ := hfinds.exists_arrives
  obtain ⟨k', w, u', hpos, hlast, hany, rfl⟩ := h.arrives
  obtain rfl : k' = k := by
    rw [Array.length_toList, hlast.size_eq] at hk
    omega
  obtain ⟨rfl, -⟩ := harrives.unique hlast
  rcases hleft with rfl | hleft
  · cases hpos
  · rw [hany] at hleft
    cases hleft

end Finds

/-! ### Two engines -/

/-- The engine that makes any number of steps. -/
def unbounded (g : Grammar) (c : Chooser σ) : Engine σ := ⟨g, c, none⟩

/-- The engine that makes at most `m` steps after the first one. -/
def bounded (g : Grammar) (c : Chooser σ) (m : Nat) : Engine σ := ⟨g, c, some m⟩

variable {g : Grammar} {c : Chooser σ} {m : Nat}

/-- The search finds a place for one replacement too many. -/
def Exceeds (g : Grammar) (m : Nat) : Phase → Prop
  | .working w => m < w.steps.size ∧ ∃ site, g.IsSite w.form w.cursor site
  | _ => False

theorem exists_work_of_exceeds {r : Run σ} (h : Exceeds g m r.phase) :
    ∃ w t, r = ⟨.working w, t⟩ ∧ Exceeds g m (.working w) := by
  obtain ⟨_ | w | _, t⟩ := r
  · cases h
  · exact ⟨w, t, rfl, h⟩
  · cases h

theorem advance_bounded {w : Work} (h : ¬ Exceeds g m (.working w)) :
    (bounded g c m).advance w = (unbounded g c).advance w := by
  simp only [advance, bounded, unbounded]
  cases hsite : g.site? w.form w.cursor with
  | none => rfl
  | some site =>
    have hle : ¬ m < w.steps.size := fun hlt => h ⟨hlt, site, Grammar.site?_eq_some_iff.1 hsite⟩
    simp [exhausted, hle]

theorem advance_bounded_of_exceeds {w : Work} (h : Exceeds g m (.working w)) (t : Session σ) :
    (bounded g c m).advance w t = some (.error (.stepLimitExceeded (w.steps.size - 1)), t) := by
  obtain ⟨hlt, site, found⟩ := h
  simp [advance, bounded, Grammar.site?_eq_some_iff.2 found, exhausted, hlt]

/-- The chooser is not asked about a replacement that is not allowed. -/
theorem question?_of_exceeds {w : Work} (h : Exceeds g m (.working w)) :
    (bounded g c m).question? (.working w) = none := by
  obtain ⟨hlt, -⟩ := h
  simp [question?, bounded, exhausted, hlt]

/-- As long as the limit forbids nothing, the two engines go on alike. -/
theorem step_bounded {r : Run σ} (h : ¬ Exceeds g m r.phase) :
    (bounded g c m).step r = (unbounded g c).step r := by
  obtain ⟨phase, t⟩ := r
  cases phase with
  | opening => rfl
  | working w => simp only [step, step?, next?, pass, advance_bounded h]
  | ended result => rfl

theorem step_bounded_of_exceeds {w : Work} {t : Session σ} (h : Exceeds g m (.working w)) :
    (bounded g c m).step ⟨.working w, t⟩ =
      ⟨.ended (.error (.stepLimitExceeded (w.steps.size - 1))), t⟩ := by
  have hpass : (bounded g c m).pass w t =
      some (.error (.stepLimitExceeded (w.steps.size - 1)), t) :=
    Action.bind_eq_some.2 (.inr ⟨_, advance_bounded_of_exceeds h t, rfl⟩)
  rw [step_of_pass hpass]
  rfl

theorem run_bounded {n : Nat}
    (h : ∀ i < n, ¬ Exceeds g m ((unbounded g c).run i (start s)).phase) :
    (bounded g c m).run n (start s) = (unbounded g c).run n (start s) := by
  induction n with
  | zero => rfl
  | succ n ih =>
    rw [run_succ, run_succ, ih fun i hi => h i (Nat.lt_succ_of_lt hi)]
    exact step_bounded (h n (Nat.lt_succ_self n))

/-- A run with a limit goes on like the run without one, until it ends. -/
theorem run_bounded_eq_or_ended (n : Nat) :
    (bounded g c m).run n (start s) = (unbounded g c).run n (start s) ∨
      ∃ result, ((bounded g c m).run n (start s)).phase = .ended result := by
  induction n with
  | zero => exact .inl rfl
  | succ n ih =>
    rw [run_succ, run_succ]
    rcases ih with heq | ⟨result, hended⟩
    · rw [heq]
      by_cases hexceeds : Exceeds g m ((unbounded g c).run n (start s)).phase
      · obtain ⟨w, t, hr, hw⟩ := exists_work_of_exceeds hexceeds
        rw [hr, step_bounded_of_exceeds hw]
        exact .inr ⟨_, rfl⟩
      · exact .inl (step_bounded hexceeds)
    · exact .inr ⟨result, by rw [step_of_ended hended, hended]⟩

/-- The run goes on alike up to work with few steps. -/
theorem run_bounded_of_size_le {n : Nat} {w : Work} {t : Session σ}
    (hrun : (unbounded g c).run n (start s) = ⟨.working w, t⟩) (hsize : w.steps.size ≤ m) :
    (bounded g c m).run n (start s) = ⟨.working w, t⟩ := by
  rw [← hrun]
  refine run_bounded fun i hi hexceeds => ?_
  obtain ⟨v, u, hr, hlt, -⟩ := exists_work_of_exceeds hexceeds
  have hle := size_le_of_run (Nat.le_of_lt hi) hr hrun
  omega

theorem finds_of_exceeds {i : Nat} (h : Exceeds g m ((unbounded g c).run i (start s)).phase) :
    (unbounded g c).Finds s m := by
  obtain ⟨w, t, hr, hlt, site, found⟩ := exists_work_of_exceeds h
  have hfinds : (unbounded g c).Finds s (w.steps.size - 1) :=
    ⟨i, w, t, site, hr, by omega, found⟩
  exact hfinds.of_le (by omega)

/-- Without a search that exceeds the limit, the limit does nothing. -/
theorem run_bounded_of_not_finds (h : ¬ (unbounded g c).Finds s m) (n : Nat) :
    (bounded g c m).run n (start s) = (unbounded g c).run n (start s) :=
  run_bounded fun _ _ hexceeds => h (finds_of_exceeds hexceeds)

/-- The first search that exceeds the limit. -/
theorem exists_first_exceeds (h : (unbounded g c).Finds s m) :
    ∃ n w t, (unbounded g c).run n (start s) = ⟨.working w, t⟩ ∧ w.steps.size = m + 1 ∧
      Exceeds g m (.working w) ∧
      ∀ i < n, ¬ Exceeds g m ((unbounded g c).run i (start s)).phase := by
  classical
  have hexists : ∃ n, ∃ w t site, (unbounded g c).run n (start s) = ⟨.working w, t⟩ ∧
      w.steps.size = m + 1 ∧ g.IsSite w.form w.cursor site := h
  obtain ⟨w, t, site, hrun, hsize, found⟩ := Nat.find_spec hexists
  refine ⟨Nat.find hexists, w, t, hrun, hsize, ⟨by omega, site, found⟩, ?_⟩
  intro i hi hexceeds
  -- the steps do not get fewer, so this search has as many behind it
  obtain ⟨v, u, hr, hlt, site', found'⟩ := exists_work_of_exceeds hexceeds
  have hle := size_le_of_run (Nat.le_of_lt hi) hr hrun
  exact Nat.find_min hexists hi ⟨v, u, site', hr, by omega, found'⟩

theorem arrives_bounded_iff {k : Nat} {w : Work} {t : Session σ} :
    (bounded g c m).Arrives s k w t ↔ k ≤ m ∧ (unbounded g c).Arrives s k w t := by
  constructor
  · intro h
    cases h with
    | first opening => exact ⟨Nat.zero_le m, .first opening⟩
    | @later n k v w u t run advance before after =>
      have hallowed : ¬ Exceeds g m (.working v) := by
        intro hexceeds
        rw [advance_bounded_of_exceeds hexceeds] at advance
        cases advance
      obtain ⟨site, found⟩ := exists_isSite_of_advance advance (by omega)
      have hle : ¬ m < v.steps.size := fun hlt => hallowed ⟨hlt, site, found⟩
      rw [advance_bounded hallowed] at advance
      rcases run_bounded_eq_or_ended n with heq | ⟨result, hended⟩
      · rw [heq] at run
        exact ⟨by omega, .later run advance before after⟩
      · rw [run] at hended
        cases hended
  · rintro ⟨hk, h⟩
    cases h with
    | first opening => exact .first opening
    | @later n k v w u t run advance before after =>
      have hsize : v.steps.size ≤ m := by omega
      have hallowed : ¬ Exceeds g m (.working v) := fun hexceeds => absurd hexceeds.1 (by omega)
      rw [← advance_bounded hallowed] at advance
      exact .later (run_bounded_of_size_le run hsize) advance before after

/-- **The limit only cuts a run off, at the exact place.** If the run without a limit finds a place
at most `m` times, the limit `m` changes nothing. Otherwise the run with the limit goes on alike up
to the search that comes after the first `m` replacements; there it asks nothing, and it ends with
`m` as the number of steps, in the session that the last replacement has led to. To the output of
that session the run without the limit only adds. Derivations with `m` replacements, and those that
are stuck after `m` replacements, are still within the limit. -/
theorem limit_exact (g : Grammar) (c : Chooser σ) (m : Nat) (s : Session σ) :
    ((unbounded g c).findCount s ≤ m →
        ∀ n, (bounded g c m).run n (start s) = (unbounded g c).run n (start s)) ∧
      (m < (unbounded g c).findCount s →
        ∃ n w t, (unbounded g c).Arrives s m w t ∧
          ((unbounded g c).run n (start s)).session = t ∧
          (∀ i ≤ n, (bounded g c m).run i (start s) = (unbounded g c).run i (start s)) ∧
          (bounded g c m).question? ((bounded g c m).run n (start s)).phase = none ∧
          (bounded g c m).run (n + 1) (start s) = ⟨.ended (.error (.stepLimitExceeded m)), t⟩ ∧
          ∀ j, n ≤ j → t.output.Extends ((unbounded g c).run j (start s)).session.output) ∧
      (∀ k w t, (bounded g c m).Arrives s k w t ↔ k ≤ m ∧ (unbounded g c).Arrives s k w t) ∧
      (∀ d t, (unbounded g c).Finishes s (.ok d) t → d.steps.length ≤ m + 1 →
        (bounded g c m).Finishes s (.ok d) t) ∧
      ∀ k w t, k ≤ m → s.output.Unlimited → (unbounded g c).StuckAt s k w t →
        (bounded g c m).Ends s (.error (.stuckDerivation (Form.text w.form))) := by
  refine ⟨?_, ?_, fun k w t => arrives_bounded_iff, ?_, ?_⟩
  · intro hle
    exact run_bounded_of_not_finds (findCount_le_iff.1 hle)
  · intro hlt
    obtain ⟨n, w, t, hrun, hsize, hexceeds, hbefore⟩ :=
      exists_first_exceeds (lt_findCount_iff.1 hlt)
    obtain ⟨k, v, harrives, hv, -⟩ := arrives_of_run hrun
    obtain rfl : k = m := by
      have hsteps := harrives.size_eq
      rw [← hv.steps_eq] at hsteps
      omega
    have halike : ∀ i ≤ n, (bounded g c k).run i (start s) = (unbounded g c).run i (start s) := by
      intro i hi
      exact run_bounded fun j hj => hbefore j (Nat.lt_of_lt_of_le hj hi)
    refine ⟨n, v, t, harrives, by rw [hrun], halike, ?_, ?_, ?_⟩
    · rw [halike n (Nat.le_refl n), hrun]
      exact question?_of_exceeds hexceeds
    · rw [run_succ, halike n (Nat.le_refl n), hrun, step_bounded_of_exceeds hexceeds, hsize,
        Nat.add_sub_cancel]
    · intro j hj
      have hextends := (unbounded g c).run_extends_of_le (start s) hj
      rwa [hrun] at hextends
  · intro d t hfinishes hlength
    have hpos : 0 < d.steps.length := by
      obtain ⟨k, w, u, -, harrives, -, rfl⟩ := hfinishes.arrives
      simp [harrives.size_eq]
    have hnot := hfinishes.not_finds (k := d.steps.length - 1) (by omega)
    obtain ⟨n, hn⟩ := hfinishes
    refine ⟨n, ?_⟩
    rw [run_bounded_of_not_finds (fun hm => hnot (hm.of_le (by omega))), hn]
  · intro k w t hk hs hstuck
    obtain ⟨t', ⟨n, hn⟩, -⟩ := finishes_of_stuckAt hs hstuck
    refine ⟨n, ?_⟩
    rw [run_bounded_of_not_finds (fun hm => hstuck.not_finds (hm.of_le hk)), hn]

/-- The derivation of `wandered` has three replacements after the first one: a limit of three
leaves it alone, and a limit of two cuts it off. -/
theorem limit_exact_wandering :
    (∃ t, (bounded wandering .script 3).Finishes ⟨[1, 1, 0], .empty none⟩ (.ok wandered) t) ∧
      2 < (unbounded wandering .script).findCount ⟨[1, 1, 0], .empty none⟩ ∧
      ∃ t, (bounded wandering .script 2).Finishes ⟨[1, 1, 0], .empty none⟩
        (.error (.stepLimitExceeded 2)) t := by
  have hfree : (unbounded wandering .script).Finishes ⟨[1, 1, 0], .empty none⟩ (.ok wandered)
      ((unbounded wandering .script).run 5 (start ⟨[1, 1, 0], .empty none⟩)).session := ⟨5, rfl⟩
  have hfinds : (unbounded wandering .script).Finds ⟨[1, 1, 0], .empty none⟩ 2 :=
    ⟨4, _, _, ⟨3, _, 0⟩, rfl, rfl, Grammar.site?_eq_some_iff.1 rfl⟩
  have hcount := lt_findCount_iff.2 hfinds
  obtain ⟨-, -, -, hkept, -⟩ := limit_exact wandering .script 3 ⟨[1, 1, 0], .empty none⟩
  obtain ⟨-, hcut, -⟩ := limit_exact wandering .script 2 ⟨[1, 1, 0], .empty none⟩
  obtain ⟨n, -, t, -, -, -, -, hended, -⟩ := hcut hcount
  exact ⟨⟨_, hkept _ _ hfree (by decide)⟩, hcount, t, n + 1, hended⟩

end PhraseGrammar.Engine
