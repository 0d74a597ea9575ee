import PhraseGrammar.Proofs.Progress
import PhraseGrammar.Proofs.Termination

/-!
# Grammars that use up their forms

Let every symbol have a weight. If each replacement leaves less than it takes away, then a form
bounds the number of replacements that can be made in it, wherever they are made and whatever is
chosen.

* `Form.weight`: the symbols of a form weighed together;
* `Grammar.Decreasing`: the productions make a form lighter. Then a derivation has at most as many
  steps as its first form has weight (`Decreasing.add_weight_le`);
* `Engine.Finishes.limit_cases`: a run that reports its limit has come to it, or its chooser has
  failed with this cause.

Main statement: `ends_of_decreasing`.
-/

namespace PhraseGrammar

/-- The weight of a form, all its symbols weighed together. -/
def Form.weight (weight : Symbol → Nat) (f : Form) : Nat := (f.map weight).sum

@[simp] theorem Form.weight_append (weight : Symbol → Nat) (f g : Form) :
    Form.weight weight (f ++ g) = Form.weight weight f + Form.weight weight g := by
  simp [Form.weight]

namespace Grammar

/-- Every production has an alternative, and all its alternatives are lighter than its pattern. -/
structure Decreasing (g : Grammar) (weight : Symbol → Nat) : Prop where
  nonempty : ∀ r ∈ g.rules.tail, r.alternatives ≠ []
  lighter : ∀ r ∈ g.rules.tail, ∀ a ∈ r.alternatives,
    (Form.withoutEpsilon a).weight weight < r.pattern.weight weight

instance (g : Grammar) (weight : Symbol → Nat) : Decidable (g.Decreasing weight) :=
  decidable_of_iff ((∀ r ∈ g.rules.tail, r.alternatives ≠ []) ∧ ∀ r ∈ g.rules.tail,
      ∀ a ∈ r.alternatives, (Form.withoutEpsilon a).weight weight < r.pattern.weight weight)
    ⟨fun h => ⟨h.1, h.2⟩, fun h => ⟨h.nonempty, h.lighter⟩⟩

namespace Decreasing

variable {g : Grammar} {weight : Symbol → Nat} (hg : g.Decreasing weight)
include hg

theorem weight_lt_of_produces {f f' : Form} (h : g.Produces f f') :
    f'.weight weight < f.weight weight := by
  obtain ⟨r, hr, a, ha, left, right, rfl, rfl⟩ := produces_iff.1 h
  have hlighter := hg.lighter r hr a ha
  simp only [Form.weight_append]
  omega

theorem add_weight_le {n : Nat} {f u : Form} (h : g.DerivesIn n f u) :
    n + u.weight weight ≤ f.weight weight := by
  induction h with
  | refl f => exact (Nat.zero_add _).le
  | head first rest ih =>
    have hlt := hg.weight_lt_of_produces first
    omega

/-- Where a production occurs there is some weight left. -/
theorem weight_pos {f : Form} {offset : Nat} (h : g.OccursFrom f offset) :
    0 < f.weight weight := by
  obtain ⟨index, r, production, i, -, hoccurs⟩ := h
  obtain ⟨left, right, rfl, -⟩ := hoccurs.exists_eq_append
  have hr := mem_tail_iff.2 ⟨index, production⟩
  obtain ⟨a, ha⟩ := List.exists_mem_of_ne_nil _ (hg.nonempty r hr)
  have hlighter := hg.lighter r hr a ha
  simp only [Form.weight_append]
  omega

end Decreasing

end Grammar

namespace Engine

variable {σ : Type} {e : Engine σ} {s : Session σ} {weight : Symbol → Nat}

/-- A run that reports its limit has found a place when the limit had been reached, or the chooser
has given this cause of failure. -/
theorem Finishes.limit_cases {steps : Nat} {t : Session σ}
    (h : e.Finishes s (.error (.stepLimitExceeded steps)) t) :
    (∃ n w u site, e.run n (start s) = ⟨.working w, u⟩ ∧ e.exhausted w = true ∧
        e.grammar.IsSite w.form w.cursor site) ∨ e.Declines s (.stepLimitExceeded steps) := by
  rcases h.exists_failure with hopening | ⟨n, w, u, hrun, hpass⟩
  · have hbegins := begins_of_opening hopening
    generalize t.chooser = after at hbegins
    cases hbegins with
    | declined start picks =>
      cases picks with
      | refused several answer => exact .inr ⟨_, _, 0, .opening start several, answer⟩
  · have hadvances := pass_eq_error hpass
    generalize t.chooser = after at hadvances
    cases hadvances with
    | limit found exceeded => exact .inl ⟨n, w, u, _, hrun, exceeded, found⟩
    | @declined site _ _ found allowed picks =>
      cases picks with
      | refused several answer =>
        refine .inr ⟨site.rule.alternatives, after, n, ?_⟩
        rw [hrun]
        exact ⟨.working found allowed several, answer⟩

section Decreasing

variable (hg : e.grammar.Decreasing weight) {w₀ : Work} {t₀ : Session σ}
  (hfirst : e.Arrives s 0 w₀ t₀)
include hg hfirst

theorem add_weight_le_of_arrives {k : Nat} {w : Work} {t : Session σ} (h : e.Arrives s k w t) :
    k + w.form.weight weight ≤ w₀.form.weight weight := by
  obtain ⟨w', t', hfirst', hderives⟩ := h.exists_derivesIn
  obtain ⟨rfl, -⟩ := hfirst.unique hfirst'
  exact hg.add_weight_le hderives

/-- For each search that finds a place there is some weight left. -/
theorem lt_weight_of_finds {k : Nat} (h : e.Finds s k) : k < w₀.form.weight weight := by
  obtain ⟨v, t, harrives, hoccurs, -⟩ := h.exists_arrives
  have hle := add_weight_le_of_arrives hg hfirst harrives
  have hpos := hg.weight_pos hoccurs
  omega

end Decreasing

/-- **Grammars that use up their forms finish**, whatever is chosen. If the first step leads to a
form of weight `W`, then the replacements after it and the weight that is left come to at most `W`
together. So a limit of `W` steps or more changes nothing, and it is not reported, unless the
chooser itself claims so. Without any limit a run ends, if its questions are answered. -/
theorem ends_of_decreasing {weight : Symbol → Nat} (g : Grammar) (hg : g.Decreasing weight)
    (c : Chooser σ) (s : Session σ) :
    (∀ limit w₀ t₀, Arrives ⟨g, c, limit⟩ s 0 w₀ t₀ →
        ∀ k w t, Arrives ⟨g, c, limit⟩ s k w t →
          k + w.form.weight weight ≤ w₀.form.weight weight) ∧
      (∀ w₀ t₀ m, (unbounded g c).Arrives s 0 w₀ t₀ → w₀.form.weight weight ≤ m →
        (∀ n, (bounded g c m).run n (start s) = (unbounded g c).run n (start s)) ∧
          ∀ steps, (bounded g c m).Ends s (.error (.stepLimitExceeded steps)) →
            (bounded g c m).Declines s (.stepLimitExceeded steps)) ∧
      ((unbounded g c).Answered s → ∃ result t, (unbounded g c).Finishes s result t) := by
  refine ⟨?_, ?_, ?_⟩
  · intro limit w₀ t₀ hfirst k w t h
    exact add_weight_le_of_arrives hg hfirst h
  · intro w₀ t₀ m hfirst hm
    refine ⟨run_bounded_of_not_finds fun hfinds => ?_, fun steps hends => ?_⟩
    · have hlt := lt_weight_of_finds hg hfirst hfinds
      omega
    · obtain ⟨t, ht⟩ := ends_iff.1 hends
      rcases ht.limit_cases with ⟨n, w, u, site, hrun, hexhausted, found⟩ | hdeclines
      · -- the search that comes to the limit has as much weight behind it as there was
        have hsize : m < w.steps.size := by simpa [exhausted, bounded] using hexhausted
        have hfinds : (bounded g c m).Finds s (w.steps.size - 1) :=
          ⟨n, w, u, site, hrun, by omega, found⟩
        have hfirst' := arrives_bounded_iff.2 ⟨Nat.zero_le m, hfirst⟩
        have hlt := lt_weight_of_finds hg hfirst' hfinds
        omega
      · exact hdeclines
  · intro hanswered
    by_cases hfirst : ∃ w₀ t₀, (unbounded g c).Arrives s 0 w₀ t₀
    · obtain ⟨w₀, t₀, hfirst⟩ := hfirst
      have hbound : ∀ k w t, (unbounded g c).Arrives s k w t → k ≤ w₀.form.weight weight :=
        fun k w t h => Nat.le_of_add_right_le (add_weight_le_of_arrives hg hfirst h)
      exact hanswered.exists_finishes hbound
    · -- a run that does not get past its first step makes no other one
      have hbound : ∀ k w t, (unbounded g c).Arrives s k w t → k ≤ 0 := by
        intro k w t h
        obtain ⟨w₀, t₀, hfirst', -⟩ := h.exists_derivesIn
        exact absurd ⟨w₀, t₀, hfirst'⟩ hfirst
      exact hanswered.exists_finishes hbound

/-- A grammar with a pattern of two nonterminals, and with a production that removes its letter. -/
def fading : Grammar where
  rules := [
    ⟨[.start], [[.nonterminal 'A', .nonterminal 'B', .nonterminal 'B']]⟩,
    ⟨[.nonterminal 'A', .nonterminal 'B'], [[.terminal 'b', .nonterminal 'A'], [.epsilon]]⟩,
    ⟨[.nonterminal 'A'], [[.epsilon], [.terminal 'a']]⟩,
    ⟨[.nonterminal 'B'], [[.epsilon]]⟩]

/-- With one unit for each nonterminal the bound is met: three replacements are made in `ABB`. -/
theorem ends_of_decreasing_fading :
    fading.Decreasing (fun x => x.isNonterminal.toNat) ∧
      ∃ w₀ t₀, (unbounded fading .script).Arrives ⟨[0, 0, 1], .empty none⟩ 0 w₀ t₀ ∧
        w₀.form.weight (fun x => x.isNonterminal.toNat) = 3 ∧
        (∃ w t, (unbounded fading .script).Arrives ⟨[0, 0, 1], .empty none⟩ 3 w t) ∧
        (∀ k w t, (unbounded fading .script).Arrives ⟨[0, 0, 1], .empty none⟩ k w t →
          k + w.form.weight (fun x => x.isNonterminal.toNat) ≤ 3) ∧
        (∀ n, (bounded fading .script 3).run n (start ⟨[0, 0, 1], .empty none⟩) =
          (unbounded fading .script).run n (start ⟨[0, 0, 1], .empty none⟩)) ∧
        ∃ result t, (unbounded fading .script).Finishes ⟨[0, 0, 1], .empty none⟩ result t := by
  have hg : fading.Decreasing (fun x => x.isNonterminal.toNat) := by decide
  have hanswered : (unbounded fading .script).Answered ⟨[0, 0, 1], .empty none⟩ :=
    answered_of_responds Chooser.responds_script _
  obtain ⟨hweight, hlimit, hends⟩ := ends_of_decreasing fading hg .script ⟨[0, 0, 1], .empty none⟩
  have hfirst : (unbounded fading .script).Arrives ⟨[0, 0, 1], .empty none⟩ 0
      (.first [.nonterminal 'A', .nonterminal 'B', .nonterminal 'B'])
      ((unbounded fading .script).run 1 (start ⟨[0, 0, 1], .empty none⟩)).session := .first rfl
  obtain ⟨halike, -⟩ := hlimit _ _ 3 hfirst (by decide)
  exact ⟨hg, _, _, hfirst, rfl, ⟨_, _, .later (n := 3) rfl rfl rfl rfl⟩,
    hweight none _ _ hfirst, halike, hends hanswered⟩

end Engine

end PhraseGrammar
