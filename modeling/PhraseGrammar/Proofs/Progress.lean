import PhraseGrammar.Proofs.ContextFree
import PhraseGrammar.Proofs.Limit

/-!
# How a run goes on

On an output that takes all bytes, a run that has come to some form goes on with the place that the
search finds, if the limit allows it and the choice is settled.

* `Grammar.NextSite`: the place that is replaced next. There is one when something occurs in the
  form (`exists_nextSite`);
* `Engine.exists_arrives_first`, `Engine.Arrives.next`: the first replacement and the next one;
* `Engine.finishes_of_limit`: a run that comes to its limit;
* `Engine.Arrives.exists_derivesIn`, `Engine.derivesIn_of_arrives`: the replacements of a run are a
  derivation with as many steps.
-/

namespace PhraseGrammar

/-! ### Places -/

namespace Grammar

variable {g : Grammar} {w : Work} {site : Site}

/-- Where the next replacement is made: the search begins at the cursor, and only if nothing occurs
from there on, at the start of the form. -/
def NextSite (g : Grammar) (w : Work) (site : Site) : Prop :=
  g.IsSite w.form w.cursor site ∨ (¬ g.OccursFrom w.form w.cursor ∧ g.IsSite w.form 0 site)

theorem OccursFrom.exists_isSite {form : Form} {offset : Nat} (h : g.OccursFrom form offset) :
    ∃ site, g.IsSite form offset site := by
  cases hsite : g.site? form offset with
  | none => exact absurd h (site?_eq_none_iff.1 hsite)
  | some site => exact ⟨site, site?_eq_some_iff.1 hsite⟩

theorem exists_nextSite (h : g.OccursFrom w.form 0) : ∃ site, g.NextSite w site := by
  by_cases hoccurs : g.OccursFrom w.form w.cursor
  · obtain ⟨site, found⟩ := hoccurs.exists_isSite
    exact ⟨site, .inl found⟩
  · obtain ⟨site, found⟩ := h.exists_isSite
    exact ⟨site, .inr ⟨hoccurs, found⟩⟩

theorem NextSite.exists_isSite (h : g.NextSite w site) : ∃ offset, g.IsSite w.form offset site := by
  rcases h with found | ⟨-, found⟩
  · exact ⟨w.cursor, found⟩
  · exact ⟨0, found⟩

/-- What stands to the left and to the right of the place. -/
theorem NextSite.exists_split (h : g.NextSite w site) : site.rule ∈ g.rules.tail ∧
    ∃ left right, w.form = left ++ site.rule.pattern ++ right ∧
      ∀ replacement, (w.replace site replacement).form = left ++ replacement ++ right := by
  obtain ⟨offset, found⟩ := h.exists_isSite
  obtain ⟨left, right, hform, hleft⟩ := found.leftmost.occursAt.exists_eq_append
  refine ⟨mem_tail_iff.2 ⟨_, found.production⟩, left, right, hform, fun replacement => ?_⟩
  rw [Work.replace, hform, ← hleft, Form.splice_append]

/-- Where something can be produced a production occurs. -/
theorem ContextFree.occursFrom_of_produces (hg : g.ContextFree) {form u : Form}
    (h : g.Produces form u) : g.OccursFrom form 0 := by
  obtain ⟨r, hr, a, -, left, right, rfl, -⟩ := produces_iff.1 h
  obtain ⟨letter, hpattern⟩ := hg.single r hr
  obtain ⟨index, production⟩ := mem_tail_iff.1 hr
  have hne : r.pattern ≠ [] := by simp [hpattern]
  exact ⟨index, r, production, left.length, Nat.zero_le _, hne, right, by simp⟩

end Grammar

/-! ### Replacements -/

namespace Engine

variable {σ : Type} {e : Engine σ} {s : Session σ} {k : Nat} {w : Work} {t : Session σ}

/-- What a replacement has been made in. -/
theorem Arrives.exists_previous (h : e.Arrives s (k + 1) w t) :
    ∃ v u, e.Arrives s k v u ∧ e.grammar.Produces v.form w.form := by
  cases h with
  | @later n _ v _ u _ run advance before after =>
    obtain ⟨j, v', harrives, hv, -⟩ := arrives_of_run run
    obtain rfl : j = k := by
      have hsize := harrives.size_eq
      rw [← hv.steps_eq] at hsize
      omega
    refine ⟨v', u, harrives, ?_⟩
    rw [← hv.form_eq]
    rcases advance_eq_ok advance with ⟨site, replacement, found, hchoose, rfl⟩ | ⟨-, -, rfl, -⟩
    · obtain ⟨chosen, picks, rfl⟩ := choose_eq_ok hchoose
      exact ⟨_, rewrites_of_isSite found picks.mem⟩
    · -- moving the cursor adds no step
      simp only at after
      omega

/-- The replacements after the first one are a derivation, with as many steps. -/
theorem Arrives.exists_derivesIn (h : e.Arrives s k w t) :
    ∃ w₀ t₀, e.Arrives s 0 w₀ t₀ ∧ e.grammar.DerivesIn k w₀.form w.form := by
  induction k generalizing w t with
  | zero => exact ⟨w, t, h, .refl _⟩
  | succ k ih =>
    obtain ⟨v, u, harrives, hproduces⟩ := h.exists_previous
    obtain ⟨w₀, t₀, hfirst, hderives⟩ := ih harrives
    exact ⟨w₀, t₀, hfirst, hderives.snoc hproduces⟩

/-- The replacements of a run are a derivation from an alternative of the start rule. -/
theorem derivesIn_of_arrives (h : e.Arrives s k w t) : ∃ rule alternative,
    e.grammar.startRule? = some rule ∧ alternative ∈ rule.alternatives ∧
      e.grammar.DerivesIn k (Form.withoutEpsilon alternative) w.form := by
  obtain ⟨w₀, t₀, hfirst, hderives⟩ := h.exists_derivesIn
  cases hfirst with
  | first opening =>
    obtain ⟨rule, replacement, hrule, hchoose, heq⟩ := opening_eq_ok opening
    obtain ⟨chosen, picks, rfl⟩ := choose_eq_ok hchoose
    cases heq
    exact ⟨rule, chosen, hrule, picks.mem, hderives⟩

/-- The search that finds the next place. -/
theorem Arrives.exists_found (h : e.Arrives s k w t)
    (hany : k = 0 ∨ w.form.any Symbol.isNonterminal = true) {site : Site}
    (hnext : e.grammar.NextSite w site) :
    ∃ n cursor, e.run n (start s) = ⟨.working { w with cursor }, t⟩ ∧
      e.grammar.IsSite w.form cursor site := by
  obtain ⟨n, cursor, hrun, ⟨rfl, hoccurs⟩ | ⟨rfl, hnowhere⟩⟩ := h.exists_search hany
  · rcases hnext with found | ⟨hnowhere, -⟩
    · exact ⟨n, _, hrun, found⟩
    · exact absurd hoccurs hnowhere
  · rcases hnext with found | ⟨-, found⟩
    · exact absurd found.occursFrom hnowhere
    · exact ⟨n, _, hrun, found⟩

section Unlimited

variable (hs : s.output.Unlimited)
include hs

theorem exists_arrives_first {rule : Rule} (hrule : e.grammar.startRule? = some rule)
    {chosen : Form} {after : σ}
    (picks : Picks e.chooser rule.alternatives s.chooser (.ok chosen) after) :
    ∃ t, e.Arrives s 0 (.first (Form.withoutEpsilon chosen)) t ∧ t.chooser = after := by
  obtain ⟨t, hchoose, ht⟩ := choose_of_picks hs picks [.start] 0 1
  refine ⟨t, .first ?_, ht⟩
  simp only [opening, hrule]
  exact Action.bind_eq_some.2 (.inl ⟨_, t, hchoose, rfl⟩)

/-- The next replacement. -/
theorem Arrives.next (h : e.Arrives s k w t)
    (hany : k = 0 ∨ w.form.any Symbol.isNonterminal = true) {site : Site}
    (hnext : e.grammar.NextSite w site) (allowed : e.exhausted w = false) {chosen : Form}
    {after : σ} (picks : Picks e.chooser site.rule.alternatives t.chooser (.ok chosen) after) :
    ∃ u, e.Arrives s (k + 1) (w.replace site (Form.withoutEpsilon chosen)) u ∧
      u.chooser = after := by
  obtain ⟨n, cursor, hrun, found⟩ := h.exists_found hany hnext
  obtain ⟨u, hchoose, hu⟩ := choose_of_picks (hs.of_extends h.extends) picks w.form site.start
    site.rule.pattern.length
  have hexhausted : e.exhausted { w with cursor } = false := allowed
  have hadvance : e.advance { w with cursor } t =
      some (.ok (w.replace site (Form.withoutEpsilon chosen)), u) := by
    simp only [advance, Grammar.site?_eq_some_iff.2 found, hexhausted]
    exact Action.bind_eq_some.2 (.inl ⟨_, u, hchoose, rfl⟩)
  refine ⟨u, .later hrun hadvance h.size_eq ?_, hu⟩
  simp [Work.replace, h.size_eq]

end Unlimited

/-- A run that finds a place when its limit has been reached. -/
theorem finishes_of_limit {g : Grammar} {c : Chooser σ} {m : Nat}
    (h : (bounded g c m).Arrives s m w t)
    (hany : m = 0 ∨ w.form.any Symbol.isNonterminal = true) (hoccurs : g.OccursFrom w.form 0) :
    (bounded g c m).Finishes s (.error (.stepLimitExceeded m)) t := by
  obtain ⟨site, hnext⟩ := Grammar.exists_nextSite hoccurs
  obtain ⟨n, cursor, hrun, found⟩ := h.exists_found hany hnext
  have hsize : w.steps.size = m + 1 := h.size_eq
  have hexceeds : Exceeds g m (.working { w with cursor }) :=
    ⟨by simp only [hsize]; omega, site, found⟩
  refine ⟨n + 1, ?_⟩
  rw [run_succ, hrun, step_bounded_of_exceeds hexceeds]
  simp [hsize]

end Engine

end PhraseGrammar
