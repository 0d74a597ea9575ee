import PhraseGrammar.Proofs.Confinement
import PhraseGrammar.Proofs.Progress

/-!
# Nothing is lost of a context-free grammar

The engine decides by itself where the next replacement is made; only what is put there can be
chosen. A derivation in any order of its own is turned into one in the engine's order: the place
that the engine comes to next is replaced somewhere in that derivation, so it can be replaced first,
by the same alternative (`DerivesIn.exists_first`), and what is left has one replacement less.

* `Grammar.Yields`: a derivation that may use the start rule at any time. In a grammar that has been
  read it never can (`WellFormed.yields_iff`);
* `Engine.Leads`: the right answers lead the engine to some work. They can be prepared one
  replacement after another (`Leads.next`), since the engine asks for nothing in between;
* `Leads.exists_terminal`: a derivation of a form without nonterminals is one that the engine can be
  led through.

Main statement: `exists_answers_iff_yields`.
-/

namespace PhraseGrammar

/-! ### Derivations with all rules -/

namespace Grammar

variable {g : Grammar} {f f' u : Form}

/-- Rules are applied one after another, at any places. The start rule is one of them. -/
def Yields (g : Grammar) : Form → Form → Prop :=
  Relation.ReflTransGen fun f f' => ∃ r ∈ g.rules, r.Replaces f f'

theorem WellFormed.start_not_mem (hwell : g.WellFormed) {r : Rule} (hr : r ∈ g.rules) {a : Form}
    (ha : a ∈ r.alternatives) : Symbol.start ∉ Form.withoutEpsilon a := by
  intro hstart
  obtain ⟨hmem, hepsilon⟩ := Form.mem_withoutEpsilon.1 hstart
  cases ((hwell.hasAlternatives r hr).2 a ha).isLetter hmem hepsilon

/-- Without the start symbol there is nothing to do for the start rule, and no other rule brings the
start symbol back. -/
theorem WellFormed.produces_of_replaces (hwell : g.WellFormed) (hf : Symbol.start ∉ f) {r : Rule}
    (hr : r ∈ g.rules) (h : r.Replaces f f') : g.Produces f f' ∧ Symbol.start ∉ f' := by
  obtain ⟨a, ha, left, right, rfl, rfl⟩ := h
  have hstart := hwell.start_not_mem hr ha
  simp only [List.mem_append, not_or] at hf
  refine ⟨produces_iff.2 ⟨r, ?_, a, ha, left, right, rfl, rfl⟩, by simp [hf, hstart]⟩
  rcases g with ⟨_ | ⟨first, rest⟩⟩
  · cases hr
  · rcases List.mem_cons.1 hr with rfl | hrest
    · rw [hwell.1.1] at hf
      exact absurd (List.mem_singleton_self _) hf.1.2
    · exact hrest

theorem WellFormed.yields_iff (hwell : g.WellFormed) (hf : Symbol.start ∉ f) :
    g.Yields f u ↔ g.Derives f u := by
  constructor
  · intro h
    have hboth : g.Derives f u ∧ Symbol.start ∉ u := by
      induction h with
      | refl => exact ⟨.refl, hf⟩
      | tail rest last ih =>
        obtain ⟨hderives, hstart⟩ := ih
        obtain ⟨r, hr, hreplaces⟩ := last
        obtain ⟨hproduces, hnext⟩ := hwell.produces_of_replaces hstart hr hreplaces
        exact ⟨hderives.tail hproduces, hnext⟩
    exact hboth.1
  · intro h
    refine Relation.ReflTransGen.mono (fun f f' hproduces => ?_) _ _ h
    obtain ⟨r, hr, hreplaces⟩ := produces_iff.1 hproduces
    exact ⟨r, List.mem_of_mem_tail hr, hreplaces⟩

end Grammar

theorem Form.any_withoutEpsilon (f : Form) :
    (withoutEpsilon f).any Symbol.isNonterminal = f.any Symbol.isNonterminal := by
  rw [Bool.eq_iff_iff, List.any_eq_true, List.any_eq_true]
  constructor
  · rintro ⟨x, hx, hnonterminal⟩
    exact ⟨x, (mem_withoutEpsilon.1 hx).1, hnonterminal⟩
  · rintro ⟨x, hx, hnonterminal⟩
    refine ⟨x, mem_withoutEpsilon.2 ⟨hx, ?_⟩, hnonterminal⟩
    rintro rfl
    cases hnonterminal

/-! ### The engine's order -/

namespace Engine

variable {g : Grammar} {output : Stream} {k n : Nat} {w : Work} {word : Form}

/-- There are answers for any choice; none are needed if there is nothing to choose. -/
theorem exists_picks_script {alternatives : List Form} {chosen : Form}
    (h : chosen ∈ alternatives) :
    ∃ answers, ∀ rest, Picks .script alternatives (answers ++ rest) (.ok chosen) rest := by
  by_cases several : 2 ≤ alternatives.length
  · obtain ⟨index, hindex⟩ := List.mem_iff_getElem?.1 h
    exact ⟨[index], fun rest => .asked several rfl hindex⟩
  · have hone : alternatives.length = 1 := by
      have hpos := List.length_pos_of_mem h
      omega
    obtain ⟨only, rfl⟩ := List.length_eq_one_iff.1 hone
    obtain rfl := List.mem_singleton.1 h
    exact ⟨[], fun rest => .only rfl⟩

/-- Certain answers lead to the work `w`, with `k` replacements after the first one. Further answers
are left over. -/
def Leads (g : Grammar) (output : Stream) (k : Nat) (w : Work) : Prop :=
  ∃ answers, ∀ rest, ∃ t,
    (unbounded g .script).Arrives ⟨answers ++ rest, output⟩ k w t ∧ t.chooser = rest

section Unlimited

variable (hout : output.Unlimited)
include hout

theorem leads_first {rule : Rule} (hrule : g.startRule? = some rule) {chosen : Form}
    (hmem : chosen ∈ rule.alternatives) :
    Leads g output 0 (.first (Form.withoutEpsilon chosen)) := by
  obtain ⟨answers, hpicks⟩ := exists_picks_script hmem
  refine ⟨answers, fun rest => ?_⟩
  exact exists_arrives_first hout (e := unbounded g .script) hrule (hpicks rest)

/-- The answers for the next replacement come after those for the replacements before it. -/
theorem Leads.next (h : Leads g output k w)
    (hany : w.form.any Symbol.isNonterminal = true) {site : Site} (hnext : g.NextSite w site)
    {chosen : Form} (hmem : chosen ∈ site.rule.alternatives) :
    Leads g output (k + 1) (w.replace site (Form.withoutEpsilon chosen)) := by
  obtain ⟨answers, harrives⟩ := h
  obtain ⟨more, hpicks⟩ := exists_picks_script hmem
  refine ⟨answers ++ more, fun rest => ?_⟩
  obtain ⟨t, ht, hchooser⟩ := harrives (more ++ rest)
  have picks := hpicks rest
  rw [← hchooser] at picks
  rw [List.append_assoc]
  exact ht.next hout (.inr hany) hnext rfl picks

/-- A derivation of a form without nonterminals, in whatever order it replaces them, can be gone
through in the engine's order. By induction on its length: it begins, after a change of its order,
with the place that comes next. -/
theorem Leads.exists_terminal (hg : g.ContextFree) (h : Leads g output k w)
    (hany : w.form.any Symbol.isNonterminal = true) (hderives : g.DerivesIn n w.form word)
    (hword : word.any Symbol.isNonterminal = false) :
    ∃ j v, 1 ≤ j ∧ Leads g output j v ∧ v.form = word := by
  induction n generalizing k w with
  | zero =>
    cases hderives
    rw [hany] at hword
    cases hword
  | succ n ih =>
    have hoccurs : g.OccursFrom w.form 0 := by
      cases hderives with
      | head first rest => exact hg.occursFrom_of_produces first
    obtain ⟨site, hnext⟩ := Grammar.exists_nextSite hoccurs
    obtain ⟨hrule, left, right, hform, hreplace⟩ := hnext.exists_split
    obtain ⟨letter, hpattern⟩ := hg.single _ hrule
    have hgone : Symbol.nonterminal letter ∉ word := by
      intro hmem
      exact absurd rfl (List.any_eq_false.1 hword _ hmem)
    rw [hform, hpattern] at hderives
    obtain ⟨m, hm, r, hr, hrpattern, a, ha, hrest⟩ := hderives.exists_first hg hgone
    obtain rfl : r = site.rule := hg.rule_unique hr hrule (hrpattern.trans hpattern.symm)
    obtain rfl : n = m := Nat.succ.inj hm
    have hnew := h.next hout hany hnext ha
    rw [← hreplace] at hrest
    by_cases hleft :
        (w.replace site (Form.withoutEpsilon a)).form.any Symbol.isNonterminal = true
    · exact ih hnew hleft hrest
    · obtain ⟨-, hsame⟩ := hg.eq_of_derivesIn (Bool.eq_false_iff.2 hleft) hrest
      exact ⟨k + 1, _, Nat.le_add_left 1 k, hnew, hsame.symm⟩

end Unlimited

/-- **The engine's order loses no word of a context-free grammar.** There are answers with which the
engine derives a word, if and only if the word can be derived, in any order, from an alternative of
the start rule that has a nonterminal. An alternative without one is no sentence: the engine makes
a pass all the same, and is stuck. -/
theorem exists_answers_iff_yields {file : Path} {text : String} {g : Grammar}
    (hread : Grammar.ofText file text = .ok g) (hg : g.ContextFree) {output : Stream}
    (hout : output.Unlimited) (word : List Char) :
    (∃ answers d, (unbounded g .script).Ends ⟨answers, output⟩ (.ok d) ∧
        d.sentence = word.map .terminal) ↔
      ∃ rule alternative, g.startRule? = some rule ∧ alternative ∈ rule.alternatives ∧
        alternative.any Symbol.isNonterminal = true ∧
        g.Yields (Form.withoutEpsilon alternative) (word.map .terminal) := by
  obtain ⟨hwell, -⟩ := wellFormed_of_ofText hread
  constructor
  · rintro ⟨answers, d, hd, hsentence⟩
    obtain ⟨t, ht⟩ := ends_iff.1 hd
    obtain ⟨k, w, u, hk, harrives, -, rfl⟩ := ht.arrives
    obtain ⟨rule, alternative, hrule, hmem, hderives⟩ := derivesIn_of_arrives harrives
    obtain ⟨k, rfl⟩ := Nat.exists_eq_add_of_le' hk
    -- something is replaced after the first step, so there was something to replace
    have hany : alternative.any Symbol.isNonterminal = true := by
      cases hderives with
      | head first rest =>
        rw [← Form.any_withoutEpsilon]
        exact hg.any_of_produces first
    have hstart := hwell.start_not_mem (mem_rules_of_startRule? hrule) hmem
    refine ⟨rule, alternative, hrule, hmem, hany, ?_⟩
    rw [← hsentence, hwell.yields_iff hstart]
    exact Grammar.derives_iff.2 ⟨k + 1, hderives⟩
  · rintro ⟨rule, alternative, hrule, hmem, hany, hword⟩
    have hstart := hwell.start_not_mem (mem_rules_of_startRule? hrule) hmem
    rw [hwell.yields_iff hstart] at hword
    obtain ⟨n, hn⟩ := Grammar.derives_iff.1 hword
    rw [← Form.any_withoutEpsilon] at hany
    have hterminal : (word.map Symbol.terminal).any Symbol.isNonterminal = false := by
      simp [Symbol.isNonterminal]
    obtain ⟨k, w, hk, ⟨answers, hanswers⟩, hform⟩ :=
      (leads_first hout hrule hmem).exists_terminal hout hg hany hn hterminal
    obtain ⟨t, harrives, -⟩ := hanswers []
    rw [← hform] at hterminal
    obtain ⟨u, hu⟩ := finishes_of_terminal hout hk harrives hterminal
    exact ⟨_, _, hu.ends, hform⟩

/-- A context-free grammar in which one nonterminal can be replaced again and again, or vanish. -/
def repeating : Grammar where
  rules := [⟨[.start], [[.terminal 'a'], [.nonterminal 'A', .nonterminal 'B']]⟩,
    ⟨[.nonterminal 'A'], [[.terminal 'a', .nonterminal 'A'], [.epsilon]]⟩,
    ⟨[.nonterminal 'B'], [[.terminal 'b', .nonterminal 'A'], [.nonterminal 'A']]⟩]

/-- The word `ab` is derived from the last symbol to the first here; the engine begins with the
first one. -/
theorem exists_answers_iff_yields_repeating :
    Grammar.ofText ⟨"a.lang"⟩ "S => a | AB\nA => aA | ε\nB => bA | A" = .ok repeating ∧
      (∃ answers d, (unbounded repeating .script).Ends ⟨answers, .empty none⟩ (.ok d) ∧
        d.sentence = "ab".toList.map .terminal) ∧
      ∃ rule alternative, repeating.startRule? = some rule ∧ alternative ∈ rule.alternatives ∧
        alternative.any Symbol.isNonterminal = true ∧
        repeating.Yields (Form.withoutEpsilon alternative) ("a".toList.map .terminal) := by
  have hread : Grammar.ofText ⟨"a.lang"⟩ "S => a | AB\nA => aA | ε\nB => bA | A" = .ok repeating :=
    rfl
  have hg : repeating.ContextFree := by decide
  refine ⟨hread, ?_, ?_⟩
  · have hsecond : repeating.Yields [.nonterminal 'A', .nonterminal 'B']
        [.nonterminal 'A', .terminal 'b', .nonterminal 'A'] :=
      .single ⟨_, .tail _ (.tail _ (.head _)), [.terminal 'b', .nonterminal 'A'], by decide,
        [.nonterminal 'A'], [], rfl, rfl⟩
    have hlast : repeating.Yields [.nonterminal 'A', .terminal 'b', .nonterminal 'A']
        [.nonterminal 'A', .terminal 'b'] :=
      .single ⟨_, .tail _ (.head _), [.epsilon], by decide,
        [.nonterminal 'A', .terminal 'b'], [], rfl, rfl⟩
    have hfirst : repeating.Yields [.nonterminal 'A', .terminal 'b']
        [.terminal 'a', .nonterminal 'A', .terminal 'b'] :=
      .single ⟨_, .tail _ (.head _), [.terminal 'a', .nonterminal 'A'], by decide,
        [], [.terminal 'b'], rfl, rfl⟩
    have hgone : repeating.Yields [.terminal 'a', .nonterminal 'A', .terminal 'b']
        ("ab".toList.map .terminal) :=
      .single ⟨_, .tail _ (.head _), [.epsilon], by decide,
        [.terminal 'a'], [.terminal 'b'], rfl, rfl⟩
    exact (exists_answers_iff_yields hread hg Stream.unlimited_empty
      "ab".toList).2 ⟨_, [.nonterminal 'A', .nonterminal 'B'], rfl, by decide, rfl,
        hsecond.trans (hlast.trans (hfirst.trans hgone))⟩
  · exact (exists_answers_iff_yields hread hg Stream.unlimited_empty
      "a".toList).1 ⟨[1, 0, 1, 1, 1], _, ⟨7, rfl⟩, rfl⟩

end Engine

end PhraseGrammar
