import PhraseGrammar.Proofs.Progress

/-!
# The order of the productions

In a deterministic context-free grammar the order of the productions settles where the next
replacement is made, and nothing else. Two runs of such a grammar with its productions in different
orders need not have a single form in common between their first and their last one. They are
compared through all derivations from the first form: these have the same last form and the same
length (`DerivesIn.descends`), and a run ends only there or at its limit.

* `Engine.Concludes`, `Engine.Ending`: how a run can end, told by the derivations of the grammar
  alone. Every run with a limit ends in this way (`exists_ending`);
* `Engine.Alike`: two ends are the same, up to the places of the steps. All ends of one grammar are
  alike (`Ending.alike`).

Main statement: `ends_alike_of_perm`.
-/

namespace PhraseGrammar

/-! ### Grammars with the same productions -/

namespace Grammar

variable {first : Rule} {rules rules' : List Rule} {f u v : Form} {k n : Nat}

theorem ContextFree.of_perm (h : ContextFree ⟨first :: rules⟩) (hperm : rules.Perm rules') :
    ContextFree ⟨first :: rules'⟩ where
  single r hr := h.single r (hperm.mem_iff.2 hr)
  distinct := (hperm.map Rule.pattern).nodup_iff.1 h.distinct

theorem Deterministic.of_perm (h : Deterministic ⟨first :: rules⟩) (hperm : rules.Perm rules') :
    Deterministic ⟨first :: rules'⟩ :=
  fun r hr => h r ((hperm.cons first).mem_iff.2 hr)

theorem Produces.of_perm (h : Produces ⟨first :: rules⟩ f u) (hperm : rules.Perm rules') :
    Produces ⟨first :: rules'⟩ f u := by
  obtain ⟨r, hr, hreplaces⟩ := produces_iff.1 h
  exact produces_iff.2 ⟨r, hperm.mem_iff.1 hr, hreplaces⟩

theorem DerivesIn.of_perm (h : DerivesIn ⟨first :: rules⟩ n f u) (hperm : rules.Perm rules') :
    DerivesIn ⟨first :: rules'⟩ n f u := by
  induction h with
  | refl f => exact .refl f
  | head first rest ih => exact .head (first.of_perm hperm) ih

/-- Two derivations that cannot go on have the same length and the same last form. -/
theorem DerivesIn.normal_unique {g : Grammar} (hg : g.ContextFree) (hdet : g.Deterministic)
    (hu : g.DerivesIn n f u) (hnormal : ∀ x, ¬ g.Produces u x) (hv : g.DerivesIn k f v)
    (hnormal' : ∀ x, ¬ g.Produces v x) : k = n ∧ v = u := by
  obtain ⟨hle, hrest⟩ := hu.descends hg hdet hnormal hv
  obtain ⟨hle', -⟩ := hv.descends hg hdet hnormal' hu
  obtain rfl : k = n := by omega
  rw [Nat.sub_self] at hrest
  cases hrest
  exact ⟨rfl, rfl⟩

end Grammar

namespace Engine

variable {σ τ : Type} {g : Grammar} {c : Chooser σ} {m k : Nat} {f v : Form}
  {result result' : Except GenerateError Derivation}

/-! ### How a run ends -/

/-- What a run tells that has made `k` replacements after the first one and cannot make another in
the form `v`. -/
inductive Concludes (k : Nat) (v : Form) : Except GenerateError Derivation → Prop
  | sentence {steps : List Step} (later : 1 ≤ k) (finished : v.any Symbol.isNonterminal = false)
      (length : steps.length = k + 1) : Concludes k v (.ok ⟨v, steps⟩)
  | stuck (unfinished : k = 0 ∨ v.any Symbol.isNonterminal = true) :
      Concludes k v (.error (.stuckDerivation (Form.text v)))

/-- How a run can end that has `f` after its first step and a limit of `m`: where nothing is left to
replace, within the limit, or at the limit, when there is something left to replace. -/
inductive Ending (g : Grammar) (f : Form) (m : Nat) : Except GenerateError Derivation → Prop
  | halted {k : Nat} {v : Form} {result : Except GenerateError Derivation} (allowed : k ≤ m)
      (derives : g.DerivesIn k f v) (normal : ∀ u, ¬ g.Produces v u)
      (concludes : Concludes k v result) : Ending g f m result
  | limit {v : Form} (derives : g.DerivesIn (m + 1) f v) :
      Ending g f m (.error (.stepLimitExceeded m))

theorem Ending.of_perm {first : Rule} {rules rules' : List Rule}
    (h : Ending ⟨first :: rules⟩ f m result) (hperm : rules.Perm rules') :
    Ending ⟨first :: rules'⟩ f m result := by
  cases h with
  | halted allowed derives normal concludes =>
    exact .halted allowed (derives.of_perm hperm)
      (fun u hu => normal u (hu.of_perm hperm.symm)) concludes
  | limit derives => exact .limit (derives.of_perm hperm)

/-- The same outcome: one sentence in the same number of steps, or one form in which both are stuck,
or both at the limit. -/
inductive Alike (m : Nat) :
    Except GenerateError Derivation → Except GenerateError Derivation → Prop
  | sentence {d d' : Derivation} (sentence_eq : d.sentence = d'.sentence)
      (length_eq : d.steps.length = d'.steps.length) : Alike m (.ok d) (.ok d')
  | stuck (text : String) :
      Alike m (.error (.stuckDerivation text)) (.error (.stuckDerivation text))
  | limit : Alike m (.error (.stepLimitExceeded m)) (.error (.stepLimitExceeded m))

theorem not_unfinished (later : 1 ≤ k) (finished : v.any Symbol.isNonterminal = false) :
    ¬ (k = 0 ∨ v.any Symbol.isNonterminal = true) := by
  rintro (rfl | hleft)
  · cases later
  · rw [finished] at hleft
    cases hleft

theorem Concludes.alike (h : Concludes k v result) (h' : Concludes k v result') :
    Alike m result result' := by
  cases h with
  | sentence later finished length =>
    cases h' with
    | sentence later' finished' length' => exact .sentence rfl (length.trans length'.symm)
    | stuck unfinished => exact absurd unfinished (not_unfinished later finished)
  | stuck unfinished =>
    cases h' with
    | sentence later finished length => exact absurd unfinished (not_unfinished later finished)
    | stuck unfinished' => exact .stuck _

theorem Ending.alike (hg : g.ContextFree) (hdet : g.Deterministic) (h : Ending g f m result)
    (h' : Ending g f m result') : Alike m result result' := by
  cases h with
  | halted allowed derives normal concludes =>
    cases h' with
    | halted allowed' derives' normal' concludes' =>
      obtain ⟨rfl, rfl⟩ := derives.normal_unique hg hdet normal derives' normal'
      exact concludes.alike concludes'
    | limit derives' =>
      obtain ⟨hle, -⟩ := derives.descends hg hdet normal derives'
      omega
  | limit derives =>
    cases h' with
    | halted allowed derives' normal concludes =>
      obtain ⟨hle, -⟩ := derives'.descends hg hdet normal derives
      omega
    | limit derives' => exact .limit

/-! ### How a run comes to its end -/

section Unlimited

variable {s : Session σ} {w : Work} {t : Session σ} (hg : g.ContextFree) (hdet : g.Deterministic)
  (hs : s.output.Unlimited)
include hg hdet hs

/-- From one replacement a run comes to its end or to the next one. -/
theorem ending_or_arrives (h : (bounded g c m).Arrives s k w t) (hk : k ≤ m)
    (hany : k = 0 ∨ w.form.any Symbol.isNonterminal = true) (hderives : g.DerivesIn k f w.form) :
    (∃ result, (bounded g c m).Ends s result ∧ Ending g f m result) ∨
      k < m ∧ ∃ w' t', (bounded g c m).Arrives s (k + 1) w' t' ∧
        w'.form.any Symbol.isNonterminal = true ∧ g.DerivesIn (k + 1) f w'.form := by
  by_cases hoccurs : g.OccursFrom w.form 0
  · obtain ⟨site, hnext⟩ := Grammar.exists_nextSite hoccurs
    obtain ⟨hrule, left, right, hform, hreplace⟩ := hnext.exists_split
    obtain ⟨a, ha⟩ := hdet _ (List.mem_of_mem_tail hrule)
    have hproduces : g.Produces w.form (w.replace site (Form.withoutEpsilon a)).form := by
      rw [hreplace]
      exact Grammar.produces_iff.2 ⟨_, hrule, a, by simp [ha], left, right, hform, rfl⟩
    have hnew := hderives.snoc hproduces
    rcases Nat.eq_or_lt_of_le hk with rfl | hlt
    · exact .inl ⟨_, (finishes_of_limit h hany hoccurs).ends, .limit hnew⟩
    have hallowed : (bounded g c m).exhausted w = false := by
      simp only [exhausted, bounded, h.size_eq, decide_eq_false_iff_not]
      omega
    obtain ⟨t', harrives, -⟩ := h.next hs hany hnext hallowed (.only ha)
    by_cases hleft :
        (w.replace site (Form.withoutEpsilon a)).form.any Symbol.isNonterminal = true
    · exact .inr ⟨hlt, _, t', harrives, hleft, hnew⟩
    · have hfinished := Bool.eq_false_iff.2 hleft
      obtain ⟨u, hu⟩ := finishes_of_terminal hs (Nat.le_add_left 1 k) harrives hfinished
      refine .inl ⟨_, hu.ends, .halted hlt hnew (fun x hx => hleft (hg.any_of_produces hx)) ?_⟩
      exact .sentence (Nat.le_add_left 1 k) hfinished (by simp [harrives.size_eq])
  · obtain ⟨u, hu, -⟩ := finishes_of_stuckAt hs ⟨h, hoccurs, hany⟩
    refine .inl ⟨_, hu.ends, .halted hk hderives (fun x hx => ?_) (.stuck hany)⟩
    exact hoccurs (hg.occursFrom_of_produces hx)

/-- A run with a limit comes to its end: the number of replacements that it may still make gets
smaller. -/
theorem exists_ending_of_arrives (h : (bounded g c m).Arrives s k w t) (hk : k ≤ m)
    (hany : k = 0 ∨ w.form.any Symbol.isNonterminal = true) (hderives : g.DerivesIn k f w.form) :
    ∃ result, (bounded g c m).Ends s result ∧ Ending g f m result := by
  induction hd : m - k generalizing k w t with
  | zero =>
    rcases ending_or_arrives hg hdet hs h hk hany hderives with hends | ⟨hlt, -⟩
    · exact hends
    · omega
  | succ d ih =>
    rcases ending_or_arrives hg hdet hs h hk hany hderives with
      hends | ⟨hlt, w', t', harrives, hleft, hnew⟩
    · exact hends
    · exact ih harrives hlt (.inr hleft) hnew (by omega)

theorem exists_ending {rule : Rule} (hrule : g.startRule? = some rule) {a : Form}
    (ha : rule.alternatives = [a]) :
    ∃ result, (bounded g c m).Ends s result ∧ Ending g (Form.withoutEpsilon a) m result := by
  obtain ⟨t, harrives, -⟩ :=
    exists_arrives_first hs (e := bounded g c m) hrule (Picks.only ha)
  exact exists_ending_of_arrives hg hdet hs harrives (Nat.zero_le m) (.inl rfl) (.refl _)

end Unlimited

/-- **The order of the productions does not matter** in a deterministic context-free grammar: with
one limit and with any choosers, which are never asked, two runs with the same productions in
different orders end alike. They end where nothing is left to replace, or at the limit when more
replacements can be made than it allows. -/
theorem ends_alike_of_perm {first : Rule} {rules rules' : List Rule} (hperm : rules.Perm rules')
    (hg : Grammar.ContextFree ⟨first :: rules⟩) (hdet : Grammar.Deterministic ⟨first :: rules⟩)
    (c : Chooser σ) (c' : Chooser τ) (m : Nat) {s : Session σ} (hs : s.output.Unlimited)
    {s' : Session τ} (hs' : s'.output.Unlimited) :
    ∃ a result result', first.alternatives = [a] ∧
      (bounded ⟨first :: rules⟩ c m).Ends s result ∧
      (bounded ⟨first :: rules'⟩ c' m).Ends s' result' ∧ Alike m result result' ∧
      Ending ⟨first :: rules⟩ (Form.withoutEpsilon a) m result := by
  obtain ⟨a, ha⟩ := hdet first (List.mem_cons_self ..)
  obtain ⟨result, hends, hending⟩ :=
    exists_ending (c := c) (m := m) hg hdet hs (Grammar.startRule?_cons first rules) ha
  obtain ⟨result', hends', hending'⟩ :=
    exists_ending (c := c') (m := m) (hg.of_perm hperm) (hdet.of_perm hperm) hs'
      (Grammar.startRule?_cons first rules') ha
  have halike : Alike m result result' := hending.alike hg hdet (hending'.of_perm hperm.symm)
  exact ⟨a, result, result', ha, hends, hends', halike, hending⟩

/-- A start rule for three nonterminals, and two productions that make them vanish. -/
def vanishing : Rule × List Rule :=
  (⟨[.start], [[.nonterminal 'A', .nonterminal 'B', .nonterminal 'A']]⟩,
    [⟨[.nonterminal 'A'], [[.nonterminal 'B', .terminal 'b']]⟩, ⟨[.nonterminal 'B'], [[.epsilon]]⟩])

/-- With its productions in reverse order the grammar derives `bb` by other steps. -/
theorem ends_alike_of_perm_vanishing :
    (∃ a result result', vanishing.1.alternatives = [a] ∧
        (bounded ⟨vanishing.1 :: vanishing.2⟩ .script 5).Ends ⟨[], .empty none⟩ result ∧
        (bounded ⟨vanishing.1 :: vanishing.2.reverse⟩ .script 5).Ends ⟨[], .empty none⟩ result' ∧
        Alike 5 result result' ∧
        Ending ⟨vanishing.1 :: vanishing.2⟩ (Form.withoutEpsilon a) 5 result) ∧
      ∃ d d', (bounded ⟨vanishing.1 :: vanishing.2⟩ .script 5).Ends ⟨[], .empty none⟩ (.ok d) ∧
        (bounded ⟨vanishing.1 :: vanishing.2.reverse⟩ .script 5).Ends ⟨[], .empty none⟩ (.ok d') ∧
        d.steps ≠ d'.steps := by
  have hg : Grammar.ContextFree ⟨vanishing.1 :: vanishing.2⟩ := by decide
  have hdet : Grammar.Deterministic ⟨vanishing.1 :: vanishing.2⟩ := by decide
  constructor
  · exact ends_alike_of_perm (List.reverse_perm vanishing.2).symm hg hdet .script .script 5
      Stream.unlimited_empty Stream.unlimited_empty
  · exact ⟨_, _, ⟨9, rfl⟩, ⟨9, rfl⟩, by decide⟩

end Engine

end PhraseGrammar
