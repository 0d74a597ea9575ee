import PhraseGrammar.Proofs.Mirroring

/-!
# Shadowed rules

Where a long pattern occurs, every pattern that stands in it occurs as well. So a production is
never applied whose pattern holds the pattern of an earlier one.

* `Grammar.Shadows`: one production stands in the way of another. No search finds the other one
  (`Shadows.index_ne`);
* `Grammar.without`: a grammar with one rule left out. The rules behind it move up by one place, and
  steps are renumbered accordingly (`newIndex`, `Run.renumber`);
* `Shadows.site?_without`: without the shadowed rule every search finds the same place. So each pass
  does the same, told with the new indices (`renumbering`, `next?_renumber`), and so does each run
  (`run_renumber`).

Main statement: `shadowed_is_dead`.
-/

namespace PhraseGrammar

/-! ### Leaving out a rule -/

/-- The index that a rule has when the rule of index `j` is left out. -/
def newIndex (j index : Nat) : Nat := if j < index then index - 1 else index

/-- The step with the new index of its rule. -/
def Step.renumber (j : Nat) (s : Step) : Step := { s with rule := newIndex j s.rule }

/-- The site with the new index of its rule. -/
def Site.renumber (j : Nat) (s : Site) : Site := { s with index := newIndex j s.index }

/-- The derivation with the new indices in all of its steps. -/
def Derivation.renumber (j : Nat) (d : Derivation) : Derivation :=
  { d with steps := d.steps.map (Step.renumber j) }

/-- The work with the new indices in all of its steps. -/
def Work.renumber (j : Nat) (w : Work) : Work := { w with steps := w.steps.map (Step.renumber j) }

/-- The phase with the new indices in all of its steps. -/
def Phase.renumber (j : Nat) : Phase → Phase
  | .opening => .opening
  | .working w => .working (w.renumber j)
  | .ended result => .ended (result.map (Derivation.renumber j))

/-- The run with the new indices in all of its steps. Its session stays as it is. -/
def Run.renumber {σ : Type} (j : Nat) (r : Run σ) : Run σ := { r with phase := r.phase.renumber j }

/-- The grammar without the rule of index `j`. -/
def Grammar.without (g : Grammar) (j : Nat) : Grammar := ⟨g.rules.eraseIdx j⟩

/-- The order of the rules that are left stays as it is. -/
theorem lt_of_newIndex_lt {j m n : Nat} (h : newIndex j m < newIndex j n) : m < n := by
  unfold newIndex at h
  split_ifs at h <;> omega

namespace Work

variable (j : Nat) (w : Work)

@[simp] theorem size_renumber : (w.renumber j).steps.size = w.steps.size := by simp [renumber]

@[simp] theorem renumber_first (replacement : Form) :
    (Work.first replacement).renumber j = .first replacement := by
  simp [renumber, first, Step.renumber, newIndex]

theorem renumber_replace (site : Site) (replacement : Form) :
    (w.replace site replacement).renumber j =
      (w.renumber j).replace (site.renumber j) replacement := by
  simp [renumber, replace, Step.renumber, Site.renumber]

end Work

theorem Phase.renumber_sentence (j : Nat) (w : Work) :
    renumber j (.ended (.ok ⟨w.form, w.steps.toList⟩)) =
      .ended (.ok ⟨w.form, (w.renumber j).steps.toList⟩) := by
  simp [renumber, Derivation.renumber, Work.renumber, Except.map]

theorem Run.renumber_eq_ended {σ : Type} {j : Nat} {r : Run σ}
    {result : Except GenerateError Derivation} {t : Session σ}
    (h : r.renumber j = ⟨.ended result, t⟩) :
    ∃ result', r = ⟨.ended result', t⟩ ∧ result = result'.map (Derivation.renumber j) := by
  obtain ⟨_ | _ | result', session⟩ := r
  · cases h
  · cases h
  · cases h
    exact ⟨result', rfl, rfl⟩

namespace Grammar

variable {g : Grammar} {i j index : Nat} {r : Rule} {form : Form} {offset : Nat} {site : Site}

theorem hasProduction_without (hj : 1 ≤ j) (hne : index ≠ j) :
    (g.without j).HasProduction (newIndex j index) r ↔ g.HasProduction index r := by
  unfold HasProduction without newIndex
  rw [List.getElem?_eraseIdx]
  split_ifs with hlt hlt' hlt'
  · omega
  · rw [Nat.sub_add_cancel (by omega)]
    constructor
    · rintro ⟨-, h⟩
      exact ⟨by omega, h⟩
    · rintro ⟨-, h⟩
      exact ⟨by omega, h⟩
  · rfl
  · omega

/-- Every production that is left was there before. -/
theorem exists_newIndex (hj : 1 ≤ j) (h : (g.without j).HasProduction index r) :
    ∃ m, m ≠ j ∧ newIndex j m = index ∧ g.HasProduction m r := by
  have hm : ∃ m, m ≠ j ∧ newIndex j m = index := by
    by_cases hlt : index < j
    · exact ⟨index, by omega, by simp [newIndex]; omega⟩
    · exact ⟨index + 1, by omega, by simp [newIndex]; omega⟩
  obtain ⟨m, hne, rfl⟩ := hm
  exact ⟨m, hne, rfl, (hasProduction_without hj hne).1 h⟩

theorem OccursFrom.of_without (hj : 1 ≤ j) (h : (g.without j).OccursFrom form offset) :
    g.OccursFrom form offset := by
  obtain ⟨index, r, hr, hoccurs⟩ := h
  obtain ⟨m, -, -, hm⟩ := exists_newIndex hj hr
  exact ⟨m, r, hm, hoccurs⟩

/-- The place that is found stays the same when another rule is left out. -/
theorem IsSite.without (h : g.IsSite form offset site) (hj : 1 ≤ j) (hne : site.index ≠ j) :
    (g.without j).IsSite form offset (site.renumber j) where
  production := (hasProduction_without hj hne).2 h.production
  leftmost := h.leftmost
  first k r hlt hr := by
    obtain ⟨m, -, rfl, hproduction⟩ := exists_newIndex hj hr
    exact h.first m r (lt_of_newIndex_lt hlt) hproduction

/-! ### Shadows -/

/-- The production of index `i` comes before the one of index `j`, and its pattern, which is not
empty, stands in the pattern of the other. -/
structure Shadows (g : Grammar) (i j : Nat) : Prop where
  lt : i < j
  patterns : ∃ r r', g.HasProduction i r ∧ g.HasProduction j r' ∧ r.pattern ≠ [] ∧
    r.pattern <:+: r'.pattern

theorem Shadows.one_le (h : g.Shadows i j) : 1 ≤ j := by
  obtain ⟨-, -, -, ⟨hj, -⟩, -, -⟩ := h.patterns
  exact hj

end Grammar

/-- A pattern occurs with every longer pattern that it stands in. -/
theorem Rule.OccursAt.exists_of_isInfix {r r' : Rule} {form : Form} {i : Nat}
    (h : r'.OccursAt form i) (hne : r.pattern ≠ []) (hinside : r.pattern <:+: r'.pattern) :
    ∃ d, r.OccursAt form (i + d) := by
  obtain ⟨left, right, hpattern⟩ := hinside
  obtain ⟨-, rest, hrest⟩ := h
  refine ⟨left.length, hne, right ++ rest, ?_⟩
  rw [← List.drop_drop, ← hrest, ← hpattern]
  simp

namespace Grammar.Shadows

variable {g : Grammar} {i j : Nat} (h : g.Shadows i j)
include h

/-- A shadowed production is never found: where it occurs, the earlier one does too. -/
theorem index_ne {form : Form} {offset : Nat} {site : Site} (found : g.IsSite form offset site) :
    site.index ≠ j := by
  rintro rfl
  obtain ⟨r, r', hr, hr', hne, hinside⟩ := h.patterns
  have hrule : r' = site.rule := Option.some.inj (hr'.2.symm.trans found.production.2)
  obtain ⟨d, hoccurs⟩ :=
    (hrule ▸ found.leftmost.occursAt : r'.OccursAt form site.start).exists_of_isInfix hne hinside
  have hle := found.leftmost.offset_le
  exact found.first i r h.lt hr ⟨site.start + d, by omega, hoccurs⟩

/-- Without the shadowed production every search finds the same place. -/
theorem site?_without (form : Form) (offset : Nat) :
    (g.without j).site? form offset = (g.site? form offset).map (Site.renumber j) := by
  cases hsite : g.site? form offset with
  | none =>
    have nowhere := site?_eq_none_iff.1 hsite
    exact site?_eq_none_iff.2 fun hoccurs => nowhere (hoccurs.of_without h.one_le)
  | some site =>
    have found := site?_eq_some_iff.1 hsite
    exact site?_eq_some_iff.2 (found.without h.one_le (h.index_ne found))

theorem startRule?_without : (g.without j).startRule? = g.startRule? := by
  have hj := h.one_le
  rcases g with ⟨_ | ⟨first, rest⟩⟩
  · rfl
  · obtain ⟨k, rfl⟩ := Nat.exists_eq_add_of_le' hj
    rfl

end Grammar.Shadows

/-! ### Passes -/

/-- Derivations told with the new indices. -/
def renumbering (j : Nat) : Translation where
  __ := Translation.identity
  site := Site.renumber j
  work := Work.renumber j
  phase := Phase.renumber j
  site_start _ := rfl
  site_rule _ := rfl
  work_form _ := rfl
  work_cursor _ := rfl
  size_work := Work.size_renumber j
  work_first := Work.renumber_first j
  work_replace := Work.renumber_replace j
  work_home _ := rfl
  phase_opening := rfl
  phase_working _ := rfl
  phase_sentence := Phase.renumber_sentence j

namespace Engine

open PhraseGrammar.Action

variable {σ : Type} {g : Grammar} {c : Chooser σ} {limit : Option Nat} {i j : Nat}

section Shadows

variable (h : g.Shadows i j)
include h

theorem carries_without (phase : Phase) :
    (renumbering j).Carries ⟨g.without j, c, limit⟩ ⟨g, c, limit⟩ phase where
  startRule?_eq := h.startRule?_without.trans Option.map_id_apply.symm
  maxSteps_eq := rfl
  site?_eq w _ := h.site?_without w.form w.cursor
  form_eq _ _ _ := rfl

theorem next?_renumber (phase : Phase) : next? ⟨g.without j, c, limit⟩ (phase.renumber j) =
    (next? ⟨g, c, limit⟩ phase).map (Phase.renumber j <$> ·) := by
  cases hnext : next? ⟨g, c, limit⟩ phase with
  | none =>
    cases phase with
    | opening => cases hnext
    | working w => cases hnext
    | ended result => rfl
  | some act =>
    have haccord : Accord (renumbering j) ⟨g.without j, c, limit⟩ ⟨g, c, limit⟩ phase _ _ :=
      accord_of_mirrors (fun _ _ => .refl _) fun alternatives _ =>
        (List.map_id alternatives).symm ▸ .refl _
    obtain ⟨act', hact', hmirrors⟩ := haccord.next? (carries_without h phase) hnext
    exact hact'.trans (congrArg some hmirrors.eq)

/-- A pass does the same without the shadowed production. -/
theorem step_renumber (r : Run σ) : step ⟨g.without j, c, limit⟩ (r.renumber j) =
    (step ⟨g, c, limit⟩ r).renumber j := by
  unfold step step?
  have hphase : (r.renumber j).phase = r.phase.renumber j := rfl
  rw [hphase, next?_renumber h]
  cases next? ⟨g, c, limit⟩ r.phase with
  | none => rfl
  | some act =>
    simp only [Option.map_some, Option.bind_some, Action.map_apply]
    have hsession : (r.renumber j).session = r.session := rfl
    rw [hsession]
    rcases act r.session with _ | ⟨_ | _, _⟩ <;> rfl

theorem run_renumber (r : Run σ) (n : Nat) : run ⟨g.without j, c, limit⟩ n (r.renumber j) =
    (run ⟨g, c, limit⟩ n r).renumber j := by
  induction n with
  | zero => rfl
  | succ n ih => rw [run_succ, run_succ, ih, step_renumber h]

/-- No step of a run applies the shadowed production. -/
theorem rule_ne_of_reaches {w : Work} (hw : Reaches ⟨g, c, limit⟩ w) :
    ∀ step ∈ w.steps, step.rule ≠ j := by
  have hj := h.one_le
  induction hw with
  | first start mem =>
    intro step hstep
    obtain rfl : step = _ := Array.mem_singleton.1 hstep
    exact Nat.ne_of_lt hj
  | advance reaches pass ih =>
    cases pass with
    | replace found allowed picks =>
      intro step hstep
      rcases Array.mem_push.1 hstep with hstep | rfl
      · exact ih step hstep
      · exact h.index_ne found
    | reset nowhere moved => exact ih

end Shadows

/-- **A shadowed rule is dead.** No pass applies it, and no derivation has a step by it. Without the
rule every run is the same, pass by pass and in the same sessions, when the rules behind it are
renumbered. So both grammars end in the same session, with the same result up to the indices of the
rules. -/
theorem shadowed_is_dead (h : g.Shadows i j) (c : Chooser σ) (limit : Option Nat)
    (s : Session σ) :
    (∀ w step w', Performs ⟨g, c, limit⟩ s w step w' → step.rule ≠ j) ∧
      (∀ d t, Finishes ⟨g, c, limit⟩ s (.ok d) t → ∀ step ∈ d.steps, step.rule ≠ j) ∧
      (∀ n, run ⟨g.without j, c, limit⟩ n (start s) =
        (run ⟨g, c, limit⟩ n (start s)).renumber j) ∧
      ∀ result t, Finishes ⟨g.without j, c, limit⟩ s result t ↔
        ∃ result', Finishes ⟨g, c, limit⟩ s result' t ∧
          result = result'.map (Derivation.renumber j) := by
  have hrun : ∀ n, run ⟨g.without j, c, limit⟩ n (start s) =
      (run ⟨g, c, limit⟩ n (start s)).renumber j := run_renumber h (start s)
  refine ⟨?_, ?_, hrun, fun result t => ⟨?_, ?_⟩⟩
  · rintro w step w' ⟨n, before, after, hn, hadvance, hsteps⟩
    have hw : Reaches ⟨g, c, limit⟩ w := reaches_of_run (s := s) (n := n) (by rw [hn])
    refine rule_ne_of_reaches h (hw.advance (advances_of_advance hadvance)) step ?_
    rw [hsteps]
    exact Array.mem_push_self
  · intro d t hd step hstep
    obtain ⟨w, hw, -, rfl⟩ := reaches_of_ends hd.ends
    exact rule_ne_of_reaches h hw step (Array.mem_toList_iff.1 hstep)
  · rintro ⟨n, hn⟩
    rw [hrun] at hn
    obtain ⟨result', hresult', heq⟩ := Run.renumber_eq_ended hn
    exact ⟨result', ⟨n, hresult'⟩, heq⟩
  · rintro ⟨result', ⟨n, hn⟩, rfl⟩
    exact ⟨n, by rw [hrun, hn]; rfl⟩

/-- A grammar whose production for `BA` is of no use behind the one for `A`. -/
def eclipsed : Grammar where
  rules := [
    ⟨[.start], [[.terminal 'a', .nonterminal 'B', .nonterminal 'A'], [.nonterminal 'A']]⟩,
    ⟨[.nonterminal 'A'], [[.terminal 'b'], [.epsilon]]⟩,
    ⟨[.nonterminal 'B', .nonterminal 'A'], [[.terminal 'c']]⟩,
    ⟨[.nonterminal 'B'], [[.nonterminal 'A', .terminal 'a']]⟩]

/-- The form `aBA` comes up, and the search goes back to its start. The last production has the
index 3, or 2 when the useless one is left out. -/
theorem shadowed_is_dead_eclipsed :
    eclipsed.Shadows 1 2 ∧ ∃ d t,
      Finishes ⟨eclipsed, .script, none⟩ ⟨[0, 0, 1], .empty none⟩ (.ok d) t ∧
        d.steps.map Step.rule = [0, 1, 3, 1] ∧
        Finishes ⟨eclipsed.without 2, .script, none⟩ ⟨[0, 0, 1], .empty none⟩
          (.ok (d.renumber 2)) t ∧
        (d.renumber 2).steps.map Step.rule = [0, 1, 2, 1] := by
  have hshadows : eclipsed.Shadows 1 2 := by
    refine ⟨by decide, _, _, ⟨by decide, rfl⟩, ⟨by decide, rfl⟩, by decide, ?_⟩
    exact ⟨[.nonterminal 'B'], [], rfl⟩
  have hfinishes : Finishes ⟨eclipsed, .script, none⟩ ⟨[0, 0, 1], .empty none⟩ (.ok _) _ := ⟨6, rfl⟩
  obtain ⟨-, -, -, hwithout⟩ := shadowed_is_dead hshadows .script none ⟨[0, 0, 1], .empty none⟩
  exact ⟨hshadows, _, _, hfinishes, rfl, (hwithout _ _).2 ⟨_, hfinishes, rfl⟩, rfl⟩

end Engine

end PhraseGrammar
