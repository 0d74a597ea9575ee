import PhraseGrammar.Proofs.Progress

/-!
# The decisions of a run

A step shows what was put where. Behind it stand a rule, the index of one of its alternatives, and
the chooser, which has been asked if there were several.

* `Decision`: a step with what stands behind it;
* `Chooser.Settles`, `Chooser.Refuses`: how a chooser settles on an alternative, and why it may not.
  `Chooser.Decides`: it settles decisions one after another;
* `Decision.told`, `story`: what is written in a run, with the questions that are shown in between;
* `Engine.Trail`: decisions that lead to work, whoever makes them. Every replacement of a run is at
  the end of such a trail (`Engine.Recounts`, `Arrives.exists_trail`), and every chooser that
  settles the decisions of a trail makes its replacements (`Trail.exists_arrives`);
* `Engine.Concluded`: decisions that lead to a sentence, with `Finishes.exists_decisions` and
  `Concluded.exists_finishes`, the same for whole derivations.
-/

namespace PhraseGrammar

variable {σ : Type} {g : Grammar}

/-! ### Choices -/

/-- A step, the rule that it applies, and the alternative that was chosen with its index. -/
structure Decision (g : Grammar) where
  step : Step
  rule : Rule
  index : Nat
  chosen : Form
  rule_eq : g.rules[step.rule]? = some rule
  chosen_eq : rule.alternatives[index]? = some chosen
  replacement_eq : step.replacement = Form.withoutEpsilon chosen

theorem Decision.rule_unique {δ δ' : Decision g} (h : δ.step = δ'.step) : δ.rule = δ'.rule := by
  have hrule := δ.rule_eq
  rw [h, δ'.rule_eq] at hrule
  exact (Option.some.inj hrule).symm

/-- The step tells the rule, and the index tells the alternative. -/
theorem Decision.ext_of_index {δ δ' : Decision g} (hstep : δ.step = δ'.step)
    (hindex : δ.index = δ'.index) : δ = δ' := by
  have hrule := rule_unique hstep
  have hchosen := δ.chosen_eq
  rw [hrule, hindex, δ'.chosen_eq] at hchosen
  cases δ
  cases δ'
  cases hstep
  cases hindex
  cases hrule
  cases hchosen
  rfl

namespace Chooser

/-- The alternative with this index is settled on. The state of the chooser goes from `before` to
`after`. -/
inductive Settles (c : Chooser σ) (alternatives : List Form) (before : σ) : Nat → σ → Prop
  /-- There is no question where there is only one answer. -/
  | only (single : alternatives.length = 1) : Settles c alternatives before 0 before
  | asked {index : Nat} {after : σ} (several : 2 ≤ alternatives.length)
      (answer : c.answer alternatives before = some (.ok index, after)) :
      Settles c alternatives before index after

/-- Decisions are settled one after another. -/
inductive Decides (c : Chooser σ) : σ → List (Decision g) → σ → Prop
  | nil (before : σ) : Decides c before [] before
  | cons {before between after : σ} {δ : Decision g} {decisions : List (Decision g)}
      (settles : c.Settles δ.rule.alternatives before δ.index between)
      (rest : Decides c between decisions after) : Decides c before (δ :: decisions) after

/-- What is shown before one of these alternatives is settled on. -/
def asking (prompt : List Form → String) (alternatives : List Form) : String :=
  if 2 ≤ alternatives.length then prompt alternatives else ""

theorem decides_concat {c : Chooser σ} {before after : σ} {decisions : List (Decision g)}
    {δ : Decision g} :
    c.Decides before (decisions ++ [δ]) after ↔
      ∃ between, c.Decides before decisions between ∧
        c.Settles δ.rule.alternatives between δ.index after := by
  constructor
  · intro h
    induction decisions generalizing before with
    | nil =>
      cases h with
      | cons settles rest =>
        cases rest
        exact ⟨before, .nil before, settles⟩
    | cons first rest ih =>
      cases h with
      | cons settles h =>
        obtain ⟨between, hrest, hlast⟩ := ih h
        exact ⟨between, .cons settles hrest, hlast⟩
  · rintro ⟨between, h, settles⟩
    induction h with
    | nil before => exact .cons settles (.nil after)
    | cons first rest ih => exact .cons first (ih settles)

theorem Settles.unique {c : Chooser σ} {alternatives : List Form} {before after after' : σ}
    {index index' : Nat} (h : c.Settles alternatives before index after)
    (h' : c.Settles alternatives before index' after') : index = index' ∧ after = after' := by
  cases h with
  | only single =>
    cases h' with
    | only => exact ⟨rfl, rfl⟩
    | asked several => omega
  | asked several answer =>
    cases h' with
    | only single => omega
    | asked several' answer' =>
      rw [answer] at answer'
      cases answer'
      exact ⟨rfl, rfl⟩

/-- The chooser's answers are known from the steps. -/
theorem Decides.unique {c : Chooser σ} {before after after' : σ}
    {decisions decisions' : List (Decision g)} (h : c.Decides before decisions after)
    (h' : c.Decides before decisions' after')
    (hsteps : decisions.map Decision.step = decisions'.map Decision.step) :
    decisions = decisions' ∧ after = after' := by
  induction h generalizing decisions' with
  | nil before =>
    obtain rfl := List.map_eq_nil_iff.1 hsteps.symm
    cases h'
    exact ⟨rfl, rfl⟩
  | @cons before between after δ decisions settles rest ih =>
    cases h' with
    | nil => cases hsteps
    | @cons _ between' _ δ' decisions' settles' rest' =>
      rw [List.map_cons, List.map_cons, List.cons.injEq] at hsteps
      have hrule := Decision.rule_unique hsteps.1
      rw [← hrule] at settles'
      obtain ⟨hindex, rfl⟩ := settles.unique settles'
      obtain ⟨rfl, rfl⟩ := ih rest' hsteps.2
      rw [Decision.ext_of_index hsteps.1 hindex]
      exact ⟨rfl, rfl⟩

end Chooser

/-! ### What is written -/

/-- The output `t` is `s` with this text written to it. -/
def Stream.Gains (s : Stream) (text : String) (t : Stream) : Prop :=
  t.written = s.written ++ text.toUTF8

theorem Stream.Gains.refl (s : Stream) : s.Gains "" s := by simp [Gains]

theorem Stream.Gains.trans {s t u : Stream} {text more : String} (h : s.Gains text t)
    (h' : t.Gains more u) : s.Gains (text ++ more) u := by
  rw [Gains] at h h' ⊢
  rw [h', h, String.toUTF8, String.toUTF8, String.toUTF8, String.toByteArray_append,
    ByteArray.append_assoc]

/-- What a decision writes, made in the form `f`, if questions are shown by `prompt`. -/
def Decision.told (prompt : List Form → String) (f : Form) (δ : Decision g) : String :=
  Trace.heading f δ.step.start δ.step.length ++ Chooser.asking prompt δ.rule.alternatives ++
    Trace.choice δ.step.start δ.step.length δ.chosen

/-- What decisions write, made one after another from the form `f` on. -/
def story (prompt : List Form → String) : Form → List (Decision g) → String
  | _, [] => ""
  | f, δ :: rest => δ.told prompt f ++ story prompt (δ.step.apply f) rest

theorem story_concat (prompt : List Form → String) (f : Form) (decisions : List (Decision g))
    (δ : Decision g) :
    story prompt f (decisions ++ [δ]) =
      story prompt f decisions ++
        δ.told prompt (Form.replay f (decisions.map Decision.step)) := by
  induction decisions generalizing f with
  | nil => simp [story, Form.replay]
  | cons first rest ih => simp [story, ih, Form.replay, String.append_assoc]

/-! ### What a choice comes to -/

namespace Engine

open PhraseGrammar.Action

/-- The output has failed. -/
def Broken (s : Session σ) (cause : GenerateError) : Prop :=
  ¬ s.output.Unlimited ∧ ∃ fault, cause = .console fault

theorem Broken.of_extends {s t : Session σ} {cause : GenerateError} (h : Broken t cause)
    (hst : s.output.Extends t.output) : Broken s cause :=
  ⟨fun hs => h.1 (hs.of_extends hst), h.2⟩

theorem gains_of_write {text : String} {s t : Session σ}
    (h : write text s = some (.ok (), t)) : s.output.Gains text t.output ∧ t.chooser = s.chooser :=
  ⟨written_of_write h, (write_eq_some h).1⟩

theorem broken_of_write {text : String} {s t : Session σ} {cause : GenerateError}
    (h : write text s = some (.error cause, t)) : Broken s cause := by
  refine ⟨fun hs => ?_, (write_eq_some h).2 cause rfl⟩
  obtain ⟨u, hwrite, -⟩ := write_of_unlimited hs text
  rw [hwrite] at h
  cases h

/-- The chooser has been asked, and the question has been written; or it could not be written. -/
theorem pick_eq_some {c : Chooser σ} {alternatives : List Form} {s t : Session σ}
    {result : Except GenerateError Nat} (h : c.pick alternatives s = some (result, t)) :
    (c.answer alternatives s.chooser = some (result, t.chooser) ∧
        s.output.Gains (c.prompt alternatives) t.output) ∨
      ∃ cause, result = .error cause ∧ Broken s cause := by
  rcases bind_eq_some.1 h with ⟨_, u, hwrite, hask⟩ | ⟨cause, hwrite, rfl⟩
  · obtain ⟨hgains, hchooser⟩ := gains_of_write hwrite
    obtain ⟨⟨_, _⟩, hanswer, hr⟩ := Option.map_eq_some_iff.1 hask
    cases hr
    rw [hchooser] at hanswer
    exact .inl ⟨hanswer, hgains⟩
  · exact .inr ⟨cause, rfl, broken_of_write hwrite⟩

section Choices

variable {c : Chooser σ} {alternatives : List Form} {s t : Session σ} {form : Form}
  {start length : Nat}

theorem select_eq_ok {chosen : Form} (h : select c alternatives s = some (.ok chosen, t)) :
    ∃ index, alternatives[index]? = some chosen ∧
      c.Settles alternatives s.chooser index t.chooser ∧
      s.output.Gains (Chooser.asking c.prompt alternatives) t.output := by
  rcases alternatives with _ | ⟨only, _ | ⟨second, rest⟩⟩
  · cases h
  · cases h
    exact ⟨0, rfl, .only rfl, .refl _⟩
  have several : 2 ≤ (only :: second :: rest).length := by simp
  rcases bind_eq_some.1 h with ⟨index, u, hpick, h⟩ | ⟨cause, -, ⟨⟩⟩
  cases hget : (only :: second :: rest)[index]? with
  | none =>
    simp only [hget] at h
    cases h
  | some form =>
    simp only [hget] at h
    cases h
    rcases pick_eq_some hpick with ⟨hanswer, hgains⟩ | ⟨cause, ⟨⟩, -⟩
    refine ⟨index, hget, .asked several hanswer, ?_⟩
    rwa [Chooser.asking, if_pos several]

/-- A choice that has been made: the alternative, the chooser's part in it, and what was written. -/
theorem exists_index_of_choose {replacement : Form}
    (h : choose c form start length alternatives s = some (.ok replacement, t)) :
    ∃ index chosen, alternatives[index]? = some chosen ∧
      replacement = Form.withoutEpsilon chosen ∧
      c.Settles alternatives s.chooser index t.chooser ∧
      s.output.Gains (Trace.heading form start length ++ Chooser.asking c.prompt alternatives ++
        Trace.choice start length chosen) t.output := by
  rcases bind_eq_some.1 h with ⟨_, u, hheading, h⟩ | ⟨cause, -, ⟨⟩⟩
  rcases bind_eq_some.1 h with ⟨chosen, v, hselect, h⟩ | ⟨cause, -, ⟨⟩⟩
  rcases bind_eq_some.1 h with ⟨_, w, hchoice, h⟩ | ⟨cause, -, ⟨⟩⟩
  cases h
  obtain ⟨hgains, hchooser⟩ := gains_of_write hheading
  obtain ⟨index, hindex, hsettles, hasked⟩ := select_eq_ok hselect
  obtain ⟨hlast, hsame⟩ := gains_of_write hchoice
  rw [hchooser, ← hsame] at hsettles
  exact ⟨index, chosen, hindex, rfl, hsettles, (hgains.trans hasked).trans hlast⟩

end Choices

/-! ### Trails -/

/-- Decisions that lead to work, one replacement after another, if at most `limit` replacements may
be made after the first one. Each one is made where the engine makes it; what is put there has been
decided. -/
inductive Trail (g : Grammar) (limit : Option Nat) : List (Decision g) → Work → Prop
  | first {δ : Decision g} (start : g.startRule? = some δ.rule)
      (step : δ.step = ⟨0, 0, 1, δ.step.replacement⟩) :
      Trail g limit [δ] (.first δ.step.replacement)
  | next {decisions : List (Decision g)} {w : Work} {site : Site} {δ : Decision g}
      (trail : Trail g limit decisions w)
      (unfinished : decisions.length = 1 ∨ w.form.any Symbol.isNonterminal = true)
      (found : g.NextSite w site) (allowed : ∀ m, limit = some m → decisions.length ≤ m)
      (rule : δ.rule = site.rule)
      (step : δ.step =
        ⟨site.index, site.start, site.rule.pattern.length, δ.step.replacement⟩) :
      Trail g limit (decisions ++ [δ]) (w.replace site δ.step.replacement)

namespace Trail

variable {limit : Option Nat} {decisions : List (Decision g)} {w : Work}

/-- The decisions are behind the steps. -/
theorem steps_eq (h : Trail g limit decisions w) :
    decisions.map Decision.step = w.steps.toList := by
  induction h with
  | first start step => rw [List.map_singleton, step, Work.first]
  | next trail unfinished found allowed rule step ih =>
    rw [List.map_append, ih, List.map_singleton, step, Work.replace, Array.toList_push]

theorem length_eq (h : Trail g limit decisions w) : decisions.length = w.steps.size := by
  rw [← Array.length_toList, ← h.steps_eq, List.length_map]

/-- The steps lead from the start symbol to the form. -/
theorem replay_eq (h : Trail g limit decisions w) :
    Form.replay [.start] (decisions.map Decision.step) = w.form := by
  induction h with
  | first start step =>
    rw [List.map_singleton, step]
    simp [Form.replay, Step.apply, Form.splice, Work.first]
  | next trail unfinished found allowed rule step ih =>
    rw [List.map_append, List.map_singleton, Form.replay_concat, ih, step]
    rfl

end Trail

/-- What has been decided and written when a run comes to some work. -/
structure Recounts (e : Engine σ) (s : Session σ) (decisions : List (Decision e.grammar)) (w : Work)
    (t : Session σ) : Prop where
  trail : Trail e.grammar e.maxSteps decisions w
  decides : e.chooser.Decides s.chooser decisions t.chooser
  gains : s.output.Gains (story e.chooser.prompt [.start] decisions) t.output

variable {e : Engine σ} {s t : Session σ} {k : Nat} {w : Work}

theorem exhausted_eq_false :
    e.exhausted w = false ↔ ∀ m, e.maxSteps = some m → w.steps.size ≤ m := by
  unfold exhausted
  cases e.maxSteps with
  | none => simp
  | some m => simp

theorem allowed_of_advance {w' : Work} {site : Site} (h : e.advance w s = some (.ok w', t))
    (found : e.grammar.IsSite w.form w.cursor site) : e.exhausted w = false := by
  have hadvances := advances_of_advance h
  generalize s.chooser = before at hadvances
  cases hadvances with
  | replace found allowed picks => exact allowed
  | reset nowhere moved => exact absurd found.occursFrom nowhere

/-- A search of the run finds the place that comes next after the last replacement. -/
theorem Arrives.nextSite {v : Work} {n : Nat} {site : Site} (h : e.Arrives s k v t)
    (hany : k = 0 ∨ v.form.any Symbol.isNonterminal = true)
    (hrun : e.run n (start s) = ⟨.working w, t⟩) (hw : w.Resumes v)
    (found : e.grammar.IsSite w.form w.cursor site) : e.grammar.NextSite v site := by
  rw [hw.form_eq] at found
  obtain ⟨m, cursor, hsearch, ⟨rfl, hoccurs⟩ | ⟨rfl, nowhere⟩⟩ := h.exists_search hany
  · -- the search has found a place before, so it is the same search
    obtain ⟨site', found'⟩ := hoccurs.exists_isSite
    have hsteps := hw.steps_eq
    have hsame : w = v := by
      rcases Nat.le_total m n with hle | hle
      · exact (run_eq_of_found hle hsearch found' hrun (by rw [hsteps])).1
      · rw [← hw.form_eq] at found
        exact (run_eq_of_found hle hrun found hsearch (by rw [hsteps])).1.symm
    rw [hsame] at found
    exact .inl found
  · rcases hw.cursor_eq with hcursor | hcursor
    · rw [hcursor] at found
      exact absurd found.occursFrom nowhere
    · rw [hcursor] at found
      exact .inr ⟨nowhere, found⟩

/-- The first replacement is the first decision. -/
theorem exists_recounts_first {rule : Rule} {replacement : Form}
    (hrule : e.grammar.startRule? = some rule)
    (hchoose : choose e.chooser [.start] 0 1 rule.alternatives s = some (.ok replacement, t)) :
    ∃ δ, Recounts e s [δ] (.first replacement) t := by
  obtain ⟨index, chosen, hindex, rfl, hsettles, hgains⟩ := exists_index_of_choose hchoose
  have hfirst : e.grammar.rules[0]? = some rule := by rwa [← List.head?_eq_getElem?]
  let δ : Decision e.grammar :=
    ⟨⟨0, 0, 1, Form.withoutEpsilon chosen⟩, rule, index, chosen, hfirst, hindex, rfl⟩
  have htrail : Trail e.grammar e.maxSteps [δ] (.first δ.step.replacement) := .first hrule rfl
  refine ⟨δ, htrail, .cons hsettles (.nil _), ?_⟩
  simpa [story, Decision.told, δ] using hgains

/-- One more replacement is one more decision. -/
theorem Recounts.exists_next {decisions : List (Decision e.grammar)} {u : Session σ} {site : Site}
    {replacement : Form} (h : Recounts e s decisions w u)
    (unfinished : decisions.length = 1 ∨ w.form.any Symbol.isNonterminal = true)
    (found : e.grammar.NextSite w site) (allowed : ∀ m, e.maxSteps = some m → decisions.length ≤ m)
    (hchoose : choose e.chooser w.form site.start site.rule.pattern.length
      site.rule.alternatives u = some (.ok replacement, t)) :
    ∃ δ, Recounts e s (decisions ++ [δ]) (w.replace site replacement) t := by
  obtain ⟨offset, hsite⟩ := found.exists_isSite
  obtain ⟨index, chosen, hindex, rfl, hsettles, hgains⟩ := exists_index_of_choose hchoose
  let δ : Decision e.grammar :=
    ⟨⟨site.index, site.start, site.rule.pattern.length, Form.withoutEpsilon chosen⟩, site.rule,
      index, chosen, hsite.production.2, hindex, rfl⟩
  have htrail : Trail e.grammar e.maxSteps (decisions ++ [δ])
      (w.replace site δ.step.replacement) :=
    .next h.trail unfinished found allowed rfl rfl
  refine ⟨δ, htrail, Chooser.decides_concat.2 ⟨_, h.decides, hsettles⟩, ?_⟩
  rw [story_concat, h.trail.replay_eq]
  exact h.gains.trans hgains

/-- The decisions that are behind a replacement of a run. -/
theorem Arrives.exists_trail (h : e.Arrives s k w t) :
    ∃ decisions, decisions.length = k + 1 ∧ Recounts e s decisions w t := by
  induction k generalizing w t with
  | zero =>
    cases h with
    | first opening =>
      obtain ⟨rule, replacement, hrule, hchoose, heq⟩ := opening_eq_ok opening
      cases heq
      obtain ⟨δ, hrecounts⟩ := exists_recounts_first hrule hchoose
      exact ⟨[δ], rfl, hrecounts⟩
  | succ k ih =>
    cases h with
    | @later n _ v _ u _ run advance before after =>
      obtain ⟨j, v', harrives, hv, hany⟩ := arrives_of_run run
      obtain rfl : j = k := by
        have hsize := harrives.size_eq
        rw [← hv.steps_eq] at hsize
        omega
      obtain ⟨decisions, hlength, hrecounts⟩ := ih harrives
      rw [hv.form_eq] at hany
      rcases advance_eq_ok advance with ⟨site, replacement, found, hchoose, rfl⟩ | ⟨-, -, rfl, -⟩
      · have hunfinished : decisions.length = 1 ∨ v'.form.any Symbol.isNonterminal = true :=
          hany.imp_left fun hj => by rw [hlength, hj]
        have hallowed := exhausted_eq_false.1 (allowed_of_advance advance found)
        rw [before, ← hlength] at hallowed
        have hwork : v.replace site replacement = v'.replace site replacement := by
          simp only [Work.replace, hv.form_eq, hv.steps_eq]
        rw [hv.form_eq] at hchoose
        obtain ⟨δ, hδ⟩ := hrecounts.exists_next hunfinished (harrives.nextSite hany run hv found)
          hallowed hchoose
        exact ⟨decisions ++ [δ], by simp [hlength], hwork ▸ hδ⟩
      · -- moving the cursor adds no step
        simp only at after
        omega

/-- Decisions that are settled are an alternative that is picked. -/
theorem picks_of_settles {c : Chooser σ} {δ : Decision g} {before after : σ}
    (h : c.Settles δ.rule.alternatives before δ.index after) :
    Picks c δ.rule.alternatives before (.ok δ.chosen) after := by
  have hchosen := δ.chosen_eq
  generalize δ.index = index at h hchosen
  cases h with
  | only single =>
    obtain ⟨chosen, halternatives⟩ := List.length_eq_one_iff.1 single
    rw [halternatives] at hchosen ⊢
    cases hchosen
    exact .only rfl
  | asked several answer => exact .asked several answer hchosen

/-- Whoever settles the decisions of a trail makes its replacements. -/
theorem Trail.exists_arrives {decisions : List (Decision e.grammar)}
    (h : Trail e.grammar e.maxSteps decisions w) (hs : s.output.Unlimited) {after : σ}
    (hdecides : e.chooser.Decides s.chooser decisions after) :
    ∃ k t, k + 1 = decisions.length ∧ e.Arrives s k w t ∧ t.chooser = after := by
  induction h generalizing after with
  | @first δ start step =>
    cases hdecides with
    | cons settles rest =>
      cases rest
      obtain ⟨t, ht, hchooser⟩ := exists_arrives_first hs start (picks_of_settles settles)
      rw [δ.replacement_eq]
      exact ⟨0, t, rfl, ht, hchooser⟩
  | @next decisions w site δ trail unfinished found allowed rule step ih =>
    obtain ⟨between, hbefore, hsettles⟩ := Chooser.decides_concat.1 hdecides
    obtain ⟨k, t, hk, ht, rfl⟩ := ih hbefore
    have picks := picks_of_settles hsettles
    rw [rule] at picks
    have hexhausted : e.exhausted w = false :=
      exhausted_eq_false.2 fun m hm => by rw [← trail.length_eq]; exact allowed m hm
    have hany : k = 0 ∨ w.form.any Symbol.isNonterminal = true :=
      unfinished.imp_left fun hone => by omega
    obtain ⟨u, hu, hchooser⟩ := ht.next hs hany found hexhausted picks
    rw [δ.replacement_eq]
    exact ⟨k + 1, u, by simp [hk], hu, hchooser⟩

/-! ### Whole derivations -/

/-- Decisions that lead to a sentence, and not with the first one. -/
structure Concluded (g : Grammar) (limit : Option Nat) (decisions : List (Decision g))
    (d : Derivation) : Prop where
  later : 2 ≤ decisions.length
  finished : d.sentence.any Symbol.isNonterminal = false
  trail : ∃ cursor, Trail g limit decisions ⟨d.sentence, cursor, d.steps.toArray⟩

theorem Concluded.steps_eq {limit : Option Nat} {decisions : List (Decision g)} {d : Derivation}
    (h : Concluded g limit decisions d) : decisions.map Decision.step = d.steps := by
  obtain ⟨cursor, htrail⟩ := h.trail
  exact htrail.steps_eq

theorem Concluded.replay_eq {limit : Option Nat} {decisions : List (Decision g)} {d : Derivation}
    (h : Concluded g limit decisions d) : Form.replay [.start] d.steps = d.sentence := by
  obtain ⟨cursor, htrail⟩ := h.trail
  rw [← h.steps_eq]
  exact htrail.replay_eq

/-- The last pass of a derivation writes the sentence. -/
theorem gains_of_conclude {d : Derivation}
    (h : (conclude w : Action σ Phase) s = some (.ok (.ended (.ok d)), t)) :
    t.chooser = s.chooser ∧ s.output.Gains (Trace.final w.form) t.output := by
  unfold conclude at h
  split at h
  · cases h
  · rcases bind_eq_some.1 h with ⟨_, u, hwrite, h⟩ | ⟨cause, -, ⟨⟩⟩
    cases h
    obtain ⟨hgains, hchooser⟩ := gains_of_write hwrite
    exact ⟨hchooser, hgains⟩

/-- The decisions of a derivation, and everything that has been written. -/
theorem Finishes.exists_decisions {d : Derivation} (h : e.Finishes s (.ok d) t) :
    ∃ decisions, Concluded e.grammar e.maxSteps decisions d ∧
      e.chooser.Decides s.chooser decisions t.chooser ∧
      s.output.Gains (story e.chooser.prompt [.start] decisions ++ Trace.final d.sentence)
        t.output := by
  obtain ⟨k, w, u, hk, harrives, hconclude⟩ := h.exists_conclude
  rcases conclude_eq_some hconclude with ⟨-, ⟨⟩⟩ | ⟨hany, heq | ⟨fault, ⟨⟩⟩⟩
  cases heq
  obtain ⟨decisions, hlength, htrail, hdecides, hgains⟩ := harrives.exists_trail
  obtain ⟨hchooser, hlast⟩ := gains_of_conclude hconclude
  refine ⟨decisions, ⟨by omega, hany, w.cursor, htrail⟩, ?_, hgains.trans hlast⟩
  rwa [hchooser]

/-- Whoever settles the decisions that lead to a sentence derives it. -/
theorem Concluded.exists_finishes {decisions : List (Decision e.grammar)} {d : Derivation}
    (h : Concluded e.grammar e.maxSteps decisions d) (hs : s.output.Unlimited) {after : σ}
    (hdecides : e.chooser.Decides s.chooser decisions after) :
    ∃ t, e.Finishes s (.ok d) t ∧ t.chooser = after ∧
      s.output.Gains (story e.chooser.prompt [.start] decisions ++ Trace.final d.sentence)
        t.output := by
  obtain ⟨cursor, htrail⟩ := h.trail
  obtain ⟨k, u, hk, harrives, hchooser⟩ := htrail.exists_arrives hs hdecides
  have hlater := h.later
  obtain ⟨t, ht⟩ := finishes_of_terminal hs (by omega) harrives h.finished
  obtain ⟨decisions', hconcluded, hdecides', hgains⟩ := ht.exists_decisions
  obtain ⟨rfl, hafter⟩ := hdecides'.unique hdecides (hconcluded.steps_eq.trans h.steps_eq.symm)
  exact ⟨t, ht, hafter, hgains⟩

end Engine

end PhraseGrammar
