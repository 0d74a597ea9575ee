import PhraseGrammar.Proofs.Run

/-!
# Engines in accord

In a pass the engine writes about forms, and it asks at most one question. So two engines whose
forms, rules and sites belong together do the same in a pass, and whatever single actions have in
common, passes have in common.

* `Translation`: what becomes of forms, rules, sites, work and phases when a derivation is told with
  other symbols or with other numbers for its rules;
* `Engine.Asks`, `Engine.Poses`: what the chooser is asked in the next pass, and what is shown
  before;
* `Accord`: two relations between actions that are kept when actions are put together, one for
  actions that may ask the question of the pass, and one for actions that ask nothing;
* `Accord.next?`: what is done next is related. A property of the actions of a single engine is a
  relation that looks at one side only.
-/

namespace PhraseGrammar

variable {σ τ : Type}

/-! ### Translations -/

/-- How a derivation is told in another way. Places and lengths stay the same, and so does what the
engine looks at in a form. -/
structure Translation where
  form : Form → Form
  rule : Rule → Rule
  site : Site → Site
  work : Work → Work
  phase : Phase → Phase
  form_start : form [.start] = [.start]
  form_withoutEpsilon (f : Form) : form (Form.withoutEpsilon f) = Form.withoutEpsilon (form f)
  any_form (f : Form) : (form f).any Symbol.isNonterminal = f.any Symbol.isNonterminal
  rule_alternatives (r : Rule) : (rule r).alternatives = r.alternatives.map form
  length_rule (r : Rule) : (rule r).pattern.length = r.pattern.length
  site_start (s : Site) : (site s).start = s.start
  site_rule (s : Site) : (site s).rule = rule s.rule
  work_form (w : Work) : (work w).form = form w.form
  work_cursor (w : Work) : (work w).cursor = w.cursor
  size_work (w : Work) : (work w).steps.size = w.steps.size
  work_first (f : Form) : work (.first f) = .first (form f)
  work_replace (w : Work) (s : Site) (f : Form) :
    work (w.replace s f) = (work w).replace (site s) (form f)
  work_home (w : Work) : work { w with cursor := 0 } = ⟨form w.form, 0, (work w).steps⟩
  phase_opening : phase .opening = .opening
  phase_working (w : Work) : phase (.working w) = .working (work w)
  phase_sentence (w : Work) : phase (.ended (.ok ⟨w.form, w.steps.toList⟩)) =
    .ended (.ok ⟨(work w).form, (work w).steps.toList⟩)

/-- The derivation is told as it is. -/
def Translation.identity : Translation where
  form := id
  rule := id
  site := id
  work := id
  phase := id
  form_start := rfl
  form_withoutEpsilon _ := rfl
  any_form _ := rfl
  rule_alternatives _ := (List.map_id _).symm
  length_rule _ := rfl
  site_start _ := rfl
  site_rule _ := rfl
  work_form _ := rfl
  work_cursor _ := rfl
  size_work _ := rfl
  work_first _ := rfl
  work_replace _ _ _ := rfl
  work_home _ := rfl
  phase_opening := rfl
  phase_working _ := rfl
  phase_sentence _ := rfl

/-- What a run writes about a form. -/
inductive Trace.Line : (Form → String) → Prop
  | form : Line Trace.form
  | heading (start length : Nat) : Line fun f => Trace.heading f start length
  | choice (start length : Nat) : Line (Trace.choice start length)
  | final : Line Trace.final

/-- Nothing can be replaced in the form, and the search has begun at its start. -/
structure Work.Stuck (g : Grammar) (w : Work) : Prop where
  home : w.cursor = 0
  nowhere : ¬ g.OccursFrom w.form 0

/-! ### Questions -/

namespace Engine

/-- In the next pass the chooser is asked to choose one of these alternatives. -/
inductive Asks (e : Engine σ) : Phase → List Form → Prop
  | opening {rule : Rule} (start : e.grammar.startRule? = some rule)
      (several : 2 ≤ rule.alternatives.length) : Asks e .opening rule.alternatives
  | working {w : Work} {site : Site} (found : e.grammar.IsSite w.form w.cursor site)
      (allowed : e.exhausted w = false) (several : 2 ≤ site.rule.alternatives.length) :
      Asks e (.working w) site.rule.alternatives

theorem Asks.several {e : Engine σ} {phase : Phase} {alternatives : List Form}
    (h : e.Asks phase alternatives) : 2 ≤ alternatives.length := by
  cases h with
  | opening start several => exact several
  | working found allowed several => exact several

/-- In the next pass a span of a form is shown, and then the chooser is asked to choose one of these
alternatives. -/
structure Poses (e : Engine σ) (phase : Phase) (form : Form) (start length : Nat)
    (alternatives : List Form) : Prop where
  asks : e.Asks phase alternatives
  question?_eq : e.question? phase =
    some (Trace.heading form start length ++ e.chooser.prompt alternatives)

theorem poses_opening {e : Engine σ} {rule : Rule} (start : e.grammar.startRule? = some rule)
    (several : 2 ≤ rule.alternatives.length) :
    e.Poses .opening [.start] 0 1 rule.alternatives where
  asks := .opening start several
  question?_eq := by rw [question?, start, Option.bind_some, question, if_pos several]

theorem poses_working {e : Engine σ} {w : Work} {site : Site}
    (hsite : e.grammar.site? w.form w.cursor = some site) (allowed : ¬ e.exhausted w = true)
    (several : 2 ≤ site.rule.alternatives.length) :
    e.Poses (.working w) w.form site.start site.rule.pattern.length site.rule.alternatives where
  asks := .working (Grammar.site?_eq_some_iff.1 hsite) (by simpa using allowed) several
  question?_eq := by
    rw [question?, hsite, Option.bind_some, if_neg allowed, question, if_pos several]

end Engine

/-! ### Related actions -/

open PhraseGrammar.Action

/-- Two relations between the actions of `e'` and those of `e`, for every way to turn the values of
`e` into values of `e'`: `Asking` for actions that may ask the question of this phase, and `Quiet`
for actions that ask nothing. Both are kept when an action that asks nothing follows. -/
structure Accord (T : Translation) (e' : Engine τ) (e : Engine σ) (phase : Phase)
    (Asking Quiet : ∀ {α β : Type}, (β → α) → Action τ α → Action σ β → Prop) : Prop where
  pure {α β : Type} (m : β → α) (b : β) : Quiet m (Pure.pure (m b)) (Pure.pure b)
  fail {α β : Type} (m : β → α) (cause : GenerateError) :
    Quiet m (Action.fail cause) (Action.fail cause)
  write {line : Form → String} (h : Trace.Line line) (f : Form) :
    Quiet id (Action.write (line (T.form f))) (Action.write (line f))
  bind {α β γ δ : Type} {m : β → α} {n : δ → γ} {x : Action τ α} {y : Action σ β}
    {f : α → Action τ γ} {g : β → Action σ δ} (hx : Quiet m x y)
    (hf : ∀ b, Quiet n (f (m b)) (g b)) : Quiet n (x >>= f) (y >>= g)
  quiet {α β : Type} {m : β → α} {x : Action τ α} {y : Action σ β} (h : Quiet m x y) :
    Asking m x y
  /-- The span is shown, and the chooser is asked. -/
  question {f : Form} {start length : Nat} {alternatives : List Form}
    (h : e.Poses phase f start length alternatives) :
    Asking id
      (Action.write (Trace.heading (T.form f) start length) >>= fun _ =>
        e'.chooser.pick (alternatives.map T.form))
      (Action.write (Trace.heading f start length) >>= fun _ => e.chooser.pick alternatives)
  asking_bind {α β γ δ : Type} {m : β → α} {n : δ → γ} {x : Action τ α} {y : Action σ β}
    {f : α → Action τ γ} {g : β → Action σ δ} (hx : Asking m x y)
    (hf : ∀ b, Quiet n (f (m b)) (g b)) : Asking n (x >>= f) (y >>= g)

namespace Accord

variable {T : Translation} {e' : Engine τ} {e : Engine σ} {phase : Phase}
  {Asking Quiet : ∀ {α β : Type}, (β → α) → Action τ α → Action σ β → Prop}
  (h : Accord T e' e phase Asking Quiet)
include h

theorem choose (form : Form) (start length : Nat) (alternatives : List Form)
    (hposes : 2 ≤ alternatives.length → e.Poses phase form start length alternatives) :
    Asking T.form
      (Engine.choose e'.chooser (T.form form) start length (alternatives.map T.form))
      (Engine.choose e.chooser form start length alternatives) := by
  have hheading := h.write (.heading start length) form
  have hchosen : ∀ chosen, Quiet T.form
      (Action.write (Trace.choice start length (T.form chosen)) >>= fun _ =>
        Pure.pure (Form.withoutEpsilon (T.form chosen)))
      (Action.write (Trace.choice start length chosen) >>= fun _ =>
        Pure.pure (Form.withoutEpsilon chosen)) := by
    intro chosen
    rw [← T.form_withoutEpsilon]
    exact h.bind (h.write (.choice start length) chosen) fun _ => h.pure _ _
  -- there is a question only if there are two alternatives or more
  rcases alternatives with _ | ⟨only, _ | ⟨second, rest⟩⟩
  · exact h.quiet (h.bind hheading fun _ => h.bind (h.fail T.form _) hchosen)
  · exact h.quiet (h.bind hheading fun _ => h.bind (h.pure T.form only) hchosen)
  · have hquestion := h.question (hposes (by simp))
    simp only [List.map_cons] at hquestion
    simp only [Engine.choose, Engine.select, List.map_cons, ← bind_assoc]
    refine h.asking_bind (h.asking_bind hquestion fun index => ?_) hchosen
    rw [id_eq, ← List.map_cons, ← List.map_cons, List.getElem?_map]
    cases (only :: second :: rest)[index]? with
    | some chosen => exact h.pure _ _
    | none => exact h.fail _ _

/-- What comes behind a pass asks nothing. -/
theorem conclude (w : Work) :
    Quiet T.phase (Engine.conclude (T.work w)) (Engine.conclude w) := by
  unfold Engine.conclude
  rw [T.work_form, T.any_form]
  split_ifs
  · rw [← T.phase_working]
    exact h.pure _ _
  · refine h.bind (h.write .final w.form) fun _ => ?_
    rw [← T.work_form, ← T.phase_sentence]
    exact h.pure _ _

end Accord

/-! ### What is done next -/

/-- The grammar of `e'` is that of `e`, told in this way, as far as the next pass looks at it. If
that pass is stuck, it shows the form as it is. -/
structure Translation.Carries (T : Translation) (e' : Engine τ) (e : Engine σ) (phase : Phase) :
    Prop where
  startRule?_eq : e'.grammar.startRule? = e.grammar.startRule?.map T.rule
  maxSteps_eq : e'.maxSteps = e.maxSteps
  site?_eq (w : Work) : phase = .working w → e'.grammar.site? (T.form w.form) w.cursor =
    (e.grammar.site? w.form w.cursor).map T.site
  form_eq (w : Work) : phase = .working w → w.Stuck e.grammar → T.form w.form = w.form

theorem carries_identity (g : Grammar) (limit : Option Nat) (c : Chooser τ) (c' : Chooser σ)
    (phase : Phase) : Translation.identity.Carries ⟨g, c, limit⟩ ⟨g, c', limit⟩ phase where
  startRule?_eq := Option.map_id_apply.symm
  maxSteps_eq := rfl
  site?_eq _ _ := Option.map_id_apply.symm
  form_eq _ _ _ := rfl

namespace Accord

variable {T : Translation} {e' : Engine τ} {e : Engine σ}
  {Asking Quiet : ∀ {α β : Type}, (β → α) → Action τ α → Action σ β → Prop}

theorem opening (h : Accord T e' e .opening Asking Quiet) (ht : T.Carries e' e .opening) :
    Asking T.phase e'.opening e.opening := by
  unfold Engine.opening
  rw [ht.startRule?_eq]
  cases hrule : e.grammar.startRule? with
  | none => exact h.quiet (h.fail _ _)
  | some rule =>
    have hchoose := h.choose [.start] 0 1 rule.alternatives (Engine.poses_opening hrule)
    rw [T.form_start, ← T.rule_alternatives] at hchoose
    refine h.asking_bind hchoose fun replacement => ?_
    rw [← T.work_first, ← T.phase_working]
    exact h.pure _ _

theorem advance {w : Work} (h : Accord T e' e (.working w) Asking Quiet)
    (ht : T.Carries e' e (.working w)) : Asking T.work (e'.advance (T.work w)) (e.advance w) := by
  have hexhausted : e'.exhausted (T.work w) = e.exhausted w := by
    simp only [Engine.exhausted, ht.maxSteps_eq, T.size_work]
  unfold Engine.advance
  rw [T.work_form, T.work_cursor, ht.site?_eq w rfl, hexhausted, T.size_work]
  cases hsite : e.grammar.site? w.form w.cursor with
  | some site =>
    simp only [Option.map_some, T.site_rule, T.site_start, T.length_rule, T.rule_alternatives]
    split_ifs with exceeded
    · exact h.quiet (h.fail _ _)
    · have hposes := Engine.poses_working hsite exceeded
      refine h.asking_bind (h.choose _ _ _ _ hposes) fun replacement => ?_
      rw [← T.work_replace]
      exact h.pure _ _
  | none =>
    simp only [Option.map_none]
    split_ifs with home
    · -- the failure names the form, so here both have to be the same
      have nowhere := Grammar.site?_eq_none_iff.1 hsite
      rw [home] at nowhere
      have hform := h.write .form w.form
      rw [ht.form_eq w rfl ⟨home, nowhere⟩] at hform ⊢
      exact h.quiet (h.bind hform fun _ => h.fail _ _)
    · rw [← T.work_home]
      exact h.quiet (h.pure _ _)

theorem pass {w : Work} (h : Accord T e' e (.working w) Asking Quiet)
    (ht : T.Carries e' e (.working w)) : Asking T.phase (e'.pass (T.work w)) (e.pass w) :=
  h.asking_bind (h.advance ht) h.conclude

/-- **What two engines do next belongs together** as their single actions do. -/
theorem next? {phase : Phase} (h : Accord T e' e phase Asking Quiet) (ht : T.Carries e' e phase)
    {y : Action σ Phase} (hy : e.next? phase = some y) :
    ∃ x, e'.next? (T.phase phase) = some x ∧ Asking T.phase x y := by
  rcases Engine.next?_eq_some hy with ⟨rfl, rfl⟩ | ⟨w, rfl, rfl⟩
  · exact ⟨_, by rw [T.phase_opening]; rfl, h.opening ht⟩
  · exact ⟨_, by rw [T.phase_working]; rfl, h.pass ht⟩

end Accord

end PhraseGrammar
