import PhraseGrammar.Engine
import PhraseGrammar.Proofs.Rewriting

/-!
# What a pass can do

The engine's actions taken apart, each with everything it can come to and with the state of the
chooser before and after it. Whatever is to be known of all runs follows from this by induction
over the passes.

* `Engine.Picks`: the outcomes of a choice (`picks_of_select`, `choose_eq_ok`,
  `choose_eq_error`);
* `Engine.Begins`: the outcomes of the first step (`begins_of_opening`);
* `Engine.Advances`: the outcomes of a pass, up to the question whether it is the last one
  (`advances_of_advance`). With the answer to it they are `pass_eq_ok` and `pass_eq_error`.
-/

namespace PhraseGrammar.Engine

variable {σ : Type}

/-! ### Choices -/

/-- What the choice among alternatives can come to. -/
inductive Picks (c : Chooser σ) (alternatives : List Form) (before : σ) :
    Except GenerateError Form → σ → Prop
  | only {chosen : Form} (h : alternatives = [chosen]) :
      Picks c alternatives before (.ok chosen) before
  | asked {index : Nat} {chosen : Form} {after : σ} (several : 2 ≤ alternatives.length)
      (answer : c.answer alternatives before = some (.ok index, after))
      (h : alternatives[index]? = some chosen) : Picks c alternatives before (.ok chosen) after
  | nothingToChoose (h : alternatives = []) :
      Picks c alternatives before (.error .emptyAlternatives) before
  | outOfRange {index : Nat} {after : σ} (several : 2 ≤ alternatives.length)
      (answer : c.answer alternatives before = some (.ok index, after))
      (h : alternatives.length ≤ index) :
      Picks c alternatives before (.error (.invalidSelection (optionNumber index))) after
  /-- The chooser itself fails. -/
  | refused {cause : GenerateError} {after : σ} (several : 2 ≤ alternatives.length)
      (answer : c.answer alternatives before = some (.error cause, after)) :
      Picks c alternatives before (.error cause) after
  /-- The question could not be written. -/
  | unwritten (fault : Fault) : Picks c alternatives before (.error (.console fault)) before

theorem Picks.mem {c : Chooser σ} {alternatives : List Form} {before after : σ} {chosen : Form}
    (h : Picks c alternatives before (.ok chosen) after) : chosen ∈ alternatives := by
  cases h with
  | only h =>
    rw [h]
    exact List.mem_singleton_self chosen
  | asked several answer h => exact List.mem_of_getElem? h

theorem picks_of_select {c : Chooser σ} {alternatives : List Form} {s t : Session σ}
    {result : Except GenerateError Form} (h : select c alternatives s = some (result, t)) :
    Picks c alternatives s.chooser result t.chooser := by
  -- the chooser is asked only if there are two alternatives or more
  rcases alternatives with _ | ⟨only, _ | ⟨second, rest⟩⟩
  · cases h
    exact .nothingToChoose rfl
  · cases h
    exact .only rfl
  have several : 2 ≤ (only :: second :: rest).length := by simp
  rcases Action.bind_eq_some.1 h with ⟨index, u, hpick, h⟩ | ⟨cause, hpick, rfl⟩
  · rcases Chooser.pick_eq_some hpick with answer | ⟨-, fault, ⟨⟩⟩
    cases hget : (only :: second :: rest)[index]? with
    | some form =>
      simp only [hget] at h
      cases h
      exact .asked several answer hget
    | none =>
      simp only [hget] at h
      cases h
      exact .outOfRange several answer (List.getElem?_eq_none_iff.1 hget)
  · rcases Chooser.pick_eq_some hpick with answer | ⟨hchooser, fault, hfault⟩
    · exact .refused several answer
    · cases hfault
      rw [hchooser]
      exact .unwritten fault

/-- A choice gives the alternative that is picked without its empty-word marks, or fails as the
pick does, or for a fault of the output. -/
theorem choose_eq_some {c : Chooser σ} {form : Form} {start length : Nat}
    {alternatives : List Form} {s t : Session σ} {result : Except GenerateError Form}
    (h : choose c form start length alternatives s = some (result, t)) :
    (∃ picked, Picks c alternatives s.chooser picked t.chooser ∧
        result = picked.map Form.withoutEpsilon) ∨
      ∃ fault, result = .error (.console fault) := by
  rcases Action.bind_eq_some.1 h with ⟨_, u, hheading, h⟩ | ⟨cause, hheading, rfl⟩
  · have hbefore : u.chooser = s.chooser := (Action.write_eq_some hheading).1
    rcases Action.bind_eq_some.1 h with ⟨chosen, v, hselect, h⟩ | ⟨cause, hselect, rfl⟩
    · have picks := picks_of_select hselect
      rw [hbefore] at picks
      rcases Action.bind_eq_some.1 h with ⟨_, w, hchoice, h⟩ | ⟨cause, hchoice, rfl⟩
      · cases h
        rw [← (Action.write_eq_some hchoice).1] at picks
        exact .inl ⟨_, picks, rfl⟩
      · obtain ⟨fault, rfl⟩ := (Action.write_eq_some hchoice).2 cause rfl
        exact .inr ⟨fault, rfl⟩
    · have picks := picks_of_select hselect
      rw [hbefore] at picks
      exact .inl ⟨_, picks, rfl⟩
  · obtain ⟨fault, rfl⟩ := (Action.write_eq_some hheading).2 cause rfl
    exact .inr ⟨fault, rfl⟩

theorem choose_eq_ok {c : Chooser σ} {form : Form} {start length : Nat}
    {alternatives : List Form} {s t : Session σ} {replacement : Form}
    (h : choose c form start length alternatives s = some (.ok replacement, t)) :
    ∃ chosen, Picks c alternatives s.chooser (.ok chosen) t.chooser ∧
      replacement = Form.withoutEpsilon chosen := by
  rcases choose_eq_some h with ⟨picked, picks, hpicked⟩ | ⟨fault, ⟨⟩⟩
  cases picked with
  | error cause => cases hpicked
  | ok chosen =>
    cases hpicked
    exact ⟨chosen, picks, rfl⟩

theorem choose_eq_error {c : Chooser σ} {form : Form} {start length : Nat}
    {alternatives : List Form} {s t : Session σ} {cause : GenerateError}
    (h : choose c form start length alternatives s = some (.error cause, t)) :
    Picks c alternatives s.chooser (.error cause) t.chooser ∨ ∃ fault, cause = .console fault := by
  rcases choose_eq_some h with ⟨picked, picks, hpicked⟩ | ⟨fault, hfault⟩
  · cases picked with
    | error cause =>
      cases hpicked
      exact .inl picks
    | ok chosen => cases hpicked
  · cases hfault
    exact .inr ⟨fault, rfl⟩

/-! ### The first step -/

/-- What the first step can come to. -/
inductive Begins (e : Engine σ) (before : σ) : Except GenerateError Phase → σ → Prop
  | first {rule : Rule} {chosen : Form} {after : σ} (start : e.grammar.startRule? = some rule)
      (picks : Picks e.chooser rule.alternatives before (.ok chosen) after) :
      Begins e before (.ok (.working (.first (Form.withoutEpsilon chosen)))) after
  | noRule (h : e.grammar.startRule? = none) : Begins e before (.error .emptyGrammar) before
  | declined {rule : Rule} {cause : GenerateError} {after : σ}
      (start : e.grammar.startRule? = some rule)
      (picks : Picks e.chooser rule.alternatives before (.error cause) after) :
      Begins e before (.error cause) after
  /-- The trace could not be written. -/
  | unwritten (fault : Fault) (after : σ) : Begins e before (.error (.console fault)) after

theorem begins_of_opening {e : Engine σ} {s t : Session σ} {result : Except GenerateError Phase}
    (h : e.opening s = some (result, t)) : e.Begins s.chooser result t.chooser := by
  unfold opening at h
  cases hrule : e.grammar.startRule? with
  | none =>
    simp only [hrule] at h
    cases h
    exact .noRule hrule
  | some rule =>
    simp only [hrule] at h
    rcases Action.bind_eq_some.1 h with ⟨replacement, u, hchoose, h⟩ | ⟨cause, hchoose, rfl⟩
    · obtain ⟨chosen, picks, rfl⟩ := choose_eq_ok hchoose
      cases h
      exact .first hrule picks
    · rcases choose_eq_error hchoose with picks | ⟨fault, rfl⟩
      · exact .declined hrule picks
      · exact .unwritten fault t.chooser

/-! ### Passes -/

/-- What a pass can come to, before it is settled whether it is the last one: an alternative takes
the place of the site that was found, or the cursor goes back to the start of the form, or the pass
fails. -/
inductive Advances (e : Engine σ) (w : Work) (before : σ) : Except GenerateError Work → σ → Prop
  | replace {site : Site} {chosen : Form} {after : σ}
      (found : e.grammar.IsSite w.form w.cursor site) (allowed : e.exhausted w = false)
      (picks : Picks e.chooser site.rule.alternatives before (.ok chosen) after) :
      Advances e w before (.ok (w.replace site (Form.withoutEpsilon chosen))) after
  | reset (nowhere : ¬ e.grammar.OccursFrom w.form w.cursor) (moved : w.cursor ≠ 0) :
      Advances e w before (.ok { w with cursor := 0 }) before
  | limit {site : Site} (found : e.grammar.IsSite w.form w.cursor site)
      (exceeded : e.exhausted w = true) :
      Advances e w before (.error (.stepLimitExceeded (w.steps.size - 1))) before
  | declined {site : Site} {cause : GenerateError} {after : σ}
      (found : e.grammar.IsSite w.form w.cursor site) (allowed : e.exhausted w = false)
      (picks : Picks e.chooser site.rule.alternatives before (.error cause) after) :
      Advances e w before (.error cause) after
  | stuck (nowhere : ¬ e.grammar.OccursFrom w.form 0) (home : w.cursor = 0) :
      Advances e w before (.error (.stuckDerivation (Form.text w.form))) before
  /-- The trace could not be written. -/
  | unwritten (fault : Fault) (after : σ) : Advances e w before (.error (.console fault)) after

theorem advances_of_advance {e : Engine σ} {w : Work} {s t : Session σ}
    {result : Except GenerateError Work} (h : e.advance w s = some (result, t)) :
    e.Advances w s.chooser result t.chooser := by
  unfold advance at h
  cases hsite : e.grammar.site? w.form w.cursor with
  | some site =>
    have found := Grammar.site?_eq_some_iff.1 hsite
    simp only [hsite] at h
    by_cases exceeded : e.exhausted w = true
    · rw [if_pos exceeded] at h
      cases h
      exact .limit found exceeded
    · rw [if_neg exceeded] at h
      have allowed : e.exhausted w = false := by simpa using exceeded
      rcases Action.bind_eq_some.1 h with ⟨replacement, u, hchoose, h⟩ | ⟨cause, hchoose, rfl⟩
      · obtain ⟨chosen, picks, rfl⟩ := choose_eq_ok hchoose
        cases h
        exact .replace found allowed picks
      · rcases choose_eq_error hchoose with picks | ⟨fault, rfl⟩
        · exact .declined found allowed picks
        · exact .unwritten fault t.chooser
  | none =>
    have nowhere := Grammar.site?_eq_none_iff.1 hsite
    simp only [hsite] at h
    by_cases home : w.cursor = 0
    · rw [if_pos home] at h
      rw [home] at nowhere
      rcases Action.bind_eq_some.1 h with ⟨_, u, hwrite, h⟩ | ⟨cause, hwrite, rfl⟩
      · cases h
        rw [(Action.write_eq_some hwrite).1]
        exact .stuck nowhere home
      · obtain ⟨fault, rfl⟩ := (Action.write_eq_some hwrite).2 cause rfl
        exact .unwritten fault t.chooser
    · rw [if_neg home] at h
      cases h
      exact .reset nowhere home

/-- After a pass the derivation goes on, ends with its sentence, or cannot write the sentence. -/
theorem conclude_eq_some {w : Work} {s t : Session σ} {result : Except GenerateError Phase}
    (h : conclude w s = some (result, t)) :
    (w.form.any Symbol.isNonterminal = true ∧ result = .ok (.working w)) ∨
      (w.form.any Symbol.isNonterminal = false ∧
        (result = .ok (.ended (.ok ⟨w.form, w.steps.toList⟩)) ∨
          ∃ fault, result = .error (.console fault))) := by
  unfold conclude at h
  by_cases hany : w.form.any Symbol.isNonterminal = true
  · rw [if_pos hany] at h
    cases h
    exact .inl ⟨hany, rfl⟩
  · rw [if_neg hany] at h
    refine .inr ⟨by simpa using hany, ?_⟩
    rcases Action.bind_eq_some.1 h with ⟨_, u, -, h⟩ | ⟨cause, hwrite, rfl⟩
    · cases h
      exact .inl rfl
    · obtain ⟨fault, rfl⟩ := (Action.write_eq_some hwrite).2 cause rfl
      exact .inr ⟨fault, rfl⟩

theorem pass_eq_ok {e : Engine σ} {w : Work} {s t : Session σ} {phase : Phase}
    (h : e.pass w s = some (.ok phase, t)) :
    ∃ w' u, e.advance w s = some (.ok w', u) ∧
      ((w'.form.any Symbol.isNonterminal = true ∧ phase = .working w') ∨
        (w'.form.any Symbol.isNonterminal = false ∧
          phase = .ended (.ok ⟨w'.form, w'.steps.toList⟩))) := by
  rcases Action.bind_eq_some.1 h with ⟨w', u, hadvance, h⟩ | ⟨cause, -, ⟨⟩⟩
  refine ⟨w', u, hadvance, ?_⟩
  rcases conclude_eq_some h with ⟨hany, hphase⟩ | ⟨hany, hphase | ⟨fault, ⟨⟩⟩⟩
  · cases hphase
    exact .inl ⟨hany, rfl⟩
  · cases hphase
    exact .inr ⟨hany, rfl⟩

theorem pass_eq_error {e : Engine σ} {w : Work} {s t : Session σ} {cause : GenerateError}
    (h : e.pass w s = some (.error cause, t)) :
    e.Advances w s.chooser (.error cause) t.chooser := by
  rcases Action.bind_eq_some.1 h with ⟨w', u, -, h⟩ | ⟨cause, hadvance, ⟨⟩⟩
  · rcases conclude_eq_some h with ⟨-, ⟨⟩⟩ | ⟨-, hresult | ⟨fault, hresult⟩⟩
    · cases hresult
    · cases hresult
      exact .unwritten fault t.chooser
  · exact advances_of_advance hadvance

end PhraseGrammar.Engine
