import PhraseGrammar.Proofs.Arrival

/-!
# Why a run fails

* `Engine.Answers`: the chooser, asked, gives an answer. `Engine.Declines`: it gives a cause of
  failure instead;
* `Engine.StuckAt`: a form in which the derivation cannot go on;
* `Engine.Fails`: everything that a run can fail for. Every run that fails does so for one of these
  causes (`fails_of_finishes`).
-/

namespace PhraseGrammar.Engine

variable {σ : Type} {e : Engine σ} {s : Session σ}

/-- In the run that begins in session `s` the chooser is asked to choose one of these alternatives,
and this is what it answers, and the state that it is left in. -/
def Answers (e : Engine σ) (s : Session σ) (alternatives : List Form)
    (answer : Except GenerateError Nat) (after : σ) : Prop :=
  ∃ m, e.Asks (e.run m (start s)).phase alternatives ∧
    e.chooser.answer alternatives (e.run m (start s)).session.chooser = some (answer, after)

/-- In the run that begins in session `s` the chooser is asked, and it gives a cause of failure. -/
def Declines (e : Engine σ) (s : Session σ) (cause : GenerateError) : Prop :=
  ∃ alternatives after, e.Answers s alternatives (.error cause) after

/-- The replacement number `k` has led to a form in which no production occurs. A nonterminal is
left in it, or only the start symbol has been replaced. -/
structure StuckAt (e : Engine σ) (s : Session σ) (k : Nat) (w : Work) (t : Session σ) : Prop where
  arrives : e.Arrives s k w t
  nowhere : ¬ e.grammar.OccursFrom w.form 0
  unfinished : k = 0 ∨ w.form.any Symbol.isNonterminal = true

/-- What a run can fail for, and the state of the chooser that it leaves behind. -/
inductive Fails (e : Engine σ) (s : Session σ) : GenerateError → σ → Prop
  | noRule (h : e.grammar.startRule? = none) (after : σ) : Fails e s .emptyGrammar after
  | nothingToChoose {rule : Rule} (mem : rule ∈ e.grammar.rules) (h : rule.alternatives = [])
      (after : σ) : Fails e s .emptyAlternatives after
  | stuck {k : Nat} {w : Work} {t : Session σ} (h : e.StuckAt s k w t) (after : σ) :
      Fails e s (.stuckDerivation (Form.text w.form)) after
  | limit (steps : Nat) (after : σ) : Fails e s (.stepLimitExceeded steps) after
  | outOfRange {index : Nat} {alternatives : List Form} {after : σ}
      (answers : e.Answers s alternatives (.ok index) after) (h : alternatives.length ≤ index) :
      Fails e s (.invalidSelection (optionNumber index)) after
  | declined {alternatives : List Form} {cause : GenerateError} {after : σ}
      (answers : e.Answers s alternatives (.error cause) after) : Fails e s cause after
  | unwritten (fault : Fault) (after : σ) : Fails e s (.console fault) after

theorem mem_rules_of_startRule? {g : Grammar} {rule : Rule} (h : g.startRule? = some rule) :
    rule ∈ g.rules := by
  rcases g with ⟨_ | ⟨first, rest⟩⟩
  · cases h
  · cases h
    exact List.mem_cons_self

theorem mem_rules_of_isSite {g : Grammar} {form : Form} {offset : Nat} {site : Site}
    (h : g.IsSite form offset site) : site.rule ∈ g.rules :=
  List.mem_of_getElem? h.production.2

/-- What the chooser is asked about are the alternatives of a rule. -/
theorem Asks.exists_rule {phase : Phase} {alternatives : List Form}
    (h : e.Asks phase alternatives) : ∃ r ∈ e.grammar.rules, r.alternatives = alternatives := by
  cases h with
  | @opening rule start several => exact ⟨rule, mem_rules_of_startRule? start, rfl⟩
  | @working w site found allowed several => exact ⟨site.rule, mem_rules_of_isSite found, rfl⟩

/-- A run whose next choice fails. -/
theorem fails_of_picks {m : Nat} {rule : Rule} (mem : rule ∈ e.grammar.rules)
    (asks : 2 ≤ rule.alternatives.length → e.Asks (e.run m (start s)).phase rule.alternatives)
    {cause : GenerateError} {after : σ}
    (picks : Picks e.chooser rule.alternatives (e.run m (start s)).session.chooser
      (.error cause) after) : e.Fails s cause after := by
  generalize hbefore : (e.run m (start s)).session.chooser = before at picks
  cases picks with
  | nothingToChoose h => exact .nothingToChoose mem h _
  | outOfRange several answer h => exact .outOfRange ⟨m, asks several, hbefore ▸ answer⟩ h
  | refused several answer => exact .declined ⟨m, asks several, hbefore ▸ answer⟩
  | unwritten fault => exact .unwritten fault _

/-- There is no other failure. -/
theorem fails_of_finishes {cause : GenerateError} {t : Session σ}
    (h : e.Finishes s (.error cause) t) : e.Fails s cause t.chooser := by
  rcases h.exists_failure with hopening | ⟨n, w, u, hrun, hpass⟩
  · have hbegins := begins_of_opening hopening
    generalize t.chooser = after at hbegins
    cases hbegins with
    | noRule hrule => exact .noRule hrule _
    | declined start picks =>
      exact fails_of_picks (m := 0) (mem_rules_of_startRule? start)
        (fun several => .opening start several) picks
    | unwritten fault after => exact .unwritten fault _
  · have hadvances := pass_eq_error hpass
    generalize t.chooser = after at hadvances
    cases hadvances with
    | limit found exceeded => exact .limit _ _
    | declined found allowed picks =>
      have hbefore : (e.run n (start s)).session.chooser = u.chooser := by rw [hrun]
      rw [← hbefore] at picks
      refine fails_of_picks (mem_rules_of_isSite found) (fun several => ?_) picks
      rw [hrun]
      exact .working found allowed several
    | stuck nowhere home =>
      obtain ⟨k, v, harrives, hv, hunfinished⟩ := arrives_of_run hrun
      rw [hv.form_eq] at nowhere hunfinished ⊢
      exact .stuck ⟨harrives, nowhere, hunfinished⟩ _
    | unwritten fault after => exact .unwritten fault _

end PhraseGrammar.Engine
