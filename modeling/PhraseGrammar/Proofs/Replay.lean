import PhraseGrammar.Proofs.Chronicle
import PhraseGrammar.Proofs.Mirroring
import PhraseGrammar.Proofs.Replies

/-!
# Derivations told again at the console

The chooser is asked once for each step that has several alternatives, and so the answers alone tell
a derivation.

* `Grammar.InMemory`: a word counts the alternatives of each rule;
* `Chooser.recorded`: a chooser that keeps a record of its questions and answers. Nothing else is
  different (`mirrored_recorded`), and the record holds the questions of the decisions
  (`Decides.of_recorded`);
* `Chooser.aside`: a chooser that shows its questions elsewhere;
* `decides_console`: replies at the console settle the decisions that they are replies to.

Main statement: `replay_exact`.
-/

namespace PhraseGrammar

variable {σ : Type} {g : Grammar}

/-- A word counts the alternatives of each rule, as it does for lists in memory. -/
def Grammar.InMemory (g : Grammar) : Prop :=
  ∀ r ∈ g.rules, r.alternatives.length < Numeral.wordCount

instance (g : Grammar) : Decidable g.InMemory :=
  inferInstanceAs (Decidable (∀ r ∈ g.rules, r.alternatives.length < Numeral.wordCount))

/-- What the chooser is asked for a decision, and what it answers. There is no question where there
is only one answer. -/
def Decision.question? (δ : Decision g) : Option (List Form × Except GenerateError Nat) :=
  if 2 ≤ δ.rule.alternatives.length then some (δ.rule.alternatives, .ok δ.index) else none

namespace Chooser

/-- The same chooser, which keeps a record of what it is asked and what it answers. -/
def recorded (c : Chooser σ) : Chooser (σ × List (List Form × Except GenerateError Nat)) where
  prompt := c.prompt
  answer alternatives state :=
    (c.answer alternatives state.1).map fun (answer, after) =>
      (answer, after, state.2 ++ [(alternatives, answer)])

/-- The same chooser, which shows its questions elsewhere. -/
def aside (c : Chooser σ) : Chooser σ where
  prompt _ := ""
  answer := c.answer

/-! ### Records -/

/-- A record changes nothing about a run. -/
theorem mirrored_recorded (c : Chooser σ) :
    Engine.Mirrored (fun s t => s.chooser.1 = t.chooser ∧ s.output = t.output) c.recorded c := by
  refine Engine.mirrored_of_ask (fun text => ?_) rfl fun alternatives => ?_
  · rintro ⟨before, output⟩ ⟨_, _⟩ ⟨rfl, rfl⟩
    exact .done ⟨rfl, rfl⟩
  · rintro ⟨before, output⟩ ⟨_, _⟩ ⟨rfl, rfl⟩
    unfold Action.ask
    simp only [recorded]
    cases c.answer alternatives before.1 with
    | none => exact .waiting
    | some answer => exact .done ⟨rfl, rfl⟩

theorem Settles.of_recorded {c : Chooser σ} {alternatives : List Form} {index : Nat}
    {before after : σ × List (List Form × Except GenerateError Nat)}
    (h : c.recorded.Settles alternatives before index after) :
    c.Settles alternatives before.1 index after.1 ∧
      after.2 =
        before.2 ++ if 2 ≤ alternatives.length then [(alternatives, .ok index)] else [] := by
  cases h with
  | only single =>
    rw [if_neg (by omega), List.append_nil]
    exact ⟨.only single, rfl⟩
  | asked several answer =>
    obtain ⟨⟨_, after'⟩, hanswer, heq⟩ := Option.map_eq_some_iff.1 answer
    cases heq
    rw [if_pos several]
    exact ⟨.asked several hanswer, rfl⟩

/-- The record holds the questions of the decisions, each of them once, in their order. -/
theorem Decides.of_recorded {c : Chooser σ} {decisions : List (Decision g)}
    {before after : σ × List (List Form × Except GenerateError Nat)}
    (h : c.recorded.Decides before decisions after) :
    c.Decides before.1 decisions after.1 ∧
      after.2 = before.2 ++ decisions.filterMap Decision.question? := by
  induction h with
  | nil before => exact ⟨.nil _, by simp⟩
  | @cons before between after δ decisions settles rest ih =>
    obtain ⟨hsettles, hfirst⟩ := settles.of_recorded
    obtain ⟨hdecides, hrest⟩ := ih
    refine ⟨.cons hsettles hdecides, ?_⟩
    rw [hrest, hfirst, List.append_assoc, List.filterMap_cons]
    unfold Decision.question?
    split_ifs <;> rfl

/-! ### Replies -/

theorem Settles.aside {c : Chooser σ} {alternatives : List Form} {index : Nat} {before after : σ}
    (h : c.Settles alternatives before index after) :
    c.aside.Settles alternatives before index after := by
  cases h with
  | only single => exact .only single
  | asked several answer => exact .asked several answer

/-- Where the questions are shown does not matter for the answers. -/
theorem Decides.aside {c : Chooser σ} {decisions : List (Decision g)} {before after : σ}
    (h : c.Decides before decisions after) : c.aside.Decides before decisions after := by
  induction h with
  | nil before => exact .nil before
  | cons settles rest ih => exact .cons settles.aside ih

/-- Replies at the console settle the decisions that they are replies to, and leave the rest of the
input. -/
theorem decides_console (hg : g.InMemory) {decisions : List (Decision g)}
    {replies : List Console.Reply}
    (h : (decisions.filterMap Decision.question?).map Prod.snd =
      replies.map fun r => .ok r.index) (rest : List UInt8) :
    console.Decides (replies.flatMap Console.Reply.bytes ++ rest) decisions rest := by
  induction decisions generalizing replies with
  | nil =>
    obtain rfl := List.map_eq_nil_iff.1 h.symm
    exact .nil rest
  | cons δ decisions ih =>
    by_cases several : 2 ≤ δ.rule.alternatives.length
    · rw [List.filterMap_cons_some (by rw [Decision.question?, if_pos several])] at h
      rcases replies with _ | ⟨r, replies⟩
      · cases h
      rw [List.map_cons, List.map_cons, List.cons.injEq] at h
      obtain ⟨hindex, hrest⟩ := h
      have hr : r.index = δ.index := (Except.ok.inj hindex).symm
      have hlt : r.index < δ.rule.alternatives.length := by
        rw [hr]
        exact (List.getElem?_eq_some_iff.1 δ.chosen_eq).1
      rw [List.flatMap_cons, List.append_assoc]
      refine .cons (.asked several ?_) (ih hrest)
      have hcount := hg _ (List.mem_of_getElem? δ.rule_eq)
      rw [answer_console, r.takeLine_bytes, r.answer_bytes hlt hcount, hr]
    · rw [List.filterMap_cons_none (by rw [Decision.question?, if_neg several])] at h
      have hlt := (List.getElem?_eq_some_iff.1 δ.chosen_eq).1
      have hindex : δ.index = 0 := by omega
      refine .cons ?_ (ih h)
      rw [hindex]
      exact .only (by omega)

end Chooser

/-! ### The main statement -/

namespace Engine

/-- A record that is kept of a derivation comes to hold the questions of its decisions. -/
theorem Finishes.recorded {e : Engine σ} {s t : Session σ} {d : Derivation}
    (h : e.Finishes s (.ok d) t) {decisions : List (Decision e.grammar)}
    (hsteps : decisions.map Decision.step = d.steps)
    (hdecides : e.chooser.Decides s.chooser decisions t.chooser) :
    Finishes ⟨e.grammar, e.chooser.recorded, e.maxSteps⟩ ⟨(s.chooser, []), s.output⟩ (.ok d)
      ⟨(t.chooser, decisions.filterMap Decision.question?), t.output⟩ := by
  obtain ⟨⟨⟨after, record⟩, output⟩, hv, hchooser, houtput⟩ :=
    e.chooser.mirrored_recorded.exists_finishes e.grammar e.maxSteps
      (s := ⟨(s.chooser, []), s.output⟩) ⟨rfl, rfl⟩ h
  obtain ⟨decisions', hconcluded, hrecorded, -⟩ := hv.exists_decisions
  obtain ⟨hdecides', hrecord⟩ := hrecorded.of_recorded
  obtain ⟨rfl, -⟩ := hdecides'.unique hdecides (hconcluded.steps_eq.trans hsteps.symm)
  cases hchooser
  cases houtput
  cases hrecord
  exact hv

/-- **The chooser is asked what has to be decided, and its answers tell the derivation.** Behind the
steps of a derivation there are decisions. The chooser was asked for each decision with several
alternatives, once and in their order, and for nothing else. Replies at the console that name the
same options, with margins and leading zeros, derive the same sentence by the same steps, if a word
counts the alternatives of each rule; the input behind them is left unread. If the questions are
shown elsewhere, the trace is the same byte for byte. -/
theorem replay_exact (e : Engine σ) {s t : Session σ} {d : Derivation}
    (h : e.Finishes s (.ok d) t) :
    ∃ decisions : List (Decision e.grammar),
      decisions.map Decision.step = d.steps ∧
        s.output.Gains (story e.chooser.prompt [.start] decisions ++ Trace.final d.sentence)
          t.output ∧
        Finishes ⟨e.grammar, e.chooser.recorded, e.maxSteps⟩ ⟨(s.chooser, []), s.output⟩ (.ok d)
          ⟨(t.chooser, decisions.filterMap Decision.question?), t.output⟩ ∧
        ∀ (replies : List Console.Reply) (rest : List UInt8) (output : Stream),
          e.grammar.InMemory →
            (decisions.filterMap Decision.question?).map Prod.snd =
              (replies.map fun r => .ok r.index) →
            output.Unlimited →
            (∃ u, Finishes ⟨e.grammar, .console, e.maxSteps⟩
                ⟨replies.flatMap Console.Reply.bytes ++ rest, output⟩ (.ok d) u ∧
              u.chooser = rest ∧
              output.Gains (story Console.menu [.start] decisions ++ Trace.final d.sentence)
                u.output) ∧
              ∃ u v, Finishes ⟨e.grammar, .aside .console, e.maxSteps⟩
                  ⟨replies.flatMap Console.Reply.bytes ++ rest, output⟩ (.ok d) u ∧
                u.chooser = rest ∧
                Finishes ⟨e.grammar, e.chooser.aside, e.maxSteps⟩ ⟨s.chooser, output⟩ (.ok d) v ∧
                u.output.written = v.output.written := by
  obtain ⟨g, c, limit⟩ := e
  obtain ⟨decisions, hconcluded, hdecides, hgains⟩ := h.exists_decisions
  refine ⟨decisions, hconcluded.steps_eq, hgains, h.recorded hconcluded.steps_eq hdecides, ?_⟩
  intro replies rest output hg hreplies hout
  have hconsole := Chooser.decides_console hg hreplies rest
  obtain ⟨u, hu, hrest, hmenus⟩ := hconcluded.exists_finishes
    (e := ⟨g, .console, limit⟩) (s := ⟨_, output⟩) hout hconsole
  obtain ⟨u', hu', hrest', htrace⟩ := hconcluded.exists_finishes
    (e := ⟨g, .aside .console, limit⟩) (s := ⟨_, output⟩) hout hconsole.aside
  obtain ⟨v, hv, -, htrace'⟩ := hconcluded.exists_finishes
    (e := ⟨g, c.aside, limit⟩) (s := ⟨_, output⟩) hout hdecides.aside
  refine ⟨⟨u, hu, hrest, hmenus⟩, u', v, hu', hrest', hv, ?_⟩
  exact Eq.trans htrace htrace'.symm

/-- No white space. -/
def noMargin : Console.Margin where
  chars := []
  blank := by simp
  inLine := by simp

/-- A blank and a tabulator. -/
def wideMargin : Console.Margin where
  chars := [' ', '\t']
  blank := List.forall_mem_cons.2 ⟨rfl, List.forall_mem_singleton.2 rfl⟩
  inLine := by decide

/-- The lines `002`, between margins, `2` and `01`. -/
def wanderingReplies : List Console.Reply :=
  [⟨wideMargin, 2, 1, wideMargin⟩, ⟨noMargin, 0, 1, noMargin⟩, ⟨noMargin, 1, 0, noMargin⟩]

/-- Four steps, three questions: the second step has no choice. -/
theorem replay_exact_wanderer :
    (∃ t, wanderer.Finishes ⟨[1, 1, 0], .empty none⟩ (.ok wandered) t) ∧
      ∀ rest, ∃ u, Finishes ⟨wandering, .console, none⟩
        ⟨wanderingReplies.flatMap Console.Reply.bytes ++ rest, .empty none⟩ (.ok wandered) u ∧
        u.chooser = rest := by
  have hended : wanderer.Finishes ⟨[1, 1, 0], .empty none⟩ (.ok wandered) _ := ⟨5, rfl⟩
  have hasked : Finishes ⟨wandering, Chooser.script.recorded, none⟩
      ⟨([1, 1, 0], []), .empty none⟩ (.ok wandered) _ := ⟨5, rfl⟩
  obtain ⟨decisions, -, -, hrecorded, hreplay⟩ := replay_exact wanderer hended
  have hsession := (hrecorded.unique hasked).2
  have hrecord := congrArg (fun t => t.chooser.2.map Prod.snd) hsession
  have hwords : wandering.InMemory := by decide
  refine ⟨⟨_, hended⟩, fun rest => ?_⟩
  exact (hreplay wanderingReplies rest (.empty none) hwords hrecord Stream.unlimited_empty).1.imp
    fun u hu => ⟨hu.1, hu.2.1⟩

end Engine

end PhraseGrammar
