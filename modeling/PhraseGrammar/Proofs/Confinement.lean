import PhraseGrammar.Proofs.Choosers
import PhraseGrammar.Proofs.Halting
import PhraseGrammar.Proofs.RoundTrip

/-!
# Runs of grammars that have been read

A grammar that has been read from a text is well formed and over the alphabet, and no run of it can
leave what the grammar supplies.

* `Grammar.Supplies`: the letters in the alternatives of a grammar. No form of a run holds anything
  else (`supplies_of_reaches`);
* `Engine.Answers.exists_before`: what every answer preserves about the state of the chooser holds
  whenever it is asked;
* `GenerateError.Regular`: the causes of failure that have nothing to do with an answer. A run of a
  well-formed grammar fails for such a cause or for an answer (`regular_of_fails`).

Main statement: `confined_of_ofText`.
-/

namespace PhraseGrammar

/-! ### Letters -/

/-- The symbol is a letter of the alphabet, and it stands in some alternative of the grammar. -/
structure Grammar.Supplies (g : Grammar) (x : Symbol) : Prop where
  letter : x.isLetter = true
  inAlphabet : x.inAlphabet = true
  source : ∃ r ∈ g.rules, ∃ a ∈ r.alternatives, x ∈ a

theorem Form.IsAlternative.isLetter {a : Form} (h : Form.IsAlternative a) {x : Symbol}
    (hx : x ∈ a) (hepsilon : x ≠ .epsilon) : x.isLetter = true := by
  cases a with
  | nil => cases hx
  | cons first rest =>
    rcases List.mem_cons.1 hx with rfl | hx
    · have hstart := h.1
      cases x with
      | start => exact absurd rfl hstart
      | terminal c => rfl
      | nonterminal c => rfl
      | epsilon => exact absurd rfl hepsilon
    · exact h.2 x hx

theorem Form.mem_splice {f replacement : Form} {start length : Nat} {x : Symbol}
    (h : x ∈ Form.splice f start length replacement) : x ∈ f ∨ x ∈ replacement := by
  rw [Form.splice, List.mem_append, List.mem_append] at h
  rcases h with (h | h) | h
  · exact .inl (List.mem_of_mem_take h)
  · exact .inr h
  · exact .inl (List.mem_of_mem_drop h)

/-- Every rule of a well-formed grammar has alternatives to choose from. -/
theorem Grammar.WellFormed.hasAlternatives {g : Grammar} (h : g.WellFormed) :
    ∀ r ∈ g.rules, r.HasAlternatives := by
  rcases g with ⟨_ | ⟨first, rest⟩⟩
  · exact h.elim
  · rw [List.forall_mem_cons]
    exact ⟨h.1.2, fun r hr => (h.2 r hr).2⟩

/-- A replacement consists of what the grammar supplies. -/
theorem Grammar.supplies_of_mem {g : Grammar} (hwell : g.WellFormed) (halphabet : g.OverAlphabet)
    {r : Rule} (hr : r ∈ g.rules) {a : Form} (ha : a ∈ r.alternatives) {x : Symbol}
    (hx : x ∈ Form.withoutEpsilon a) : g.Supplies x := by
  obtain ⟨hmem, hepsilon⟩ := Form.mem_withoutEpsilon.1 hx
  have halternative := (hwell.hasAlternatives r hr).2 a ha
  exact ⟨halternative.isLetter hmem hepsilon, (halphabet r hr).2 a ha x hmem, r, hr, a, ha, hmem⟩

/-- A small letter of the alphabet is a terminal, and no other symbol ends a derivation. -/
theorem Grammar.Supplies.terminal {g : Grammar} {x : Symbol} (h : g.Supplies x)
    (hx : x.isNonterminal = false) : ∃ c : Char, x = .terminal c ∧ c.isLower = true := by
  obtain ⟨hletter, halphabet, -⟩ := h
  cases x with
  | start => cases hletter
  | terminal c => exact ⟨c, rfl, halphabet⟩
  | nonterminal c => cases hx
  | epsilon => cases hletter

/-- What a run can fail for when its grammar is well formed and its choices are valid: it is stuck,
at its limit, or hindered by a fault. -/
inductive GenerateError.Regular : GenerateError → Prop
  | stuck (form : String) : Regular (.stuckDerivation form)
  | limit (steps : Nat) : Regular (.stepLimitExceeded steps)
  | fault (fault : Fault) : Regular (.console fault)

namespace Engine

variable {σ : Type} {e : Engine σ} {s : Session σ} {g : Grammar}

/-- The invariant of a run: all symbols of the form are supplied by the grammar. -/
theorem supplies_of_reaches (hwell : e.grammar.WellFormed) (halphabet : e.grammar.OverAlphabet)
    {w : Work} (h : e.Reaches w) : ∀ x ∈ w.form, e.grammar.Supplies x := by
  induction h with
  | first start mem =>
    intro x hx
    exact Grammar.supplies_of_mem hwell halphabet (mem_rules_of_startRule? start) mem hx
  | advance reaches pass ih =>
    cases pass with
    | replace found allowed picks =>
      intro x hx
      rcases Form.mem_splice hx with hx | hx
      · exact ih x hx
      · exact Grammar.supplies_of_mem hwell halphabet (mem_rules_of_isSite found) picks.mem hx
    | reset nowhere moved => exact ih

/-! ### The state of the chooser -/

section Chooser

variable {P : σ → Prop} (hs : P s.chooser)
  (hanswer : ∀ alternatives before index after, P before →
    e.chooser.answer alternatives before = some (.ok index, after) → P after)
include hanswer

theorem chooser_of_choose {form : Form} {start length : Nat} {alternatives : List Form}
    {replacement : Form} {t u : Session σ} (ht : P t.chooser)
    (h : choose e.chooser form start length alternatives t = some (.ok replacement, u)) :
    P u.chooser := by
  obtain ⟨chosen, picks, -⟩ := choose_eq_ok h
  generalize t.chooser = before at ht picks
  generalize u.chooser = after at picks
  cases picks with
  | only h => exact ht
  | asked several answer h => exact hanswer _ _ _ _ ht answer

include hs

/-- What every answer preserves holds as long as the run goes on. -/
theorem chooser_of_run {n : Nat} {w : Work} {t : Session σ}
    (h : e.run n (start s) = ⟨.working w, t⟩) : P t.chooser := by
  induction n generalizing w t with
  | zero => cases h
  | succ n ih =>
    rw [run_succ] at h
    rcases step_eq_working h with hstay | ⟨hphase, hopening⟩ | ⟨v, u, hrun, hadvance, -⟩
    · exact ih hstay
    · rw [run_eq_of_opening hphase] at hopening
      obtain ⟨rule, replacement, -, hchoose, -⟩ := opening_eq_ok hopening
      exact chooser_of_choose hanswer hs hchoose
    · rcases advance_eq_ok hadvance with ⟨site, replacement, -, hchoose, -⟩ | ⟨-, -, -, rfl⟩
      · exact chooser_of_choose hanswer (ih hrun) hchoose
      · exact ih hrun

/-- And so it holds when the chooser is asked. -/
theorem Answers.exists_before {alternatives : List Form} {answer : Except GenerateError Nat}
    {after : σ} (h : e.Answers s alternatives answer after) :
    ∃ before, P before ∧ e.chooser.answer alternatives before = some (answer, after) := by
  obtain ⟨m, asks, hgiven⟩ := h
  refine ⟨_, ?_, hgiven⟩
  generalize hr : e.run m (start s) = r at asks
  obtain ⟨phase, t⟩ := r
  cases asks with
  | opening start several =>
    have hphase : (e.run m (Engine.start s)).phase = .opening := by rw [hr]
    rw [run_eq_of_opening hphase] at hr
    cases hr
    exact hs
  | working found allowed several => exact chooser_of_run hs hanswer hr

end Chooser

/-! ### Failures -/

/-- Whatever a run of a well-formed grammar fails for is a regular cause, or comes from an answer of
the chooser. -/
theorem regular_of_fails (hwell : e.grammar.WellFormed) {cause : GenerateError} {after : σ}
    (h : e.Fails s cause after) :
    cause.Regular ∨ (∃ alternatives, e.Answers s alternatives (.error cause) after) ∨
      ∃ alternatives index, e.Answers s alternatives (.ok index) after ∧
        alternatives.length ≤ index ∧ cause = .invalidSelection (optionNumber index) := by
  cases h with
  | noRule h =>
    rcases hg : e.grammar with ⟨_ | ⟨first, rest⟩⟩
    · rw [hg] at hwell
      exact hwell.elim
    · rw [hg] at h
      cases h
  | nothingToChoose mem h => exact absurd h (hwell.hasAlternatives _ mem).1
  | stuck h => exact .inl (.stuck _)
  | limit steps => exact .inl (.limit steps)
  | outOfRange answers h => exact .inr (.inr ⟨_, _, answers, h, rfl⟩)
  | declined answers => exact .inr (.inl ⟨_, answers⟩)
  | unwritten fault => exact .inl (.fault fault)

/-- Only the chooser could say that there is no rule, or nothing to choose from. -/
theorem declines_of_ends (hwell : e.grammar.WellFormed) {cause : GenerateError}
    (h : e.Ends s (.error cause)) (hcause : cause = .emptyGrammar ∨ cause = .emptyAlternatives) :
    e.Declines s cause := by
  obtain ⟨t, hfinishes⟩ := ends_iff.1 h
  rcases regular_of_fails hwell (fails_of_finishes hfinishes) with
    hregular | ⟨alternatives, answers⟩ | ⟨_, _, -, -, rfl⟩
  · rcases hcause with rfl | rfl <;> cases hregular
  · exact ⟨alternatives, t.chooser, answers⟩
  · rcases hcause with hcause | hcause <;> cases hcause

theorem regular_of_ends_random (hwell : g.WellFormed) {words : WordStream} {limit : Option Nat}
    {s : Session Nat} {cause : GenerateError}
    (h : Ends ⟨g, .random words, limit⟩ s (.error cause)) : cause.Regular := by
  obtain ⟨t, hfinishes⟩ := ends_iff.1 h
  rcases regular_of_fails hwell (fails_of_finishes hfinishes) with
    hregular | ⟨alternatives, m, asks, answer⟩ | ⟨alternatives, index, ⟨m, -, answer⟩, hle, -⟩
  · exact hregular
  · -- there is something to choose from whenever the chooser is asked
    have hseveral := asks.several
    rw [Chooser.answer_random_eq_error answer] at hseveral
    cases hseveral
  · have hlt := Chooser.inRange_random _ _ _ _ answer
    omega

/-- At the console, the answers before have taken so many lines, and the last line is the one that
is not valid. -/
theorem regular_of_finishes_console (hwell : g.WellFormed) {limit : Option Nat}
    {s t : Session (List UInt8)} {cause : GenerateError}
    (h : Finishes ⟨g, .console, limit⟩ s (.error cause) t) :
    cause.Regular ∨
      ∃ number line answer,
        Console.takeLine (Console.skip number s.chooser) = (line, t.chooser) ∧
          String.fromUTF8? ⟨line.toArray⟩ = some answer ∧
          cause = .invalidSelection (String.ofList (trim answer.toList)) := by
  have hlines : ∀ alternatives before index after,
      (∃ number, before = Console.skip number s.chooser) →
      Chooser.console.answer alternatives before = some (.ok index, after) →
      ∃ number, after = Console.skip number s.chooser := by
    rintro alternatives before index after ⟨number, rfl⟩ hanswer
    rw [Chooser.answer_console, Option.some.injEq, Prod.mk.injEq] at hanswer
    exact ⟨number + 1, hanswer.2.symm⟩
  rcases regular_of_fails hwell (fails_of_finishes h) with
    hregular | ⟨alternatives, answers⟩ | ⟨alternatives, index, ⟨m, -, answer⟩, hle, -⟩
  · exact .inl hregular
  · obtain ⟨before, ⟨number, rfl⟩, hanswer⟩ := Answers.exists_before ⟨0, rfl⟩ hlines answers
    rcases Chooser.answer_console_eq_error hanswer with rfl | ⟨line, text, hline, htext, rfl⟩
    · exact .inl (.fault _)
    · exact .inr ⟨number, line, text, hline, htext, rfl⟩
  · have hlt := Chooser.inRange_console _ _ _ _ answer
    omega

/-- **A grammar that has been read keeps its runs within bounds.** Whatever the chooser, the limit
and the output: unless the chooser says so itself, no rule is missing and no alternatives are; all
forms after the first replacement consist of letters of the alphabet that stand in alternatives of
the grammar; and a sentence consists of small letters. With random choices a run fails only where it
is stuck, at the limit or for a fault; at the console also for the last line that has been read,
which is shown without the blanks around it. -/
theorem confined_of_ofText {file : Path} {text : String} {g : Grammar}
    (h : Grammar.ofText file text = .ok g) (limit : Option Nat) :
    (∀ (σ : Type) (c : Chooser σ) (s : Session σ),
        (∀ cause, Ends ⟨g, c, limit⟩ s (.error cause) →
          cause = .emptyGrammar ∨ cause = .emptyAlternatives → Declines ⟨g, c, limit⟩ s cause) ∧
        (∀ k w t, Arrives ⟨g, c, limit⟩ s k w t → ∀ x ∈ w.form, g.Supplies x) ∧
        ∀ d, Ends ⟨g, c, limit⟩ s (.ok d) →
          ∀ x ∈ d.sentence, ∃ letter : Char, x = .terminal letter ∧ letter.isLower = true) ∧
      (∀ (words : WordStream) (s : Session Nat) (cause : GenerateError),
        Ends ⟨g, .random words, limit⟩ s (.error cause) → cause.Regular) ∧
      ∀ (s t : Session (List UInt8)) (cause : GenerateError),
        Finishes ⟨g, .console, limit⟩ s (.error cause) t →
          cause.Regular ∨
            ∃ number line answer,
              Console.takeLine (Console.skip number s.chooser) = (line, t.chooser) ∧
                String.fromUTF8? ⟨line.toArray⟩ = some answer ∧
                cause = .invalidSelection (String.ofList (trim answer.toList)) := by
  obtain ⟨hwell, halphabet⟩ := wellFormed_of_ofText h
  refine ⟨fun σ c s => ⟨?_, ?_, ?_⟩, ?_, ?_⟩
  · intro cause
    exact declines_of_ends hwell
  · intro k w t harrives
    exact supplies_of_reaches hwell halphabet harrives.reaches
  · intro d hd x hx
    obtain ⟨w, hreaches, hany, rfl⟩ := reaches_of_ends hd
    have hsupplies : g.Supplies x := supplies_of_reaches hwell halphabet hreaches x hx
    rw [List.any_eq_false] at hany
    exact hsupplies.terminal (by simpa using hany x hx)
  · intro words s cause
    exact regular_of_ends_random hwell
  · intro s t cause
    exact regular_of_finishes_console hwell

/-- A grammar with two choices. -/
def choosy : Grammar where
  rules := [⟨[.start], [[.epsilon, .nonterminal 'A'], [.terminal 'b']]⟩,
    ⟨[.nonterminal 'A'], [[.terminal 'a'], [.epsilon]]⟩]

/-- The line ` three ` and another one, as bytes. -/
def typed : List UInt8 := [32, 116, 104, 114, 101, 101, 32, 10, 50, 10]

theorem confined_of_ofText_choosy :
    Grammar.ofText ⟨"choosy.lang"⟩ "S => εA | b\nA => a | ε // the end" = .ok choosy ∧
      (∃ d, Ends ⟨choosy, .script, none⟩ ⟨[0, 0], .empty none⟩ (.ok d) ∧ d.steps.length = 2 ∧
        ∀ x ∈ d.sentence, ∃ letter : Char, x = .terminal letter ∧ letter.isLower = true) ∧
      ∃ t, Finishes ⟨choosy, .console, none⟩ ⟨typed, .empty none⟩
          (.error (.invalidSelection "three")) t ∧
        ∃ number line answer, Console.takeLine (Console.skip number typed) = (line, t.chooser) ∧
          String.fromUTF8? ⟨line.toArray⟩ = some answer ∧
          GenerateError.invalidSelection "three" =
            .invalidSelection (String.ofList (trim answer.toList)) := by
  have hread : Grammar.ofText ⟨"choosy.lang"⟩ "S => εA | b\nA => a | ε // the end" = .ok choosy :=
    rfl
  obtain ⟨hany, -, hconsole⟩ := confined_of_ofText hread none
  refine ⟨hread, ⟨_, ⟨3, rfl⟩, rfl, ?_⟩, ?_⟩
  · exact (hany _ .script ⟨[0, 0], .empty none⟩).2.2 _ ⟨3, rfl⟩
  · -- the first question is the one that is not answered
    have htext : String.fromUTF8? ⟨(Console.takeLine typed).1.toArray⟩ = some " three \n" := by
      decide +kernel
    have hanswer : Console.answer (Console.takeLine typed).1 2 =
        .error (.invalidSelection "three") := by
      rw [Console.answer, htext]
      rfl
    have hdeclines : Declines ⟨choosy, .console, none⟩ ⟨typed, .empty none⟩
        (.invalidSelection "three") :=
      ⟨_, _, 0, .opening rfl (by decide),
        congrArg (fun result => some (result, (Console.takeLine typed).2)) hanswer⟩
    obtain ⟨t, ht⟩ := ends_iff.1 (ends_of_declines Stream.unlimited_empty hdeclines)
    rcases hconsole _ t _ ht with hregular | htyped
    · cases hregular
    · exact ⟨t, ht, htyped⟩

end Engine

end PhraseGrammar
