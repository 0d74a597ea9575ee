import PhraseGrammar.Proofs.Chronicle
import PhraseGrammar.Proofs.Replies

/-!
# Questions and lines of input

At the console one line of input belongs to each question, whatever becomes of the question: the
line may hold a number that is out of range, or no number, or no text at all, and the next question
still takes the next line.

* `Console.pieces`: the lines of the input. They are the input cut behind its line feeds
  (`isCut_pieces`), and `Console.takeLine` takes the first of them (`pieces_eq`);
* `Console.Understands`: what a line comes to as the answer to a question (`understands_iff`);
* `Chooser.pickEach`: one question after another.

Main statement: `Chooser.console_in_step`.
-/

namespace PhraseGrammar

/-! ### Lines of input -/

namespace Console

/-- The lines of the input, each with its line feed. The last one may have none. -/
def pieces : List UInt8 → List (List UInt8)
  | [] => []
  | b :: rest =>
    if b = lineFeed then [b] :: pieces rest
    else
      match pieces rest with
      | [] => [[b]]
      | piece :: more => (b :: piece) :: more

/-- The input is cut behind every line feed, and nowhere else. -/
structure IsCut (input : List UInt8) (pieces : List (List UInt8)) : Prop where
  flatten_eq : pieces.flatten = input
  ended : ∀ piece ∈ pieces.dropLast, piece.getLast? = some lineFeed
  whole : ∀ piece ∈ pieces, piece ≠ [] ∧ lineFeed ∉ piece.dropLast

namespace IsCut

variable {b : UInt8} {input piece : List UInt8} {more : List (List UInt8)}

theorem nil : IsCut [] [] := ⟨rfl, by simp, by simp⟩

theorem singleton (b : UInt8) : IsCut [b] [[b]] := ⟨rfl, by simp, by simp⟩

/-- An empty line is put in front. -/
theorem newLine (h : IsCut input more) : IsCut (lineFeed :: input) ([lineFeed] :: more) := by
  obtain ⟨hflatten, hended, hwhole⟩ := h
  refine ⟨by rw [List.flatten_cons, hflatten, List.singleton_append], ?_, ?_⟩
  · cases more with
    | nil => simp
    | cons piece more =>
      rw [List.dropLast_cons_cons, List.forall_mem_cons]
      exact ⟨rfl, hended⟩
  · rw [List.forall_mem_cons]
    exact ⟨by simp, hwhole⟩

/-- The first line gets one byte more at its beginning. -/
theorem cons (h : IsCut input (piece :: more)) (hb : b ≠ lineFeed) :
    IsCut (b :: input) ((b :: piece) :: more) := by
  obtain ⟨hflatten, hended, hwhole⟩ := h
  rw [List.forall_mem_cons] at hwhole
  obtain ⟨⟨hne, hinside⟩, hmore⟩ := hwhole
  refine ⟨by rw [← hflatten]; rfl, ?_, ?_⟩
  · cases more with
    | nil => simp
    | cons second more =>
      rw [List.dropLast_cons_cons, List.forall_mem_cons] at hended ⊢
      obtain ⟨hfirst, hrest⟩ := hended
      exact ⟨by rw [List.getLast?_cons_of_ne_nil hne, hfirst], hrest⟩
  · rw [List.forall_mem_cons, List.dropLast_cons_of_ne_nil hne, List.mem_cons, not_or]
    exact ⟨⟨List.cons_ne_nil _ _, hb.symm, hinside⟩, hmore⟩

end IsCut

theorem isCut_pieces (input : List UInt8) : IsCut input (pieces input) := by
  fun_induction pieces input with
  | case1 => exact .nil
  | case2 rest ih => exact ih.newLine
  | case3 b rest hb hrest ih =>
    rw [hrest] at ih
    rw [← ih.flatten_eq]
    exact .singleton b
  | case4 b rest hb piece more hrest ih =>
    rw [hrest] at ih
    exact ih.cons hb

theorem takeLine_cons (b : UInt8) (rest : List UInt8) :
    takeLine (b :: rest) =
      if b = lineFeed then ([b], rest) else (b :: (takeLine rest).1, (takeLine rest).2) := by
  by_cases hb : b = lineFeed
  · simp [takeLine, inLine, hb]
  · simp [takeLine, inLine, hb]

/-- The first line of the input, and the lines behind it. -/
theorem pieces_eq (input : List UInt8) :
    (pieces input).headD [] = (takeLine input).1 ∧
      (pieces input).tail = pieces (takeLine input).2 := by
  fun_induction pieces input with
  | case1 => exact ⟨rfl, rfl⟩
  | case2 rest ih =>
    rw [takeLine_cons, if_pos rfl]
    exact ⟨rfl, rfl⟩
  | case3 b rest hb hrest ih =>
    obtain ⟨hfirst, hmore⟩ := ih
    rw [hrest] at hfirst hmore
    rw [takeLine_cons, if_neg hb, ← hfirst]
    exact ⟨rfl, hmore⟩
  | case4 b rest hb piece more hrest ih =>
    obtain ⟨hfirst, hmore⟩ := ih
    rw [hrest] at hfirst hmore
    rw [takeLine_cons, if_neg hb, ← hfirst]
    exact ⟨rfl, hmore⟩

/-! ### Answers -/

/-- What a line comes to as the answer to a question with so many options. A line that is not text
is a fault of the console. Of a text the white space around it is left out. -/
inductive Understands (line : List UInt8) (count : Nat) : Except GenerateError Nat → Prop
  | notText (h : String.fromUTF8? ⟨line.toArray⟩ = none) :
      Understands line count (.error (.console .invalidText))
  | text {text : String} {core : List Char} (h : String.fromUTF8? ⟨line.toArray⟩ = some text)
      (trimmed : IsTrimmed text.toList core) :
      Understands line count (Selection.parse (String.ofList core) count)

/-- There is one way to understand a line. -/
theorem understands_iff {line : List UInt8} {count : Nat} {result : Except GenerateError Nat} :
    Understands line count result ↔ result = answer line count := by
  constructor
  · intro h
    cases h with
    | notText h => simp only [answer, h]
    | text h trimmed => simp only [answer, h, trimmed.trim_eq]
  · rintro rfl
    unfold answer
    split
    · next text htext => exact .text htext (isTrimmed_trim text.toList)
    · next hnone => exact .notText hnone

theorem options_eq (number : Nat) (alternatives : List Form) :
    options number alternatives =
      unlines (alternatives.mapIdx fun i a => (number + i).repr ++ ") " ++ Form.text a) := by
  induction alternatives generalizing number with
  | nil => rfl
  | cons a rest ih =>
    have hnumber (i : Nat) : number + 1 + i = number + (i + 1) := by omega
    rw [options, ih, List.mapIdx_cons, unlines_cons]
    simp only [hnumber, Nat.add_zero]

/-- The question has a line for each alternative, behind its number. -/
theorem menu_eq (alternatives : List Form) :
    menu alternatives =
      unlines ("Choose an option:" ::
          alternatives.mapIdx fun i a => (1 + i).repr ++ ") " ++ Form.text a) ++
        "[1-" ++ alternatives.length.repr ++ "] >" := by
  have hheader : "Choose an option:\n" = "Choose an option:" ++ "\n" := rfl
  unfold menu
  rw [hheader, options_eq, unlines_cons]

end Console

/-! ### Questions -/

namespace Chooser

variable {σ : Type}

/-- Asks one question after another, whatever becomes of each. For each question there is its answer
or the cause of failure, and the session that it has led to. -/
def pickEach (c : Chooser σ) :
    List (List Form) → Session σ → Option (List (Except GenerateError Nat × Session σ))
  | [], _ => some []
  | alternatives :: rest, s => do
    let outcome ← c.pick alternatives s
    let outcomes ← pickEach c rest outcome.2
    return outcome :: outcomes

theorem pickEach_cons {c : Chooser σ} {alternatives : List Form} {rest : List (List Form)}
    {s : Session σ} {outcome : Except GenerateError Nat × Session σ}
    {outcomes : List (Except GenerateError Nat × Session σ)}
    (hpick : c.pick alternatives s = some outcome)
    (hrest : c.pickEach rest outcome.2 = some outcomes) :
    c.pickEach (alternatives :: rest) s = some (outcome :: outcomes) := by
  simp [pickEach, hpick, hrest]

/-- A question at the console takes the first line of the input. -/
theorem pick_console {s : Session (List UInt8)} (hs : s.output.Unlimited)
    (alternatives : List Form) :
    ∃ t, console.pick alternatives s =
        some (Console.answer (Console.takeLine s.chooser).1 alternatives.length, t) ∧
      t.chooser = (Console.takeLine s.chooser).2 ∧ t.output.Unlimited ∧
      s.output.Gains (Console.menu alternatives) t.output := by
  obtain ⟨t, hpick, hchooser, ht⟩ :=
    Engine.pick_of_answer hs (answer_console alternatives s.chooser)
  refine ⟨t, hpick, hchooser, ht, ?_⟩
  rcases Engine.pick_eq_some hpick with ⟨-, hgains⟩ | ⟨cause, -, hbroken⟩
  · exact hgains
  · exact absurd hs hbroken.1

/-- Questions at the console, asked one after another. -/
theorem exists_pickEach {s : Session (List UInt8)} (hs : s.output.Unlimited)
    (questions : List (List Form)) :
    ∃ outcomes, console.pickEach questions s = some outcomes ∧
      outcomes.length = questions.length ∧
      ∀ j alternatives, questions[j]? = some alternatives → ∃ t,
        outcomes[j]? = some (Console.answer ((Console.pieces s.chooser).getD j [])
          alternatives.length, t) ∧
        t.chooser = ((Console.pieces s.chooser).drop (j + 1)).flatten ∧
        s.output.Gains (String.join ((questions.take (j + 1)).map Console.menu)) t.output := by
  induction questions generalizing s with
  | nil => exact ⟨[], rfl, rfl, by simp⟩
  | cons first rest ih =>
    obtain ⟨t, hpick, hchooser, ht, hgains⟩ := pick_console hs first
    obtain ⟨outcomes, houtcomes, hlength, hanswers⟩ := ih ht
    obtain ⟨hline, hlines⟩ := Console.pieces_eq s.chooser
    rw [← hchooser] at hlines
    refine ⟨_ :: outcomes, pickEach_cons hpick houtcomes, by simp [hlength], ?_⟩
    rintro (_ | j) alternatives hquestion
    · cases hquestion
      refine ⟨t, ?_, ?_, ?_⟩
      · rw [List.getElem?_cons_zero, ← hline, List.headD_eq_getD]
      · rw [List.drop_one, hlines, (Console.isCut_pieces _).flatten_eq]
      · simpa using hgains
    · obtain ⟨u, houtcome, hu, hmore⟩ := hanswers j alternatives hquestion
      have hget : (Console.pieces t.chooser).getD j [] =
          (Console.pieces s.chooser).getD (j + 1) [] := by
        rw [← hlines]
        cases Console.pieces s.chooser <;> rfl
      refine ⟨u, ?_, ?_, ?_⟩
      · rw [List.getElem?_cons_succ, houtcome, hget]
      · rw [hu, ← hlines, ← List.drop_one, List.drop_drop, Nat.add_comm]
      · simpa using hgains.trans hmore

/-- **Questions at the console and lines of input stay in step.** The input is cut behind its line
feeds. Whatever became of the questions before it, the question with index `j` takes exactly the
line with this index, or nothing if there is none. A line that is not text is a fault of the
console, and any other line is understood as what stands in it between white space. What is written
are the questions, each with a line for each alternative; it does not depend on the input. -/
theorem console_in_step (input : List UInt8) (output : Stream) (hs : output.Unlimited)
    (questions : List (List Form)) :
    Console.IsCut input (Console.pieces input) ∧
      (∀ alternatives, Console.menu alternatives =
        unlines ("Choose an option:" ::
            alternatives.mapIdx fun i a => (1 + i).repr ++ ") " ++ Form.text a) ++
          "[1-" ++ alternatives.length.repr ++ "] >") ∧
      ∃ outcomes, console.pickEach questions ⟨input, output⟩ = some outcomes ∧
        outcomes.length = questions.length ∧
        ∀ j alternatives, questions[j]? = some alternatives → ∃ result t,
          outcomes[j]? = some (result, t) ∧
          Console.Understands ((Console.pieces input).getD j []) alternatives.length result ∧
          t.chooser = ((Console.pieces input).drop (j + 1)).flatten ∧
          output.Gains (String.join ((questions.take (j + 1)).map Console.menu)) t.output := by
  refine ⟨Console.isCut_pieces input, Console.menu_eq, ?_⟩
  obtain ⟨outcomes, houtcomes, hlength, hanswers⟩ :=
    exists_pickEach (s := ⟨input, output⟩) hs questions
  refine ⟨outcomes, houtcomes, hlength, fun j alternatives hquestion => ?_⟩
  obtain ⟨t, houtcome, hrest, hgains⟩ := hanswers j alternatives hquestion
  exact ⟨_, t, houtcome, Console.understands_iff.2 rfl, hrest, hgains⟩

/-- Lines of input: a number that is out of range, a byte that is no text, a number between white
space, and a number without a line feed. -/
def untidy : List UInt8 := [51, 10, 255, 10, 32, 50, 32, 13, 10, 49]

theorem console_in_step_untidy :
    (Stream.empty none).Unlimited ∧
      ∃ outcomes, console.pickEach (.replicate 5 [[.terminal 'a'], [.epsilon]])
          ⟨untidy, .empty none⟩ = some outcomes ∧
        outcomes.map Prod.fst = [.error (.invalidSelection "3"), .error (.console .invalidText),
          .ok 1, .ok 0, .error (.invalidSelection "")] ∧
        ∃ result t, outcomes[4]? = some (result, t) ∧ t.chooser = [] ∧
          (Stream.empty none).Gains
            (String.join (.replicate 5 "Choose an option:\n1) a\n2) ε\n[1-2] >")) t.output := by
  obtain ⟨-, -, outcomes, houtcomes, -, hanswers⟩ := console_in_step untidy (.empty none)
    Stream.unlimited_empty (.replicate 5 [[.terminal 'a'], [.epsilon]])
  have hresults : (console.pickEach (.replicate 5 [[.terminal 'a'], [.epsilon]])
      ⟨untidy, .empty none⟩).map (List.map Prod.fst) = some [.error (.invalidSelection "3"),
        .error (.console .invalidText), .ok 1, .ok 0, .error (.invalidSelection "")] := rfl
  rw [houtcomes, Option.map_some, Option.some.injEq] at hresults
  have hmenu : Console.menu [[.terminal 'a'], [.epsilon]] =
      "Choose an option:\n1) a\n2) ε\n[1-2] >" := by decide +kernel
  obtain ⟨result, t, houtcome, -, hrest, hgains⟩ := hanswers 4 _ rfl
  rw [List.take_of_length_le (by simp), List.map_replicate, hmenu] at hgains
  exact ⟨Stream.unlimited_empty, outcomes, houtcomes, hresults, result, t, houtcome, hrest, hgains⟩

end Chooser

end PhraseGrammar
