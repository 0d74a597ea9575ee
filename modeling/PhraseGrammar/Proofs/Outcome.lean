import PhraseGrammar.Program
import PhraseGrammar.Proofs.Completeness
import PhraseGrammar.Proofs.Decisions
import PhraseGrammar.Proofs.Lexing
import PhraseGrammar.Proofs.Mirroring
import PhraseGrammar.Proofs.Replies

/-!
# What the program does

* `Engine.exists_word_of_finishes`: a sentence is a word of the language that the rules describe;
* `Program.Generates`: what a derivation comes to with the chooser and the limit that a
  configuration asks for, and what it writes to an output of its own;
* `Program.report`: how the program ends for such a result. What it has written before the
  derivation stays in front of the trace (`exists_conclude_iff`);
* `lastButOne?`: the line before the last one. In an output that ends with a derivation it is the
  sentence.

Main statement: `outcome_exact`.
-/

namespace PhraseGrammar

/-! ### Sentences -/

theorem Grammar.WellFormed.pattern_eq {g : Grammar} (hwell : g.WellFormed) {rule : Rule}
    (h : g.startRule? = some rule) : rule.pattern = [.start] := by
  rcases g with ⟨_ | ⟨first, rest⟩⟩
  · exact hwell.elim
  · cases h
    exact hwell.1.1

/-- A form of small letters is a word. -/
theorem Form.exists_word {f : Form}
    (h : ∀ x ∈ f, ∃ c : Char, x = .terminal c ∧ c.isLower = true) :
    ∃ word : List Char, f = word.map .terminal ∧ ∀ c ∈ word, c.isLower = true := by
  induction f with
  | nil => exact ⟨[], rfl, by simp⟩
  | cons x f ih =>
    rw [List.forall_mem_cons] at h
    obtain ⟨⟨c, rfl, hc⟩, hrest⟩ := h
    obtain ⟨word, rfl, hword⟩ := ih hrest
    exact ⟨c :: word, rfl, List.forall_mem_cons.2 ⟨hc, hword⟩⟩

/-- A sentence is a word of small letters, and the rules lead to it from the start symbol. -/
theorem Engine.exists_word_of_finishes {σ : Type} {file : Path} {text : String} {g : Grammar}
    (hread : Grammar.ofText file text = .ok g) {c : Chooser σ} {limit : Option Nat}
    {s t : Session σ} {d : Derivation} (h : Finishes ⟨g, c, limit⟩ s (.ok d) t) :
    ∃ word : List Char, d.sentence = word.map .terminal ∧ (∀ c ∈ word, c.isLower = true) ∧
      g.Yields [.start] (word.map .terminal) := by
  obtain ⟨hwell, halphabet⟩ := wellFormed_of_ofText hread
  obtain ⟨k, w, u, -, harrives, hany, rfl⟩ := h.arrives
  have hletters : ∀ x ∈ w.form, ∃ c : Char, x = .terminal c ∧ c.isLower = true := by
    intro x hx
    have hsupplies : g.Supplies x := supplies_of_reaches hwell halphabet harrives.reaches x hx
    rw [List.any_eq_false] at hany
    exact hsupplies.terminal (by simpa using hany x hx)
  obtain ⟨word, hword, hlower⟩ := Form.exists_word hletters
  refine ⟨word, hword, hlower, ?_⟩
  obtain ⟨rule, alternative, hrule, hmem, hderives⟩ := derivesIn_of_arrives harrives
  have hrules := mem_rules_of_startRule? hrule
  have hrest : g.Yields (Form.withoutEpsilon alternative) w.form :=
    (hwell.yields_iff (hwell.start_not_mem hrules hmem)).2 (Grammar.derives_iff.2 ⟨k, hderives⟩)
  rw [← hword]
  refine .head ⟨rule, hrules, alternative, hmem, [], [], ?_, ?_⟩ hrest
  · rw [hwell.pattern_eq hrule]
    rfl
  · simp

/-! ### Lines of the output -/

/-- The line before the last one, in a text whose lines all end in a line feed. -/
def lastButOne? (text : String) : Option (List Char) :=
  match (text.toList.splitOn '\n').reverse with
  | [] :: _ :: line :: _ => some line
  | _ => none

theorem toList_final (sentence : Form) :
    (Trace.final sentence).toList =
      "Final State:\n".toList ++ (Trace.times 46 '=').toList ++ '\n' :: Form.spelling sentence ++
        '\n' :: (Trace.times 46 '=').toList ++ ['\n'] := by
  have hend : "\n".toList = ['\n'] := rfl
  unfold Trace.final
  simp only [Trace.width, Form.text, String.toList_append, String.toList_ofList, hend,
    List.append_assoc, List.cons_append, List.nil_append]

/-- The final block ends with the sentence and the lower side of its frame. -/
theorem lastButOne?_final (before : String) {word : List Char} (h : ∀ c ∈ word, c.isLower = true) :
    lastButOne? (before ++ Trace.final (word.map .terminal)) = some word := by
  have hword : '\n' ∉ word := fun hmem => nomatch h _ hmem
  have hframe : '\n' ∉ (Trace.times 46 '=').toList := by
    rw [Trace.times, String.toList_ofList]
    intro hmem
    cases List.eq_of_mem_replicate hmem
  have hspelling : Form.spelling (word.map .terminal) = word := by
    simp [Form.spelling, Function.comp_def, Symbol.glyph]
  have hlines : (before ++ Trace.final (word.map .terminal)).toList =
      before.toList ++ "Final State:\n".toList ++ (Trace.times 46 '=').toList ++ '\n' :: word ++
        '\n' :: (Trace.times 46 '=').toList ++ ['\n'] := by
    rw [String.toList_append, toList_final, hspelling]
    simp only [List.append_assoc, List.cons_append]
  rw [lastButOne?, hlines, Lexeme.splitOn_last (by simp), Lexeme.splitOn_last hframe,
    Lexeme.splitOn_last hword]
  simp only [List.reverse_append, List.reverse_singleton, List.singleton_append]

namespace Program

/-- What a derivation comes to with the chooser and the limit that a configuration asks for, and
what it writes to an output of its own. -/
inductive Generates (config : Config) (words : WordStream) (input : List UInt8) (g : Grammar) :
    Except GenerateError Derivation → ByteArray → Prop
  | random {result : Except GenerateError Derivation} {t : Session Nat}
      (random : config.random = true)
      (finishes : Engine.Finishes ⟨g, .random words, config.maxSteps⟩ ⟨0, .empty none⟩ result t) :
      Generates config words input g result t.output.written
  | console {result : Except GenerateError Derivation} {t : Session (List UInt8)}
      (random : config.random = false)
      (finishes : Engine.Finishes ⟨g, .console, config.maxSteps⟩ ⟨input, .empty none⟩ result t) :
      Generates config words input g result t.output.written

/-- How the program ends when its derivation has come to a result and this is its output. -/
def report (file : Path) (output : ByteArray) : Except GenerateError Derivation → Outcome
  | .ok _ => ⟨0, output, ""⟩
  | .error cause => ⟨1, output, (⟨.ofFile file, cause⟩ : Located GenerateError).message ++ "\n"⟩

section Runs

variable {σ : Type} {o : Outcome}

theorem conclude_eq_some_iff {file : Path} {run : Run σ} :
    conclude file run = some o ↔
      ∃ result, run.phase = .ended result ∧ o = report file run.session.output.written result := by
  unfold conclude
  split
  · next d hphase => simp [hphase, report, eq_comm]
  · next cause hphase => simp [hphase, report, failure, eq_comm]
  · next hok herror =>
    simp only [reduceCtorEq, false_iff, not_exists, not_and]
    intro result hphase
    cases result with
    | ok d => exact absurd hphase (hok d)
    | error cause => exact absurd hphase (herror cause)

/-- What is written before the derivation stands in front of the output. -/
theorem behind_output (config : Config) (g : Grammar) (before : σ) :
    Session.Behind (preface config g) ⟨before, output config g⟩ ⟨before, .empty none⟩ := by
  obtain ⟨t, ht, -, hunlimited, hwritten⟩ := Action.write_of_unlimited (s := ⟨before, .empty none⟩)
    Stream.unlimited_empty (preface config g)
  simp only [Action.write, Option.some.injEq, Prod.mk.injEq] at ht
  obtain ⟨-, rfl⟩ := ht
  refine ⟨rfl, hunlimited, Stream.unlimited_empty, hwritten.trans ?_⟩
  simp [Stream.empty]

theorem exists_conclude_iff (file : Path) (config : Config) (g : Grammar) (c : Chooser σ)
    (limit : Option Nat) (before : σ) :
    (∃ passes, conclude file (Engine.run ⟨g, c, limit⟩ passes
        (Engine.start ⟨before, output config g⟩)) = some o) ↔
      ∃ result t, Engine.Finishes ⟨g, c, limit⟩ ⟨before, .empty none⟩ result t ∧
        o = report file ((preface config g).toUTF8 ++ t.output.written) result := by
  have hrun := (mirrored_behind (preface config g) c).run g limit (behind_output config g before)
  constructor
  · rintro ⟨passes, h⟩
    obtain ⟨result, hphase, rfl⟩ := conclude_eq_some_iff.1 h
    obtain ⟨hsame, hbehind⟩ := hrun passes
    rw [hphase] at hsame
    refine ⟨result, _, ⟨passes, by rw [hsame]⟩, ?_⟩
    rw [hbehind.written_eq]
  · rintro ⟨result, t, ⟨passes, hpasses⟩, rfl⟩
    obtain ⟨hsame, hbehind⟩ := hrun passes
    rw [hpasses] at hsame hbehind
    refine ⟨passes, conclude_eq_some_iff.2 ⟨result, hsame, ?_⟩⟩
    rw [hbehind.written_eq]

end Runs

/-- The derivation's output ends with the final block, and the sentence in it is a word of the
language. -/
theorem Generates.exists_word {config : Config} {words : WordStream} {input : List UInt8}
    {g : Grammar} {d : Derivation} {written : ByteArray}
    (h : Generates config words input g (.ok d) written) {file : Path} {text : String}
    (hread : Grammar.ofText file text = .ok g) :
    ∃ (trace : String) (word : List Char),
      written = (trace ++ Trace.final d.sentence).toUTF8 ∧ d.sentence = word.map .terminal ∧
        (∀ c ∈ word, c.isLower = true) ∧ g.Yields [.start] (word.map .terminal) := by
  cases h with
  | random random finishes =>
    obtain ⟨decisions, -, -, hgains⟩ := finishes.exists_decisions
    obtain ⟨word, hword⟩ := Engine.exists_word_of_finishes hread finishes
    rw [Stream.Gains, Stream.empty, ByteArray.empty_append] at hgains
    exact ⟨_, word, hgains, hword⟩
  | console random finishes =>
    obtain ⟨decisions, -, -, hgains⟩ := finishes.exists_decisions
    obtain ⟨word, hword⟩ := Engine.exists_word_of_finishes hread finishes
    rw [Stream.Gains, Stream.empty, ByteArray.empty_append] at hgains
    exact ⟨_, word, hgains, hword⟩

section Files

variable {disk : Disk} {config : Config}

theorem prepare_eq_error_iff {error : Located CompileError} :
    prepare disk config = .error error ↔
      disk.resolve config.file = .error error ∨
        ∃ path, disk.resolve config.file = .ok path ∧ disk.readGrammar path = .error error := by
  unfold prepare
  cases disk.resolve config.file with
  | error other => simp [bind, Except.bind]
  | ok path =>
    cases hread : disk.readGrammar path with
    | error other => simp [bind, Except.bind, hread]
    | ok g => simp [bind, Except.bind, pure, Except.pure, hread]

theorem prepare_eq_ok_iff {path : Path} {g : Grammar} :
    prepare disk config = .ok (path, g) ↔
      disk.resolve config.file = .ok path ∧ disk.readGrammar path = .ok g := by
  unfold prepare
  cases disk.resolve config.file with
  | error other => simp [bind, Except.bind]
  | ok found =>
    cases hread : disk.readGrammar found with
    | error other =>
      simp only [bind, Except.bind, hread, reduceCtorEq, Except.ok.injEq, false_iff, not_and]
      rintro rfl
      simp [hread]
    | ok other =>
      simp only [bind, Except.bind, pure, Except.pure, hread, Except.ok.injEq, Prod.mk.injEq]
      constructor
      · rintro ⟨rfl, rfl⟩
        exact ⟨rfl, hread⟩
      · rintro ⟨rfl, hother⟩
        rw [hread] at hother
        exact ⟨rfl, Except.ok.inj hother⟩

theorem readGrammar_eq_ok_iff {path : Path} {g : Grammar} :
    disk.readGrammar path = .ok g ↔
      ∃ source, disk.readText path = .ok source ∧ Grammar.ofText path source = .ok g := by
  unfold Disk.readGrammar
  cases disk.readText path <;> simp

/-- The outcome of the program is that of the derivation with the chooser that is asked for. -/
theorem exists_outcome_iff {words : WordStream} {input : List UInt8} {path : Path} {g : Grammar}
    {o : Outcome} (h : prepare disk config = .ok (path, g)) :
    (∃ passes, outcome? disk config words input passes = some o) ↔
      ∃ result written, Generates config words input g result written ∧
        o = report path ((preface config g).toUTF8 ++ written) result := by
  have houtcome : ∀ passes, outcome? disk config words input passes =
      if config.random then
        conclude path (Engine.run ⟨g, .random words, config.maxSteps⟩ passes
          (Engine.start ⟨0, output config g⟩))
      else
        conclude path (Engine.run ⟨g, .console, config.maxSteps⟩ passes
          (Engine.start ⟨input, output config g⟩)) := by
    intro passes
    rw [outcome?, h]
  simp only [houtcome]
  cases hrandom : config.random with
  | true =>
    simp only [if_true, exists_conclude_iff]
    constructor
    · rintro ⟨result, t, hfinishes, rfl⟩
      exact ⟨result, _, .random hrandom hfinishes, rfl⟩
    · rintro ⟨result, written, hgenerates, rfl⟩
      cases hgenerates with
      | random random finishes => exact ⟨result, _, finishes, rfl⟩
      | console random finishes => rw [hrandom] at random; cases random
  | false =>
    simp only [Bool.false_eq_true, if_false, exists_conclude_iff]
    constructor
    · rintro ⟨result, t, hfinishes, rfl⟩
      exact ⟨result, _, .console hrandom hfinishes, rfl⟩
    · rintro ⟨result, written, hgenerates, rfl⟩
      cases hgenerates with
      | random random finishes => rw [hrandom] at random; cases random
      | console random finishes => exact ⟨result, _, finishes, rfl⟩

end Files

/-- **What the program does, from its configuration to its end.** If the grammar file is not found
or not accepted, the program writes nothing but the message for the error, and fails. Otherwise its
output is the grammar with an empty line, if it is to be shown, and behind it exactly what the
derivation writes; the program succeeds or fails as the derivation does, and in the second case it
writes a message for the cause. With a seed the choices depend on nothing else. When the program
succeeds, the line before the last one of its output is a word of small letters, and the rules in
the file lead to it from the start symbol. -/
theorem outcome_exact (disk : Disk) (config : Config) (words : WordStream) (input : List UInt8) :
    (∀ error, (disk.resolve config.file = .error error ∨
          ∃ path, disk.resolve config.file = .ok path ∧ disk.readGrammar path = .error error) →
        ∀ passes, outcome? disk config words input passes =
          some ⟨1, .empty, error.message ++ "\n"⟩) ∧
      (∀ path g, disk.resolve config.file = .ok path → disk.readGrammar path = .ok g →
        ∀ o, (∃ passes, outcome? disk config words input passes = some o) ↔
          ∃ result written, Generates config words input g result written ∧
            o = report path
              ((if config.showGrammar then g.text ++ "\n\n" else "").toUTF8 ++ written) result) ∧
      (∀ seed, config.seed = some seed → ∀ key,
        Program.words config key = ChaCha.stream (.ofSeed (UInt64.ofNat seed))) ∧
      ∀ passes o, outcome? disk config words input passes = some o → o.code = 0 →
        ∃ path source g text word, disk.resolve config.file = .ok path ∧
          disk.readText path = .ok source ∧ Grammar.ofText path source = .ok g ∧
          o.output = text.toUTF8 ∧ lastButOne? text = some word ∧
          (∀ c ∈ word, c.isLower = true) ∧ g.Yields [.start] (word.map .terminal) := by
  refine ⟨?_, ?_, ?_, ?_⟩
  · intro error herror passes
    rw [outcome?, prepare_eq_error_iff.2 herror]
    rfl
  · intro path g hresolve hread o
    rw [exists_outcome_iff (prepare_eq_ok_iff.2 ⟨hresolve, hread⟩)]
    rfl
  · intro seed hseed key
    rw [Program.words, hseed]
  · intro passes o ho hcode
    cases hprepare : prepare disk config with
    | error error =>
      rw [outcome?, hprepare] at ho
      cases ho
      cases hcode
    | ok found =>
      obtain ⟨path, g⟩ := found
      obtain ⟨hresolve, hread⟩ := prepare_eq_ok_iff.1 hprepare
      obtain ⟨source, hsource, hgrammar⟩ := readGrammar_eq_ok_iff.1 hread
      obtain ⟨result, written, hgenerates, rfl⟩ := (exists_outcome_iff hprepare).1 ⟨passes, ho⟩
      cases result with
      | error cause => cases hcode
      | ok d =>
        obtain ⟨trace, word, hwritten, hword, hlower, hyields⟩ := hgenerates.exists_word hgrammar
        rw [hword] at hwritten
        refine ⟨path, source, g, preface config g ++ trace ++ Trace.final (word.map .terminal),
          word, hresolve, hsource, hgrammar, ?_, lastButOne?_final _ hlower, hlower, hyields⟩
        simp [report, hwritten, ByteArray.append_assoc]

/-- The text of a grammar that leaves nothing to choose. -/
def plainText : String := "S => A // the end\nA => ab"

/-- The grammar in it. -/
def plain : Grammar where
  rules := [⟨[.start], [[.nonterminal 'A']]⟩,
    ⟨[.nonterminal 'A'], [[.terminal 'a', .terminal 'b']]⟩]

/-- A disk on which every file holds this text, or on which there is no file. -/
def plainDisk (there : Bool) : Disk where
  here := ⟨"/"⟩
  holds _ := there
  read _ := .ok plainText.toUTF8

/-- The grammar is to be shown. -/
def plainConfig : Config := ⟨⟨"a.lang"⟩, false, none, none, true⟩

/-- Choices are made at random, with a seed. -/
def seededConfig : Config := ⟨⟨"a.lang"⟩, true, some 7, none, false⟩

/-- No use is made of these words. -/
def plainWords : WordStream := .cycle #[0]

theorem outcome_exact_plain :
    (∀ passes, ∃ error : Located CompileError,
        outcome? (plainDisk false) plainConfig plainWords [] passes =
          some ⟨1, .empty, error.message ++ "\n"⟩) ∧
      (∀ key, Program.words seededConfig key = ChaCha.stream (.ofSeed 7)) ∧
      ∃ passes o text word, outcome? (plainDisk true) plainConfig plainWords [] passes = some o ∧
        o.code = 0 ∧ o.output = text.toUTF8 ∧ lastButOne? text = some word ∧
        plain.Yields [.start] (word.map .terminal) := by
  refine ⟨?_, ?_, ?_⟩
  · intro passes
    exact ⟨_, (outcome_exact (plainDisk false) plainConfig plainWords []).1 _ (.inl rfl) passes⟩
  · exact (outcome_exact (plainDisk true) seededConfig plainWords []).2.2.1 7 rfl
  · have hresolve : (plainDisk true).resolve plainConfig.file = .ok ⟨"/a.lang"⟩ := rfl
    have htext : (plainDisk true).readText ⟨"/a.lang"⟩ = .ok plainText := by
      rw [Disk.readText, plainDisk]
      dsimp only
      rw [fromUTF8?_toUTF8]
    have hgrammar : Grammar.ofText ⟨"/a.lang"⟩ plainText = .ok plain := rfl
    have hread : (plainDisk true).readGrammar ⟨"/a.lang"⟩ = .ok plain :=
      readGrammar_eq_ok_iff.2 ⟨_, htext, hgrammar⟩
    have hgenerates : Generates plainConfig plainWords [] plain (.ok _) _ :=
      .console rfl ⟨2, rfl⟩
    obtain ⟨-, hruns, -, hsentence⟩ := outcome_exact (plainDisk true) plainConfig plainWords []
    obtain ⟨passes, ho⟩ := (hruns _ _ hresolve hread _).2 ⟨_, _, hgenerates, rfl⟩
    obtain ⟨path, source, g, text, word, hpath, hsource, hg, houtput, hword, -, hyields⟩ :=
      hsentence passes _ ho rfl
    rw [hresolve] at hpath
    cases hpath
    rw [htext] at hsource
    cases hsource
    rw [hgrammar] at hg
    cases hg
    exact ⟨passes, _, text, word, ho, rfl, houtput, hword, hyields⟩

end Program

end PhraseGrammar
