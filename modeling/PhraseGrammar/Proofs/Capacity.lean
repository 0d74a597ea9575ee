import PhraseGrammar.Chooser.Console
import PhraseGrammar.Proofs.Arrival

/-!
# Outputs that take so many bytes

A run whose output takes only so many bytes does the same as the run whose output takes all of them,
up to the byte where the output fails. There it ends, with the fault of the output.

* `Stream.cutoff`: an output that takes so many bytes in all and fails then;
* `Stream.capped`, `Session.capped`: what has been written is the same, but the output takes only so
  many bytes;
* `Truncates`: what an action comes to with a capped output, compared with what it comes to without.
  This is kept when actions are put together (`closed_truncated`), and so it holds of the engine's
  runs (`follows_run`);
* `Action.Waits`: the chooser answers only when a certain text has been written. For what is done
  next this is the whole question (`waits_of_next?`), and so it holds of passes (`step_chooser`).

Main statement: `finishes_truncated`.
-/

namespace PhraseGrammar

variable {σ α β : Type} {n : Nat} {fault : Fault}

/-! ### Outputs -/

namespace Stream

/-- When an output refuses bytes that takes `n` bytes in all and then fails with `fault`. -/
def cutoff (n : Nat) (fault : Fault) (taken : Nat) (bytes : ByteArray) : Option (Nat × Fault) :=
  if taken + bytes.size ≤ n then none else some (n - taken, fault)

/-- An output with the same bytes that takes only `n` bytes in all. -/
def capped (s : Stream) (n : Nat) (fault : Fault) : Stream := { s with refusal := cutoff n fault }

/-- An output that takes all bytes, and that still holds those it has taken. -/
structure Complete (s : Stream) : Prop where
  unlimited : s.Unlimited
  taken_eq : s.taken = s.written.size

theorem extract_of_size_le {bytes : ByteArray} (h : bytes.size ≤ n) : bytes.extract 0 n = bytes := by
  have hmax := ByteArray.extract_zero_max_size (a := bytes) (i := n)
  rwa [Nat.max_eq_left h] at hmax

theorem complete_empty : (empty none).Complete := ⟨unlimited_empty, rfl⟩

theorem Complete.write {s : Stream} (hs : s.Complete) (text : String) :
    (s.write text).2.Complete ∧ (s.write text).2.written = s.written ++ text.toUTF8 := by
  have hwrite : s.write text =
      (.ok (), ⟨s.written ++ text.toUTF8, s.taken + text.toUTF8.size, s.refusal⟩) := by
    simp [Stream.write, writeBytes, hs.unlimited _ _]
  rw [hwrite]
  refine ⟨⟨hs.unlimited, ?_⟩, rfl⟩
  show s.taken + text.toUTF8.size = (s.written ++ text.toUTF8).size
  rw [ByteArray.size_append, hs.taken_eq]

/-- Text that fits is written as if there were no limit. -/
theorem Complete.write_capped_of_le {s : Stream} (hs : s.Complete) {text : String}
    (h : (s.write text).2.written.size ≤ n) :
    (s.capped n fault).write text = (.ok (), (s.write text).2.capped n fault) := by
  rw [(hs.write text).2, ByteArray.size_append, ← hs.taken_eq] at h
  unfold Stream.write
  generalize text.toUTF8 = bytes at h ⊢
  simp [writeBytes, capped, cutoff, h, hs.unlimited _ _]

/-- Of text that does not fit, the bytes are written that do. -/
theorem Complete.write_capped_of_lt {s : Stream} (hs : s.Complete) (fault : Fault)
    (hle : s.written.size ≤ n) {text : String} (h : n < (s.write text).2.written.size) :
    ∃ u : Stream, (s.capped n fault).write text = (.error fault, u) ∧
      u.written = (s.write text).2.written.extract 0 n := by
  rw [(hs.write text).2] at h ⊢
  rw [ByteArray.size_append] at h
  unfold Stream.write
  generalize text.toUTF8 = bytes at h ⊢
  have hne : bytes.isEmpty = false := by
    rw [ByteArray.isEmpty, beq_eq_false_iff_ne]
    omega
  have hlt : ¬ s.taken + bytes.size ≤ n := by
    rw [hs.taken_eq]
    omega
  refine ⟨⟨s.written ++ bytes.extract 0 (n - s.taken), s.taken + min (n - s.taken) bytes.size,
    cutoff n fault⟩, by simp [writeBytes, capped, cutoff, hne, hlt], ?_⟩
  show s.written ++ bytes.extract 0 (n - s.taken) = (s.written ++ bytes).extract 0 n
  rw [ByteArray.extract_append, extract_of_size_le hle, Nat.zero_sub, hs.taken_eq]

/-- The first bytes of an output stay what they are when more is written. -/
theorem Extends.extract_eq {s t : Stream} (h : s.Extends t) (hle : n ≤ s.written.size) :
    t.written.extract 0 n = s.written.extract 0 n := by
  obtain ⟨more, hmore⟩ := h.written_eq
  rw [hmore, ByteArray.extract_append, Nat.zero_sub, Nat.sub_eq_zero_of_le hle,
    ByteArray.extract_same, ByteArray.append_empty]

theorem Extends.size_le {s t : Stream} (h : s.Extends t) : s.written.size ≤ t.written.size := by
  obtain ⟨more, hmore⟩ := h.written_eq
  rw [hmore, ByteArray.size_append]
  omega

end Stream

/-- The session with an output that takes only `n` bytes in all. -/
def Session.capped (s : Session σ) (n : Nat) (fault : Fault) : Session σ :=
  { s with output := s.output.capped n fault }

/-! ### Actions -/

/-- What is come to with a capped output, next to what is come to without: the same, as long as all
bytes fit; else there are the bytes that fit, and the fault. -/
inductive Truncates (n : Nat) (fault : Fault) :
    Except GenerateError α × Session σ → Except GenerateError α × Session σ → Prop
  | fits {result : Except GenerateError α} {t : Session σ} (h : t.output.written.size ≤ n) :
      Truncates n fault (result, t) (result, t.capped n fault)
  | cut {result : Except GenerateError α} {t u : Session σ} (h : n < t.output.written.size)
      (written : u.output.written = t.output.written.extract 0 n) :
      Truncates n fault (result, t) (.error (.console fault), u)

namespace Action

/-- With a capped output the action does the same up to the byte where the output fails. -/
def Truncated (x : Action σ α) : Prop :=
  ∀ n fault s outcome, s.output.Complete → s.output.written.size ≤ n → x s = some outcome →
    outcome.2.output.Complete ∧ s.output.Extends outcome.2.output ∧
      ∃ outcome', x (s.capped n fault) = some outcome' ∧ Truncates n fault outcome outcome'

theorem truncated_pure (a : α) : Truncated (pure a : Action σ α) := by
  rintro n fault s outcome hs hle ⟨⟩
  exact ⟨hs, .refl _, _, rfl, .fits hle⟩

theorem truncated_fail (cause : GenerateError) : Truncated (fail cause : Action σ α) := by
  rintro n fault s outcome hs hle ⟨⟩
  exact ⟨hs, .refl _, _, rfl, .fits hle⟩

theorem truncated_ask (question : σ → Option (Except GenerateError α × σ)) :
    Truncated (ask question) := by
  intro n fault s outcome hs hle h
  obtain ⟨⟨result, after⟩, hquestion, rfl⟩ := Option.map_eq_some_iff.1 h
  refine ⟨hs, .refl _, (result, Session.capped { s with chooser := after } n fault), ?_, .fits hle⟩
  exact Option.map_eq_some_iff.2 ⟨_, hquestion, rfl⟩

theorem truncated_write (text : String) : Truncated (write text : Action σ Unit) := by
  intro n fault s outcome hs hle h
  obtain rfl : outcome = (.ok (), { s with output := (s.output.write text).2 }) := by
    simpa [write, hs.unlimited.write_eq_ok text, Except.mapError] using h.symm
  refine ⟨(hs.write text).1, s.output.extends_write text, ?_⟩
  by_cases hfits : (s.output.write text).2.written.size ≤ n
  · refine ⟨(.ok (), Session.capped { s with output := (s.output.write text).2 } n fault), ?_, ?_⟩
    · simp [write, Session.capped, hs.write_capped_of_le hfits, Except.mapError]
    · exact .fits hfits
  · obtain ⟨u, hwrite, hwritten⟩ :=
      hs.write_capped_of_lt fault hle (Nat.lt_of_not_le hfits)
    refine ⟨(.error (.console fault), { s with output := u }), ?_, ?_⟩
    · simp [write, Session.capped, hwrite, Except.mapError]
    · exact .cut (Nat.lt_of_not_le hfits) hwritten

/-- What follows a failure of the output is left out, so actions may be put together. -/
theorem Truncated.bind {x : Action σ α} {f : α → Action σ β} (hx : Truncated x)
    (hf : ∀ a, Truncated (f a)) : Truncated (x >>= f) := by
  rintro n fault s ⟨result, t⟩ hs hle h
  rcases bind_eq_some.1 h with ⟨a, u, hu, ht⟩ | ⟨cause, ht, rfl⟩
  · obtain ⟨hcomplete, hextends, outcome, houtcome, htruncates⟩ := hx n fault s _ hs hle hu
    cases htruncates with
    | fits hfits =>
      obtain ⟨hdone, hmore, outcome, hnext, htruncates⟩ := hf a n fault u _ hcomplete hfits ht
      refine ⟨hdone, hextends.trans hmore, outcome, ?_, htruncates⟩
      exact bind_eq_some.2 (.inl ⟨a, _, houtcome, hnext⟩)
    | @cut _ _ v hcut hwritten =>
      -- the failure has come before; only the run without a limit has gone on
      obtain ⟨hdone, hmore, -⟩ := hf a u.output.written.size fault u _ hcomplete le_rfl ht
      refine ⟨hdone, hextends.trans hmore, (.error (.console fault), v), ?_, .cut ?_ ?_⟩
      · exact bind_eq_some.2 (.inr ⟨_, houtcome, rfl⟩)
      · exact Nat.lt_of_lt_of_le hcut hmore.size_le
      · rw [hwritten, hmore.extract_eq (Nat.le_of_lt hcut)]
  · obtain ⟨hcomplete, hextends, outcome, houtcome, htruncates⟩ := hx n fault s _ hs hle ht
    refine ⟨hcomplete, hextends, ?_⟩
    cases htruncates with
    | fits hfits => exact ⟨_, bind_eq_some.2 (.inr ⟨cause, houtcome, rfl⟩), .fits hfits⟩
    | cut hcut hwritten => exact ⟨_, bind_eq_some.2 (.inr ⟨_, houtcome, rfl⟩), .cut hcut hwritten⟩

theorem closed_truncated : Closed (@Truncated σ) where
  pure := truncated_pure
  fail := truncated_fail
  write := truncated_write
  ask := truncated_ask
  bind hx hf := hx.bind hf

end Action

namespace Engine

open PhraseGrammar.Action

/-! ### Runs -/

variable {e : Engine σ}

/-- The run `q` with a capped output keeps up with the run `r` without a limit, until the output
fails and `q` ends. -/
inductive Follows (n : Nat) (fault : Fault) : Run σ → Run σ → Prop
  | fits {r : Run σ} (h : r.session.output.written.size ≤ n) :
      Follows n fault r ⟨r.phase, r.session.capped n fault⟩
  | cut {r q : Run σ} (h : n < r.session.output.written.size)
      (phase : q.phase = .ended (.error (.console fault)))
      (written : q.session.output.written = r.session.output.written.extract 0 n) :
      Follows n fault r q

theorem follows_settle {outcome outcome' : Except GenerateError Phase × Session σ}
    (h : Truncates n fault outcome outcome') : Follows n fault (settle outcome) (settle outcome') := by
  cases h with
  | @fits result t h => cases result <;> exact .fits h
  | @cut result t u h written => cases result <;> exact .cut h rfl written

/-- A pass keeps the run with a capped output behind the other one. -/
theorem Follows.step {r q r' : Run σ} (hr : r.session.output.Complete) (h : Follows n fault r q)
    (hstep : e.step? r = some r') :
    r'.session.output.Complete ∧ Follows n fault r' (e.step q) := by
  obtain ⟨act, hnext, hact⟩ := Option.bind_eq_some_iff.1 hstep
  obtain ⟨outcome, houtcome, rfl⟩ := Option.map_eq_some_iff.1 hact
  have hsession : (settle outcome).session = outcome.2 := by
    obtain ⟨_ | _, _⟩ := outcome <;> rfl
  cases h with
  | fits hle =>
    obtain ⟨hcomplete, -, outcome', houtcome', htruncates⟩ :=
      closed_of_next? closed_truncated hnext n fault _ _ hr hle houtcome
    refine ⟨by rwa [hsession], ?_⟩
    have hq : e.step ⟨r.phase, r.session.capped n fault⟩ = settle outcome' := by
      simp [Engine.step, step?, hnext, houtcome']
    rw [hq]
    exact follows_settle htruncates
  | cut hcut hphase hwritten =>
    obtain ⟨hcomplete, hextends, -⟩ :=
      closed_of_next? closed_truncated hnext _ fault _ _ hr le_rfl houtcome
    rw [step_of_ended hphase]
    refine ⟨by rwa [hsession], .cut ?_ hphase ?_⟩
    · rw [hsession]
      exact Nat.lt_of_lt_of_le hcut hextends.size_le
    · rw [hsession, hwritten, hextends.extract_eq (Nat.le_of_lt hcut)]

/-- When the run without a limit has ended, the other one has ended too. -/
theorem follows_run {r q : Run σ} (hr : r.session.output.Complete) (h : Follows n fault r q)
    {passes : Nat} {result : Except GenerateError Derivation}
    (hended : (e.run passes r).phase = .ended result) :
    Follows n fault (e.run passes r) (e.run passes q) := by
  induction passes generalizing r q with
  | zero => exact h
  | succ passes ih =>
    cases hstep : e.step? r with
    | some r' =>
      have hrun : e.run (passes + 1) r = e.run passes r' := by simp [run, hstep]
      rw [hrun] at hended ⊢
      rw [run_succ']
      obtain ⟨hr', h'⟩ := h.step hr hstep
      exact ih hr' h' hended
    | none =>
      -- a run that waits for ever has not ended
      have hstay : ∀ k, e.run k r = r := run_of_step?_eq_none hstep
      rw [hstay] at hended ⊢
      have hq : ∃ other, q.phase = .ended other := by
        cases h with
        | fits hle => exact ⟨result, hended⟩
        | cut hcut hphase hwritten => exact ⟨_, hphase⟩
      obtain ⟨other, hphase⟩ := hq
      rwa [run_of_ended hphase]

end Engine

/-! ### Questions -/

namespace Action

/-- The chooser answers only when the text of the question has been written in full. Where there is
no question, its state stays as it is. -/
def Waits (question : Option String) (x : Action σ α) : Prop :=
  ∀ s result t, x s = some (result, t) → t.chooser = s.chooser ∨
    ∃ text more, question = some text ∧
      t.output.written = s.output.written ++ text.toUTF8 ++ more

theorem Waits.of_none {x : Action σ α} (h : Waits none x) (question : Option String) :
    Waits question x := by
  intro s result t hx
  rcases h s result t hx with hchooser | ⟨text, more, ⟨⟩, -⟩
  exact .inl hchooser

theorem waits_pure (a : α) : Waits none (pure a : Action σ α) := by
  rintro s result t ⟨⟩
  exact .inl rfl

theorem waits_fail (cause : GenerateError) : Waits none (fail cause : Action σ α) := by
  rintro s result t ⟨⟩
  exact .inl rfl

theorem waits_write (text : String) : Waits none (write text : Action σ Unit) := by
  intro s result t h
  exact .inl (write_eq_some h).1

theorem waits_ask (question : σ → Option (Except GenerateError α × σ)) :
    Waits (some "") (ask question) := by
  intro s result t h
  obtain ⟨more, hmore⟩ := (closed_appends.ask question s result t h).written_eq
  exact .inr ⟨"", more, rfl, by simpa using hmore⟩

/-- What is written first belongs to the question. -/
theorem Waits.write_bind {question : Option String} {x : Action σ α} (h : Waits question x)
    (text : String) : Waits (question.map (text ++ ·)) (write text >>= fun _ => x) := by
  intro s result t hx
  rcases bind_eq_some.1 hx with ⟨_, u, hwrite, hx⟩ | ⟨cause, hwrite, rfl⟩
  · rcases h u result t hx with hchooser | ⟨rest, more, rfl, hmore⟩
    · exact .inl (hchooser.trans (write_eq_some hwrite).1)
    · refine .inr ⟨text ++ rest, more, rfl, ?_⟩
      rw [hmore, written_of_write hwrite]
      simp [ByteArray.append_assoc]
  · exact .inl (write_eq_some hwrite).1

/-- What follows an answer asks for nothing more. -/
theorem Waits.bind {question : Option String} {x : Action σ α} {f : α → Action σ β}
    (h : Waits question x) (hquiet : ∀ a, Waits none (f a)) (happends : ∀ a, Appends (f a)) :
    Waits question (x >>= f) := by
  intro s result t hx
  rcases bind_eq_some.1 hx with ⟨a, u, hu, ht⟩ | ⟨cause, ht, rfl⟩
  · obtain ⟨rest, hrest⟩ := (happends a u result t ht).written_eq
    rcases hquiet a u result t ht with hchooser | ⟨_, _, ⟨⟩, -⟩
    rcases h s _ u hu with hbefore | ⟨text, more, htext, hmore⟩
    · exact .inl (hchooser.trans hbefore)
    · exact .inr ⟨text, more ++ rest, htext, by rw [hrest, hmore, ByteArray.append_assoc]⟩
  · exact h s _ t ht

end Action

namespace Engine

open PhraseGrammar.Action

variable {e : Engine σ}

/-- What is done next waits for its question, and for nothing else. -/
theorem accord_waits (e : Engine σ) (phase : Phase) :
    Accord .identity e e phase (fun {_ _} _ _ y => Waits (e.question? phase) y)
      (fun {_ _} _ _ y => Waits none y ∧ Appends y) where
  pure _ b := ⟨waits_pure b, closed_appends.pure b⟩
  fail _ cause := ⟨waits_fail cause, closed_appends.fail cause⟩
  write _ _ := ⟨waits_write _, closed_appends.write _⟩
  bind hx hf := ⟨hx.1.bind (fun b => (hf b).1) fun b => (hf b).2,
    closed_appends.bind hx.2 fun b => (hf b).2⟩
  quiet h := h.1.of_none _
  question {form start length alternatives} hposes := by
    have hprompt := (waits_ask (e.chooser.answer alternatives)).write_bind
      (e.chooser.prompt alternatives)
    have hheading := hprompt.write_bind (Trace.heading form start length)
    rw [hposes.question?_eq]
    simpa [Chooser.pick] using hheading
  asking_bind hx hf := hx.bind (fun b => (hf b).1) fun b => (hf b).2

theorem waits_of_next? {e : Engine σ} {phase : Phase} {act : Action σ Phase}
    (h : e.next? phase = some act) : Waits (e.question? phase) act := by
  obtain ⟨_, -, hact⟩ := (accord_waits e phase).next? (carries_identity _ _ _ _ _) h
  exact hact

/-- The chooser answers only when the question has been written in full, on any output. -/
theorem step_chooser (e : Engine σ) (r : Run σ) :
    (e.step r).session.chooser = r.session.chooser ∨
      ∃ text more, e.question? r.phase = some text ∧
        (e.step r).session.output.written = r.session.output.written ++ text.toUTF8 ++ more := by
  rcases step_cases e r with hstay | ⟨act, hnext, ⟨result, t⟩, houtcome, hstep⟩
  · exact .inl (by rw [hstay])
  rw [hstep]
  have hsettle : (settle (result, t)).session = t := by cases result <;> rfl
  rw [hsettle]
  exact waits_of_next? hnext _ _ _ houtcome

/-! ### The main statement -/

/-- A session at the start of whose output there is room for `n` bytes; then it fails. -/
def roomFor (n : Nat) (fault : Fault) (before : σ) : Session σ :=
  ⟨before, ⟨.empty, 0, Stream.cutoff n fault⟩⟩

/-- **An output that fails cuts the run off cleanly.** If the run ends on an output that takes all
bytes, then on one that takes `n` bytes it ends too, and there are the first `n` of the same bytes.
When they are all, the result is the same and the chooser is left in the same state; else the result
is the fault of the output, whatever it would have been. No answer is taken for a question that has
not been written in full. -/
theorem finishes_truncated (e : Engine σ) (before : σ) (n : Nat) (fault : Fault)
    {result : Except GenerateError Derivation} {t : Session σ}
    (h : e.Finishes ⟨before, .empty none⟩ result t) :
    (∃ u, e.Finishes (roomFor n fault before)
          (if t.output.written.size ≤ n then result else .error (.console fault)) u ∧
        u.output.written = t.output.written.extract 0 n ∧
        (t.output.written.size ≤ n → u.chooser = t.chooser)) ∧
      ∀ m, (e.run (m + 1) (start (roomFor n fault before))).session.chooser =
            (e.run m (start (roomFor n fault before))).session.chooser ∨
          ∃ text more,
            e.question? (e.run m (start (roomFor n fault before))).phase = some text ∧
            (e.run (m + 1) (start (roomFor n fault before))).session.output.written =
              (e.run m (start (roomFor n fault before))).session.output.written ++
                text.toUTF8 ++ more := by
  constructor
  · obtain ⟨passes, hpasses⟩ := h
    have hstart : Follows n fault (start ⟨before, .empty none⟩) (start (roomFor n fault before)) :=
      .fits (Nat.zero_le n)
    have hended : (e.run passes (start ⟨before, .empty none⟩)).phase = .ended result := by
      rw [hpasses]
    have hfollows := follows_run Stream.complete_empty hstart hended
    rw [hpasses] at hfollows
    generalize hq : e.run passes (start (roomFor n fault before)) = q at hfollows
    cases hfollows with
    | fits hle =>
      refine ⟨t.capped n fault, ⟨passes, ?_⟩, ?_, fun _ => rfl⟩
      · rw [if_pos hle, hq]
      · exact (Stream.extract_of_size_le hle).symm
    | cut hcut hphase hwritten =>
      have hlt : ¬ t.output.written.size ≤ n := Nat.not_le.2 hcut
      refine ⟨q.session, ⟨passes, ?_⟩, hwritten, fun hle => absurd hle hlt⟩
      rw [if_neg hlt, hq, ← hphase]
  · intro m
    rw [run_succ]
    exact e.step_chooser _

/-- A grammar with two choices, which are made at the console. -/
def hesitant : Engine (List UInt8) where
  grammar := ⟨[⟨[.start], [[.nonterminal 'A'], [.terminal 'b']]⟩,
    ⟨[.nonterminal 'A'], [[.terminal 'a'], [.epsilon]]⟩]⟩
  chooser := .console
  maxSteps := none

/-- With room for sixty bytes the first question breaks off, and its answer is not read. -/
theorem finishes_truncated_hesitant :
    (∃ d t, hesitant.Finishes ⟨[49, 10, 50, 10], .empty none⟩ (.ok d) t ∧
        60 < t.output.written.size) ∧
      (∃ u, hesitant.Finishes ⟨[49, 10, 50, 10], .empty (some 60)⟩
          (.error (.console .outputFull)) u ∧ u.output.written.size = 60) ∧
      (hesitant.run 1 (start ⟨[49, 10, 50, 10], .empty (some 60)⟩)).session.chooser =
        [49, 10, 50, 10] := by
  have hfinishes : hesitant.Finishes ⟨[49, 10, 50, 10], .empty none⟩
      (.ok ⟨[], [⟨0, 0, 1, [.nonterminal 'A']⟩, ⟨1, 0, 1, []⟩]⟩)
      (hesitant.run 3 (start ⟨[49, 10, 50, 10], .empty none⟩)).session := ⟨3, rfl⟩
  have hsize : 60 < (hesitant.run 3
      (start ⟨[49, 10, 50, 10], .empty none⟩)).session.output.written.size := by decide +kernel
  obtain ⟨⟨u, hu, hwritten, -⟩, hchooser⟩ :=
    finishes_truncated hesitant _ 60 .outputFull hfinishes
  refine ⟨⟨_, _, hfinishes, hsize⟩, ⟨u, ?_, ?_⟩, ?_⟩
  · rw [if_neg (Nat.not_le.2 hsize)] at hu
    exact hu
  · rw [hwritten, ByteArray.size_extract]
    omega
  · rcases hchooser 0 with hsame | ⟨text, more, htext, hmore⟩
    · exact hsame
    · -- the question would be longer than all that has been written
      exfalso
      obtain rfl : text = Trace.heading [.start] 0 1 ++
          Console.menu [[.nonterminal 'A'], [.terminal 'b']] := (Option.some.inj htext).symm
      have hlong : 60 < (Trace.heading [.start] 0 1 ++
          Console.menu [[.nonterminal 'A'], [.terminal 'b']]).toUTF8.size := by decide +kernel
      have hshort : (hesitant.run 1
          (start (roomFor 60 .outputFull [49, 10, 50, 10]))).session.output.written.size = 60 := by
        decide +kernel
      rw [hmore, ByteArray.size_append, ByteArray.size_append] at hshort
      omega

end Engine

end PhraseGrammar
