import PhraseGrammar.CompileError
import PhraseGrammar.GenerateError
import PhraseGrammar.Proofs.Components

/-!
# Equality of errors

Causes are compared in two ways: where there are details to compare, these decide, and otherwise
the kinds do. What comes of it is the identity of causes, except that faults of the system count by
their kind alone.

* `AgreeUpToFaults`: two causes are the same, or both come from faults of one kind;
* `CompileError.beq_iff`, `GenerateError.beq_iff`: when causes are equal;
* `Located.beq_iff`: when errors are equal that have a place;
* `ExactEquality`: all that equality promises, for causes and for errors with a place.

Main statement: `equality_exact`.
-/

namespace PhraseGrammar

/-! ### Causes -/

/-- Two causes are the same, or both come from faults of one kind. The cause that a fault leads to
is `fromFault fault`. -/
def AgreeUpToFaults {ε : Type} (fromFault : Fault → ε) (a b : ε) : Prop :=
  a = b ∨ ∃ f g : Fault, a = fromFault f ∧ b = fromFault g ∧ f.kind = g.kind

namespace AgreeUpToFaults

variable {ε : Type} {fromFault : Fault → ε} {a b c : ε}

theorem refl (a : ε) : AgreeUpToFaults fromFault a a := .inl rfl

theorem symm (h : AgreeUpToFaults fromFault a b) : AgreeUpToFaults fromFault b a := by
  rcases h with rfl | ⟨f, g, rfl, rfl, hkind⟩
  · exact refl a
  · exact .inr ⟨g, f, rfl, rfl, hkind.symm⟩

theorem trans (hinj : Function.Injective fromFault) (hab : AgreeUpToFaults fromFault a b)
    (hbc : AgreeUpToFaults fromFault b c) : AgreeUpToFaults fromFault a c := by
  rcases hab with rfl | ⟨f, g, rfl, rfl, hfg⟩
  · exact hbc
  rcases hbc with rfl | ⟨g', k, hg, rfl, hgk⟩
  · exact .inr ⟨f, g, rfl, rfl, hfg⟩
  · obtain rfl := hinj hg
    exact .inr ⟨f, k, rfl, rfl, hfg.trans hgk⟩

/-- A cause that comes from no fault agrees with itself alone. -/
theorem iff_eq (h : ∀ f, a ≠ fromFault f) : AgreeUpToFaults fromFault a b ↔ a = b := by
  constructor
  · rintro (hab | ⟨f, g, hf, -⟩)
    · exact hab
    · exact absurd hf (h f)
  · exact .inl

theorem fromFault_iff (hinj : Function.Injective fromFault) {f g : Fault} :
    AgreeUpToFaults fromFault (fromFault f) (fromFault g) ↔ f.kind = g.kind := by
  constructor
  · rintro (hfg | ⟨f', g', hf, hg, hkind⟩)
    · rw [hinj hfg]
    · rw [hinj hf, hinj hg, hkind]
  · intro hkind
    exact .inr ⟨f, g, rfl, rfl, hkind⟩

end AgreeUpToFaults

theorem Fault.beq_iff {f g : Fault} : f == g ↔ f.kind = g.kind := by
  show (f.kind == g.kind) ↔ _
  exact beq_iff_eq

theorem CompileError.unreadable_injective : Function.Injective CompileError.unreadable :=
  fun _ _ => CompileError.unreadable.inj

theorem GenerateError.console_injective : Function.Injective GenerateError.console :=
  fun _ _ => GenerateError.console.inj

theorem CompileError.beq_iff {a b : CompileError} :
    a == b ↔ AgreeUpToFaults CompileError.unreadable a b := by
  show same a b ↔ _
  cases a with
  | unreadable f =>
    cases b with
    | unreadable g =>
      rw [AgreeUpToFaults.fromFault_iff unreadable_injective]
      exact Fault.beq_iff
    | _ => simp [same, kind, AgreeUpToFaults]
  | _ =>
    rw [AgreeUpToFaults.iff_eq (by simp)]
    cases b <;> simp [same, kind]

theorem GenerateError.beq_iff {a b : GenerateError} :
    a == b ↔ AgreeUpToFaults GenerateError.console a b := by
  show same a b ↔ _
  cases a with
  | console f =>
    cases b with
    | console g =>
      rw [AgreeUpToFaults.fromFault_iff console_injective]
      exact Fault.beq_iff
    | _ => simp [same, kind, AgreeUpToFaults]
  | _ =>
    rw [AgreeUpToFaults.iff_eq (by simp)]
    cases b <;> simp [same, kind]

/-! ### Errors with a place -/

theorem Location.beq_iff {l m : Location} :
    l == m ↔
      l.file.components = m.file.components ∧ l.line = m.line ∧ l.column = m.column := by
  show (l.file == m.file && l.line == m.line && l.column == m.column) ↔ _
  rw [Bool.and_eq_true, Bool.and_eq_true, Path.beq_iff_components, beq_iff_eq, beq_iff_eq,
    and_assoc]

/-- Places in the same line and column are shown alike exactly if their files are spelled alike. -/
theorem Location.text_eq_iff {l m : Location} (hline : l.line = m.line)
    (hcolumn : l.column = m.column) : l.text = m.text ↔ l.file.text = m.file.text := by
  unfold text
  rw [hline, hcolumn]
  split <;> simp

namespace Located

variable {ε : Type} [BEq ε]

theorem beq_iff {x y : Located ε} :
    x == y ↔ x.error == y.error ∧ x.location.file.components = y.location.file.components ∧
      x.location.line = y.location.line ∧ x.location.column = y.location.column := by
  show (x.location == y.location && x.error == y.error) ↔ _
  rw [Bool.and_eq_true, Location.beq_iff, and_comm]

instance [EquivBEq ε] : EquivBEq (Located ε) where
  rfl := beq_iff.2 ⟨BEq.rfl, rfl, rfl, rfl⟩
  symm hxy := by
    obtain ⟨herror, hfile, hline, hcolumn⟩ := beq_iff.1 hxy
    exact beq_iff.2 ⟨BEq.symm herror, hfile.symm, hline.symm, hcolumn.symm⟩
  trans hxy hyz := by
    obtain ⟨herror, hfile, hline, hcolumn⟩ := beq_iff.1 hxy
    obtain ⟨herror', hfile', hline', hcolumn'⟩ := beq_iff.1 hyz
    exact beq_iff.2 ⟨BEq.trans herror herror', hfile.trans hfile', hline.trans hline',
      hcolumn.trans hcolumn'⟩

end Located

/-! ### What equality promises -/

/-- Equality of causes, and of errors with a place, where the cause that a fault leads to is
`fromFault fault`. -/
structure ExactEquality (ε : Type) [BEq ε] [ToString ε] (fromFault : Fault → ε) : Prop where
  /-- Equal causes are the same, kind and details, or come from faults of one kind. -/
  cause : ∀ a b : ε, a == b ↔ AgreeUpToFaults fromFault a b
  /-- Equal errors have equal causes, in one file and there in one line and column. -/
  located : ∀ x y : Located ε, x == y ↔
    AgreeUpToFaults fromFault x.error y.error ∧
      x.location.file.components = y.location.file.components ∧
      x.location.line = y.location.line ∧ x.location.column = y.location.column
  /-- Equality is an equivalence, for causes and for errors. -/
  equivalence : EquivBEq ε ∧ EquivBEq (Located ε)
  /-- Equal causes have the same text, unless they come from faults. -/
  text : ∀ a b : ε, a == b → (∀ f, a ≠ fromFault f) → toString a = toString b
  /-- The same holds of equal errors, whose messages can only differ in how the file is spelled. -/
  message : ∀ x y : Located ε, x == y → (∀ f, x.error ≠ fromFault f) →
    toString x.error = toString y.error ∧
      (x.message = y.message ↔ x.location.file.text = y.location.file.text)

section

variable {ε : Type} [BEq ε] {fromFault : Fault → ε}
  (hbeq : ∀ a b : ε, a == b ↔ AgreeUpToFaults fromFault a b)

include hbeq

theorem AgreeUpToFaults.eq_of_beq {a b : ε} (hab : a == b) (ha : ∀ f, a ≠ fromFault f) : a = b :=
  (iff_eq ha).1 ((hbeq a b).1 hab)

variable (hinj : Function.Injective fromFault)

include hinj

theorem AgreeUpToFaults.equivBEq : EquivBEq ε where
  rfl := (hbeq _ _).2 (refl _)
  symm hab := (hbeq _ _).2 ((hbeq _ _).1 hab).symm
  trans hab hbc := (hbeq _ _).2 (((hbeq _ _).1 hab).trans hinj ((hbeq _ _).1 hbc))

/-- All of it follows from what equality of causes is. -/
theorem ExactEquality.of_beq_iff [ToString ε] : ExactEquality ε fromFault where
  cause := hbeq
  located x y := by rw [Located.beq_iff, hbeq]
  equivalence := by
    have hcauses : EquivBEq ε := AgreeUpToFaults.equivBEq hbeq hinj
    exact ⟨hcauses, inferInstance⟩
  text a b hab ha := by rw [AgreeUpToFaults.eq_of_beq hbeq hab ha]
  message x y hxy hx := by
    obtain ⟨herror, -, hline, hcolumn⟩ := Located.beq_iff.1 hxy
    have hcause : x.error = y.error := AgreeUpToFaults.eq_of_beq hbeq herror hx
    refine ⟨by rw [hcause], ?_⟩
    -- around the places both messages are the same
    rw [← Location.text_eq_iff hline hcolumn, Located.message, Located.message, hcause,
      String.append_left_inj, String.append_left_inj, String.append_left_inj,
      String.append_right_inj]

end

/-- **Equality of errors is an equivalence that forgets nothing but what faults of the system say**
and how the path of a file is spelled, both for what is wrong with a grammar file and for what ends
a derivation. -/
theorem equality_exact :
    ExactEquality CompileError .unreadable ∧ ExactEquality GenerateError .console :=
  ⟨.of_beq_iff (fun _ _ => CompileError.beq_iff) CompileError.unreadable_injective,
    .of_beq_iff (fun _ _ => GenerateError.beq_iff) GenerateError.console_injective⟩

/-- A token that does not fit, in a file of the given path. -/
def misfit (file : String) : Located CompileError :=
  ⟨⟨⟨file⟩, 3, 2⟩, .unexpectedToken .or [.assign, .newLine]⟩

/-- Two spellings of a path make equal errors with the same text but not the same message. Two
faults of a kind make equal causes, while the same details of two kinds of causes do not. -/
theorem equality_exact_misfit :
    misfit "a//b/." == misfit "a/./b" ∧
      toString (misfit "a//b/.").error = toString (misfit "a/./b").error ∧
      (misfit "a//b/.").message ≠ (misfit "a/./b").message ∧
      ¬ misfit "a/b" == misfit "./a/b" ∧
      GenerateError.console Fault.outputFull == .console ⟨.other "Other", "no room"⟩ ∧
      ¬ GenerateError.invalidSelection "1" == .stuckDerivation "1" := by
  obtain ⟨hcompile, hgenerate⟩ := equality_exact
  have hsame : misfit "a//b/." == misfit "a/./b" :=
    (hcompile.located _ _).2 ⟨.inl rfl, by decide, rfl, rfl⟩
  have hcause : ∀ f, (misfit "a//b/.").error ≠ .unreadable f := by
    rintro f ⟨⟩
  obtain ⟨htext, hmessage⟩ := hcompile.message _ _ hsame hcause
  refine ⟨hsame, htext, mt hmessage.1 (by decide), ?_,
    (hgenerate.cause _ _).2 (.inr ⟨_, _, rfl, rfl, rfl⟩), ?_⟩
  · intro hbeq
    obtain ⟨-, hcomponents, -⟩ := (hcompile.located _ _).1 hbeq
    exact absurd hcomponents (by decide)
  · intro hbeq
    rcases (hgenerate.cause _ _).1 hbeq with heq | ⟨f, g, hf, -⟩
    · cases heq
    · cases hf

end PhraseGrammar
