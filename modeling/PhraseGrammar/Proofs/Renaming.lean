import Mathlib.Data.Set.Function
import PhraseGrammar.Proofs.Confinement

/-!
# New letters

Every symbol of a grammar gets a new letter. Different terminals get different letters, and so do
different nonterminals, but a terminal and a nonterminal may get the same one: they are shown alike
then, and are still different symbols.

* `Renaming`: the new letters, and what has them instead of the old ones: `Form.rename`,
  `Grammar.rename`, `Work.rename` and others, which belong together (`Renaming.translation`);
* `Grammar.Uses`, `Grammar.Spells`: the symbols of a grammar, and the forms that consist of them.
  All forms of a run do (`spells_of_reaches`);
* `Renaming.Separates`: the symbols of a grammar stay apart. Then its forms do (`rename_inj`), and
  so the same places are found in them (`site?_rename`).
-/

namespace PhraseGrammar

/-- New letters for terminals and for nonterminals. -/
structure Renaming where
  terminal : Char → Char
  nonterminal : Char → Char

variable (ρ : Renaming)

/-- The symbol with its new letter. Its kind stays as it is. -/
def Symbol.rename : Symbol → Symbol
  | start => start
  | terminal c => terminal (ρ.terminal c)
  | nonterminal c => nonterminal (ρ.nonterminal c)
  | epsilon => epsilon

/-- The form with new letters. -/
def Form.rename (f : Form) : Form := f.map (Symbol.rename ρ)

/-- The rule with new letters. -/
def Rule.rename (r : Rule) : Rule where
  pattern := Form.rename ρ r.pattern
  alternatives := r.alternatives.map (Form.rename ρ)

/-- The grammar with new letters in all of its rules. -/
def Grammar.rename (g : Grammar) : Grammar := ⟨g.rules.map (Rule.rename ρ)⟩

/-- The site with new letters in its rule. -/
def Site.rename (s : Site) : Site := { s with rule := s.rule.rename ρ }

/-- The step with new letters in its replacement. Its rule and its span stay as they are. -/
def Step.rename (s : Step) : Step := { s with replacement := Form.rename ρ s.replacement }

/-- The derivation with new letters in its sentence and in all of its steps. -/
def Derivation.rename (d : Derivation) : Derivation where
  sentence := Form.rename ρ d.sentence
  steps := d.steps.map (Step.rename ρ)

/-- The work with new letters in its form and in all of its steps. -/
def Work.rename (w : Work) : Work where
  form := Form.rename ρ w.form
  cursor := w.cursor
  steps := w.steps.map (Step.rename ρ)

/-- The phase with new letters. A cause of failure stays as it is. -/
def Phase.rename : Phase → Phase
  | .opening => .opening
  | .working w => .working (w.rename ρ)
  | .ended result => .ended (result.map (Derivation.rename ρ))

/-! ### Forms and work -/

namespace Form

@[simp] theorem rename_cons (x : Symbol) (f : Form) :
    rename ρ (x :: f) = x.rename ρ :: rename ρ f := rfl

@[simp] theorem length_rename (f : Form) : (rename ρ f).length = f.length := List.length_map _

@[simp] theorem rename_eq_nil_iff {f : Form} : rename ρ f = [] ↔ f = [] := List.map_eq_nil_iff

@[simp] theorem rename_splice (f replacement : Form) (start length : Nat) :
    rename ρ (splice f start length replacement) =
      splice (rename ρ f) start length (rename ρ replacement) := by
  simp [rename, splice]

@[simp] theorem any_rename (f : Form) :
    (rename ρ f).any Symbol.isNonterminal = f.any Symbol.isNonterminal := by
  rw [rename, List.any_map]
  congr 1
  funext x
  cases x <;> rfl

@[simp] theorem withoutEpsilon_rename (f : Form) :
    withoutEpsilon (rename ρ f) = rename ρ (withoutEpsilon f) := by
  rw [withoutEpsilon, withoutEpsilon, rename, List.filter_map, rename]
  congr 2
  funext x
  cases x <;> rfl

end Form

namespace Work

variable (w : Work)

@[simp] theorem rename_form : (w.rename ρ).form = Form.rename ρ w.form := rfl

@[simp] theorem size_rename : (w.rename ρ).steps.size = w.steps.size := by simp [rename]

@[simp] theorem rename_first (replacement : Form) :
    (first replacement).rename ρ = first (Form.rename ρ replacement) := by
  simp [rename, first, Step.rename]

theorem rename_replace (site : Site) (replacement : Form) :
    (w.replace site replacement).rename ρ =
      (w.rename ρ).replace (site.rename ρ) (Form.rename ρ replacement) := by
  simp [rename, replace, Step.rename, Site.rename, Rule.rename]

end Work

theorem Phase.rename_sentence (w : Work) :
    rename ρ (.ended (.ok ⟨w.form, w.steps.toList⟩)) =
      .ended (.ok ⟨(w.rename ρ).form, (w.rename ρ).steps.toList⟩) := by
  simp [rename, Derivation.rename, Work.rename, Except.map]

/-- Derivations told with new letters. -/
def Renaming.translation : Translation where
  form := Form.rename ρ
  rule := Rule.rename ρ
  site := Site.rename ρ
  work := Work.rename ρ
  phase := Phase.rename ρ
  form_start := rfl
  form_withoutEpsilon f := (Form.withoutEpsilon_rename ρ f).symm
  any_form := Form.any_rename ρ
  rule_alternatives _ := rfl
  length_rule r := Form.length_rename ρ r.pattern
  site_start _ := rfl
  site_rule _ := rfl
  work_form _ := rfl
  work_cursor _ := rfl
  size_work := Work.size_rename ρ
  work_first := Work.rename_first ρ
  work_replace := Work.rename_replace ρ
  work_home _ := rfl
  phase_opening := rfl
  phase_working _ := rfl
  phase_sentence := Phase.rename_sentence ρ

/-! ### The symbols of a grammar -/

/-- The symbols of a grammar: those of its rules, and the start symbol. -/
inductive Grammar.Uses (g : Grammar) : Symbol → Prop
  | start : Uses g .start
  | pattern {r : Rule} {x : Symbol} (hr : r ∈ g.rules) (hx : x ∈ r.pattern) : Uses g x
  | alternative {r : Rule} {a : Form} {x : Symbol} (hr : r ∈ g.rules) (ha : a ∈ r.alternatives)
      (hx : x ∈ a) : Uses g x

/-- The form consists of symbols of the grammar. -/
def Grammar.Spells (g : Grammar) (f : Form) : Prop := ∀ x ∈ f, g.Uses x

/-- Different terminals of the grammar get different letters, and different nonterminals do. -/
structure Renaming.Separates (g : Grammar) : Prop where
  terminal : Set.InjOn ρ.terminal {c | g.Uses (.terminal c)}
  nonterminal : Set.InjOn ρ.nonterminal {c | g.Uses (.nonterminal c)}

variable {ρ} {g : Grammar}

theorem Renaming.separates_of_injective (hterminal : Function.Injective ρ.terminal)
    (hnonterminal : Function.Injective ρ.nonterminal) : ρ.Separates g :=
  ⟨hterminal.injOn, hnonterminal.injOn⟩

/-- All work of a run is made of the symbols of the grammar. -/
theorem Engine.spells_of_reaches {σ : Type} {e : Engine σ} {w : Work} (h : e.Reaches w) :
    e.grammar.Spells w.form := by
  induction h with
  | first start mem =>
    intro x hx
    exact .alternative (mem_rules_of_startRule? start) mem (Form.mem_withoutEpsilon.1 hx).1
  | advance reaches pass ih =>
    cases pass with
    | replace found allowed picks =>
      intro x hx
      rcases Form.mem_splice hx with hx | hx
      · exact ih x hx
      · exact .alternative (mem_rules_of_isSite found) picks.mem (Form.mem_withoutEpsilon.1 hx).1
    | reset nowhere moved => exact ih

namespace Renaming.Separates

variable (h : ρ.Separates g)
include h

theorem symbol_inj {x y : Symbol} (hx : g.Uses x) (hy : g.Uses y)
    (hxy : x.rename ρ = y.rename ρ) : x = y := by
  cases x <;> cases y <;> simp only [Symbol.rename, reduceCtorEq, Symbol.terminal.injEq,
    Symbol.nonterminal.injEq] at hxy ⊢
  · exact h.terminal hx hy hxy
  · exact h.nonterminal hx hy hxy

/-- Different forms stay different. -/
theorem rename_inj {f f' : Form} (hf : g.Spells f) (hf' : g.Spells f')
    (heq : Form.rename ρ f = Form.rename ρ f') : f = f' := by
  induction f generalizing f' with
  | nil => exact ((Form.rename_eq_nil_iff ρ).1 heq.symm).symm
  | cons x f ih =>
    cases f' with
    | nil => cases heq
    | cons y f' =>
      rw [Form.rename_cons, Form.rename_cons, List.cons.injEq] at heq
      obtain ⟨hx, hf⟩ := List.forall_mem_cons.1 hf
      obtain ⟨hy, hf'⟩ := List.forall_mem_cons.1 hf'
      rw [h.symbol_inj hx hy heq.1, ih hf hf' heq.2]

/-! ### The search -/

variable {r : Rule} {form : Form} {offset i : Nat}

/-- A pattern stands where it stood before. -/
theorem occursAt_rename (hr : r ∈ g.rules) (hform : g.Spells form) :
    (r.rename ρ).OccursAt (Form.rename ρ form) i ↔ r.OccursAt form i := by
  have hdrop : (Form.rename ρ form).drop i = Form.rename ρ (form.drop i) := List.map_drop.symm
  unfold Rule.OccursAt
  rw [hdrop]
  refine and_congr (not_congr (Form.rename_eq_nil_iff ρ)) ⟨fun hprefix => ?_, fun hprefix => ?_⟩
  · obtain ⟨front, hfront, heq⟩ := List.prefix_map_iff.1 hprefix
    have hspells : g.Spells front := fun x hx =>
      hform x (List.mem_of_mem_drop (hfront.subset hx))
    rwa [h.rename_inj (fun x hx => .pattern hr hx) hspells heq]
  · exact hprefix.map (Symbol.rename ρ)

theorem ruleOccursFrom_rename (hr : r ∈ g.rules) (hform : g.Spells form) :
    (r.rename ρ).OccursFrom (Form.rename ρ form) offset ↔ r.OccursFrom form offset :=
  exists_congr fun _ => and_congr_right fun _ => h.occursAt_rename hr hform

theorem leftmostFrom_rename (hr : r ∈ g.rules) (hform : g.Spells form)
    (hi : r.LeftmostFrom form offset i) :
    (r.rename ρ).LeftmostFrom (Form.rename ρ form) offset i where
  offset_le := hi.offset_le
  occursAt := (h.occursAt_rename hr hform).2 hi.occursAt
  not_before j hj hji hoccurs := hi.not_before j hj hji ((h.occursAt_rename hr hform).1 hoccurs)

omit h in
theorem hasProduction_rename {index : Nat} {r' : Rule} :
    (g.rename ρ).HasProduction index r' ↔ ∃ r, g.HasProduction index r ∧ r.rename ρ = r' := by
  simp only [Grammar.HasProduction, Grammar.rename, List.getElem?_map, Option.map_eq_some_iff]
  constructor
  · rintro ⟨hindex, r, hr, rfl⟩
    exact ⟨r, ⟨hindex, hr⟩, rfl⟩
  · rintro ⟨r, ⟨hindex, hr⟩, rfl⟩
    exact ⟨hindex, r, hr, rfl⟩

theorem occursFrom_rename (hform : g.Spells form) :
    (g.rename ρ).OccursFrom (Form.rename ρ form) offset ↔ g.OccursFrom form offset := by
  constructor
  · rintro ⟨index, _, hproduction, hoccurs⟩
    obtain ⟨r, hr, rfl⟩ := hasProduction_rename.1 hproduction
    exact ⟨index, r, hr, (h.ruleOccursFrom_rename (List.mem_of_getElem? hr.2) hform).1 hoccurs⟩
  · rintro ⟨index, r, hr, hoccurs⟩
    exact ⟨index, r.rename ρ, hasProduction_rename.2 ⟨r, hr, rfl⟩,
      (h.ruleOccursFrom_rename (List.mem_of_getElem? hr.2) hform).2 hoccurs⟩

theorem isSite_rename (hform : g.Spells form) {site : Site} (found : g.IsSite form offset site) :
    (g.rename ρ).IsSite (Form.rename ρ form) offset (site.rename ρ) where
  production := hasProduction_rename.2 ⟨site.rule, found.production, rfl⟩
  leftmost := h.leftmostFrom_rename (Engine.mem_rules_of_isSite found) hform found.leftmost
  first j r' hj hr' hoccurs := by
    obtain ⟨r, hr, rfl⟩ := hasProduction_rename.1 hr'
    exact found.first j r hj hr
      ((h.ruleOccursFrom_rename (List.mem_of_getElem? hr.2) hform).1 hoccurs)

/-- The search finds the same place. -/
theorem site?_rename (hform : g.Spells form) :
    (g.rename ρ).site? (Form.rename ρ form) offset =
      (g.site? form offset).map (Site.rename ρ) := by
  cases hsite : g.site? form offset with
  | none =>
    have nowhere := Grammar.site?_eq_none_iff.1 hsite
    exact Grammar.site?_eq_none_iff.2 fun hoccurs => nowhere ((h.occursFrom_rename hform).1 hoccurs)
  | some site =>
    have found := Grammar.site?_eq_some_iff.1 hsite
    exact Grammar.site?_eq_some_iff.2 (h.isSite_rename hform found)

end Renaming.Separates

theorem Grammar.startRule?_rename : (g.rename ρ).startRule? = g.startRule?.map (Rule.rename ρ) :=
  List.head?_map

end PhraseGrammar
