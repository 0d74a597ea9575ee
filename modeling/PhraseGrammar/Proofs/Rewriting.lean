import PhraseGrammar.Derivation
import PhraseGrammar.Proofs.Occurrence

/-!
# Rewriting by the rules of a grammar

A grammar is a string rewriting system: an occurrence of the pattern of a production may be
replaced by one of the alternatives, without its empty-word marks.

* `Grammar.Rewrites`: one such replacement, with the step that records it;
* `Form.replay`: the form that recorded steps lead to;
* `Grammar.IsDerivation`: a record of steps from the start symbol that is justified step by step.
  It grows by one replacement at a time (`IsDerivation.snoc`).
-/

namespace PhraseGrammar

/-- A production is applied at an occurrence of its pattern. What stands to the left and to the
right of the occurrence is left as it is. -/
inductive Grammar.Rewrites (g : Grammar) : Form → Step → Form → Prop
  | intro {index : Nat} {rule : Rule} {alternative : Form} (left right : Form)
      (production : g.HasProduction index rule) (chosen : alternative ∈ rule.alternatives) :
      Rewrites g (left ++ rule.pattern ++ right)
        ⟨index, left.length, rule.pattern.length, Form.withoutEpsilon alternative⟩
        (left ++ Form.withoutEpsilon alternative ++ right)

/-- The form that is left when steps are made in `f` one after another. -/
def Form.replay (f : Form) (steps : List Step) : Form := steps.foldl (fun f s => s.apply f) f

@[simp] theorem Form.replay_concat (f : Form) (steps : List Step) (s : Step) :
    Form.replay f (steps ++ [s]) = s.apply (Form.replay f steps) := by
  simp [Form.replay]

namespace Grammar

variable {g : Grammar} {f f' : Form} {s : Step}

/-- The recorded step leads from the one form to the other. -/
theorem Rewrites.apply_eq (h : g.Rewrites f s f') : s.apply f = f' := by
  cases h with
  | intro left right _ _ => rw [Step.apply, Form.splice_append]

/-- The span that is replaced lies in the form, and holds the pattern symbol for symbol. -/
theorem Rewrites.span (h : g.Rewrites f s f') :
    ∃ rule, g.HasProduction s.rule rule ∧ s.length = rule.pattern.length ∧
      s.start + s.length ≤ f.length ∧ (f.drop s.start).take s.length = rule.pattern ∧
      ∃ alternative ∈ rule.alternatives, s.replacement = Form.withoutEpsilon alternative := by
  cases h with
  | @intro index rule alternative left right production chosen =>
    refine ⟨rule, production, rfl, ?_, ?_, alternative, chosen, rfl⟩
    · simp only [List.length_append]
      omega
    · simp

/-- Steps that lead from the start symbol to `form`. The first one puts an alternative of the
start rule in place of the start symbol; every later one rewrites what the steps before it have
led to. -/
structure IsDerivation (g : Grammar) (steps : List Step) (form : Form) : Prop where
  first : ∃ rule, g.startRule? = some rule ∧ ∃ alternative ∈ rule.alternatives,
    steps[0]? = some ⟨0, 0, 1, Form.withoutEpsilon alternative⟩
  later : ∀ k s, 1 ≤ k → steps[k]? = some s →
    g.Rewrites (Form.replay [.start] (steps.take k)) s (Form.replay [.start] (steps.take (k + 1)))
  last : Form.replay [.start] steps = form

theorem IsDerivation.ne_nil {steps : List Step} (h : g.IsDerivation steps f) : steps ≠ [] := by
  rintro rfl
  obtain ⟨rule, -, alternative, -, hfirst⟩ := h.first
  cases hfirst

/-- The derivation that consists of the first step alone. -/
theorem isDerivation_first {rule : Rule} {alternative : Form} (hrule : g.startRule? = some rule)
    (hchosen : alternative ∈ rule.alternatives) :
    g.IsDerivation [⟨0, 0, 1, Form.withoutEpsilon alternative⟩] (Form.withoutEpsilon alternative) where
  first := ⟨rule, hrule, alternative, hchosen, rfl⟩
  later k s hk hs := by
    obtain ⟨k, rfl⟩ := Nat.exists_eq_add_of_le' hk
    cases hs
  last := by simp [Form.replay, Step.apply, Form.splice]

/-- A derivation goes on with a replacement in the form it has led to. -/
theorem IsDerivation.snoc {steps : List Step} (h : g.IsDerivation steps f)
    (hs : g.Rewrites f s f') : g.IsDerivation (steps ++ [s]) f' where
  first := by
    obtain ⟨rule, hrule, alternative, hchosen, hfirst⟩ := h.first
    refine ⟨rule, hrule, alternative, hchosen, ?_⟩
    rw [List.getElem?_append_left (List.length_pos_iff.2 h.ne_nil), hfirst]
  later k t hk ht := by
    -- a step from before, the step that is added, or none
    rcases Nat.lt_trichotomy k steps.length with hlt | rfl | hgt
    · rw [List.getElem?_append_left hlt] at ht
      rw [List.take_append_of_le_length (by omega), List.take_append_of_le_length (by omega)]
      exact h.later k t hk ht
    · obtain rfl : s = t := by simpa using ht
      have hbefore : (steps ++ [s]).take steps.length = steps := List.take_left
      have hafter : (steps ++ [s]).take (steps.length + 1) = steps ++ [s] :=
        List.take_of_length_le (by simp)
      rw [hbefore, hafter, Form.replay_concat, h.last, hs.apply_eq]
      exact hs
    · rw [List.getElem?_eq_none (by simp; omega)] at ht
      cases ht
  last := by rw [Form.replay_concat, h.last, hs.apply_eq]

end Grammar

end PhraseGrammar
