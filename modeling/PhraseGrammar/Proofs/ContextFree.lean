import Mathlib.Data.List.Nodup
import Mathlib.Logic.Relation
import PhraseGrammar.Proofs.Rewriting

/-!
# Context-free grammars

A grammar is context-free if its productions replace single nonterminals. The order in which they
are replaced is of no account then.

* `Rule.Replaces`: one rule applied at any place;
* `Grammar.Produces`, `Grammar.Derives`, `Grammar.DerivesIn`: one production applied at any place,
  any number of them, and so many;
* `Grammar.ContextFree`: every production is for a nonterminal of its own;
* `Grammar.ContextFree.produces_cases`: an occurrence of a symbol is what is replaced, or it is left
  alone and can be replaced before. So a derivation may begin with any occurrence that is not in its
  last form (`DerivesIn.exists_first`);
* `Grammar.Deterministic`: there is nothing to choose. All derivations of a form in which nothing is
  left to replace have the same length then, and come to the same form (`DerivesIn.descends`).
-/

namespace PhraseGrammar

/-- An occurrence of the pattern is replaced by one of the alternatives. -/
def Rule.Replaces (r : Rule) (f f' : Form) : Prop :=
  ∃ a ∈ r.alternatives, ∃ left right, f = left ++ r.pattern ++ right ∧
    f' = left ++ Form.withoutEpsilon a ++ right

namespace Grammar

variable {g : Grammar} {f f' u v : Form} {n : Nat}

/-! ### Derivations -/

/-- A production is applied somewhere in the form. -/
def Produces (g : Grammar) (f f' : Form) : Prop := ∃ step, g.Rewrites f step f'

/-- Productions are applied one after another, at any places. -/
def Derives (g : Grammar) : Form → Form → Prop := Relation.ReflTransGen g.Produces

/-- So many productions are applied one after another, at any places. -/
inductive DerivesIn (g : Grammar) : Nat → Form → Form → Prop
  | refl (f : Form) : DerivesIn g 0 f f
  | head {n : Nat} {f f' u : Form} (first : g.Produces f f') (rest : DerivesIn g n f' u) :
      DerivesIn g (n + 1) f u

theorem DerivesIn.snoc (h : g.DerivesIn n f u) (last : g.Produces u v) :
    g.DerivesIn (n + 1) f v := by
  induction h with
  | refl f => exact .head last (.refl v)
  | head first rest ih => exact .head first (ih last)

theorem derives_iff : g.Derives f u ↔ ∃ n, g.DerivesIn n f u := by
  constructor
  · intro h
    induction h with
    | refl => exact ⟨0, .refl f⟩
    | tail rest last ih =>
      obtain ⟨n, hn⟩ := ih
      exact ⟨n + 1, hn.snoc last⟩
  · rintro ⟨n, h⟩
    induction h with
    | refl f => exact .refl
    | head first rest ih => exact .head first ih

theorem mem_tail_iff {r : Rule} : r ∈ g.rules.tail ↔ ∃ index, g.HasProduction index r := by
  rw [List.mem_iff_getElem?]
  constructor
  · rintro ⟨i, hi⟩
    exact ⟨i + 1, Nat.le_add_left 1 i, by rwa [List.getElem?_tail] at hi⟩
  · rintro ⟨index, hindex, hr⟩
    obtain ⟨i, rfl⟩ := Nat.exists_eq_add_of_le' hindex
    exact ⟨i, by rwa [List.getElem?_tail]⟩

/-- What can be produced does not depend on the order of the productions. -/
theorem produces_iff : g.Produces f f' ↔ ∃ r ∈ g.rules.tail, r.Replaces f f' := by
  constructor
  · rintro ⟨step, h⟩
    cases h with
    | @intro index rule alternative left right production chosen =>
      exact ⟨rule, mem_tail_iff.2 ⟨index, production⟩, alternative, chosen, left, right, rfl, rfl⟩
  · rintro ⟨r, hr, a, ha, left, right, rfl, rfl⟩
    obtain ⟨index, production⟩ := mem_tail_iff.1 hr
    exact ⟨_, .intro left right production ha⟩

/-! ### Context-free grammars -/

/-- Every production is for a single nonterminal, and no two productions are for the same one. -/
structure ContextFree (g : Grammar) : Prop where
  single : ∀ r ∈ g.rules.tail, ∃ letter, r.pattern = [.nonterminal letter]
  distinct : (g.rules.tail.map Rule.pattern).Nodup

instance (f : Form) : Decidable (∃ letter, f = [.nonterminal letter]) :=
  match f with
  | [.nonterminal letter] => .isTrue ⟨letter, rfl⟩
  | [] => .isFalse (by simp)
  | [.start] => .isFalse (by simp)
  | [.terminal _] => .isFalse (by simp)
  | [.epsilon] => .isFalse (by simp)
  | _ :: _ :: _ => .isFalse (by simp)

instance (g : Grammar) : Decidable g.ContextFree :=
  decidable_of_iff ((∀ r ∈ g.rules.tail, ∃ letter, r.pattern = [.nonterminal letter]) ∧
    (g.rules.tail.map Rule.pattern).Nodup)
    ⟨fun h => ⟨h.1, h.2⟩, fun h => ⟨h.single, h.distinct⟩⟩

/-- There is one production for a nonterminal. -/
theorem ContextFree.rule_unique (hg : g.ContextFree) {r q : Rule} (hr : r ∈ g.rules.tail)
    (hq : q ∈ g.rules.tail) (h : r.pattern = q.pattern) : r = q :=
  List.inj_on_of_nodup_map hg.distinct hr hq h

/-- Where two symbols stand in a form: at the same place, or one before the other. -/
theorem append_singleton_cases {α : Type} {x y : α} {left right l r : List α}
    (h : left ++ [x] ++ right = l ++ [y] ++ r) :
    (left = l ∧ x = y ∧ right = r) ∨ (∃ middle, l = left ++ [x] ++ middle ∧
        right = middle ++ [y] ++ r) ∨
      ∃ middle, left = l ++ [y] ++ middle ∧ r = middle ++ [x] ++ right := by
  simp only [List.append_assoc] at h
  rcases List.append_eq_append_iff.1 h with ⟨as, rfl, hright⟩ | ⟨as, rfl, hright⟩
  · cases as with
    | nil => simp_all
    | cons a as => simp_all
  · cases as with
    | nil => simp_all
    | cons a as => simp_all

/-- One occurrence of a symbol, when something is produced: it is what is replaced, or it is still
there, and it could as well be replaced before. -/
theorem ContextFree.produces_cases (hg : g.ContextFree) {left right : Form} {x : Symbol}
    (h : g.Produces (left ++ [x] ++ right) u) :
    (∃ r ∈ g.rules.tail, r.pattern = [x] ∧ ∃ a ∈ r.alternatives,
        u = left ++ Form.withoutEpsilon a ++ right) ∨
      ∃ left' right', u = left' ++ [x] ++ right' ∧
        ∀ middle, g.Produces (left ++ middle ++ right) (left' ++ middle ++ right') := by
  obtain ⟨r, hr, a, ha, l, rest, heq, rfl⟩ := produces_iff.1 h
  obtain ⟨letter, hpattern⟩ := hg.single r hr
  rw [hpattern] at heq
  rcases append_singleton_cases heq with ⟨rfl, rfl, rfl⟩ | ⟨middle, rfl, rfl⟩ | ⟨middle, rfl, rfl⟩
  · exact .inl ⟨r, hr, hpattern, a, ha, rfl⟩
  · refine .inr ⟨left, middle ++ Form.withoutEpsilon a ++ rest, by simp, fun between => ?_⟩
    refine produces_iff.2 ⟨r, hr, a, ha, left ++ between ++ middle, rest, ?_, by simp⟩
    simp [hpattern]
  · refine .inr ⟨l ++ Form.withoutEpsilon a ++ middle, right, by simp, fun between => ?_⟩
    refine produces_iff.2 ⟨r, hr, a, ha, l, middle ++ between ++ right, ?_, by simp⟩
    simp [hpattern]

/-- Without a nonterminal nothing can be produced. -/
theorem ContextFree.any_of_produces (hg : g.ContextFree) (h : g.Produces f u) :
    f.any Symbol.isNonterminal = true := by
  obtain ⟨r, hr, a, -, left, right, rfl, -⟩ := produces_iff.1 h
  obtain ⟨letter, hpattern⟩ := hg.single r hr
  simp [hpattern, Symbol.isNonterminal]

theorem ContextFree.eq_of_derivesIn (hg : g.ContextFree)
    (hf : f.any Symbol.isNonterminal = false) (h : g.DerivesIn n f u) : n = 0 ∧ u = f := by
  cases h with
  | refl => exact ⟨rfl, rfl⟩
  | head first rest =>
    rw [hg.any_of_produces first] at hf
    cases hf

/-- A derivation may begin with any occurrence of a symbol that is not in its last form. -/
theorem DerivesIn.exists_first (hg : g.ContextFree) {left right : Form} {x : Symbol}
    (h : g.DerivesIn n (left ++ [x] ++ right) u) (hx : x ∉ u) :
    ∃ m, n = m + 1 ∧ ∃ r ∈ g.rules.tail, r.pattern = [x] ∧ ∃ a ∈ r.alternatives,
      g.DerivesIn m (left ++ Form.withoutEpsilon a ++ right) u := by
  induction n generalizing left right with
  | zero =>
    cases h
    simp at hx
  | succ n ih =>
    cases h with
    | head first rest =>
      rcases hg.produces_cases first with ⟨r, hr, hpattern, a, ha, rfl⟩ | ⟨l, l', rfl, hbefore⟩
      · exact ⟨n, rfl, r, hr, hpattern, a, ha, rest⟩
      · -- the occurrence is replaced later on, and the first replacement follows it instead
        obtain ⟨m, rfl, r, hr, hpattern, a, ha, hrest⟩ := ih rest
        exact ⟨m + 1, rfl, r, hr, hpattern, a, ha, .head (hbefore _) hrest⟩

/-! ### Deterministic grammars -/

/-- Every rule has one alternative. -/
def Deterministic (g : Grammar) : Prop := ∀ r ∈ g.rules, ∃ a, r.alternatives = [a]

instance (g : Grammar) : Decidable g.Deterministic :=
  decidable_of_iff (∀ r ∈ g.rules, r.alternatives.length = 1)
    (by simp only [Deterministic, List.length_eq_one_iff])

/-- Two replacements in one form are the same, or either can still be made after the other. -/
theorem ContextFree.diamond (hg : g.ContextFree) (hdet : g.Deterministic) (hu : g.Produces f u)
    (hv : g.Produces f v) : u = v ∨ ∃ x, g.Produces u x ∧ g.Produces v x := by
  obtain ⟨r, hr, a, ha, left, right, rfl, rfl⟩ := produces_iff.1 hu
  obtain ⟨letter, hpattern⟩ := hg.single r hr
  rw [hpattern] at hv
  rcases hg.produces_cases hv with ⟨q, hq, hqpattern, b, hb, rfl⟩ | ⟨l, l', rfl, hbefore⟩
  · obtain rfl := hg.rule_unique hr hq (hpattern.trans hqpattern.symm)
    obtain ⟨c, hc⟩ := hdet r (List.mem_of_mem_tail hr)
    rw [hc, List.mem_singleton] at ha hb
    rw [ha, hb]
    exact .inl rfl
  · refine .inr ⟨l ++ Form.withoutEpsilon a ++ l', hbefore _, ?_⟩
    exact produces_iff.2 ⟨r, hr, a, ha, l, l', by rw [hpattern], rfl⟩

/-- All derivations from a form are parts of derivations of the form in which nothing is left to
replace, and these are of the same length. -/
theorem DerivesIn.descends (hg : g.ContextFree) (hdet : g.Deterministic)
    (h : g.DerivesIn n f u) (hnormal : ∀ x, ¬ g.Produces u x) {k : Nat} (h' : g.DerivesIn k f v) :
    k ≤ n ∧ g.DerivesIn (n - k) v u := by
  induction n generalizing f v k with
  | zero =>
    cases h
    cases h' with
    | refl => exact ⟨le_rfl, .refl u⟩
    | head first rest => exact absurd first (hnormal _)
  | succ n ih =>
    cases h with
    | @head _ _ p _ hp hrest =>
      cases h' with
      | refl => exact ⟨Nat.zero_le _, .head hp hrest⟩
      | @head k _ q _ hq hmore =>
        have hother : g.DerivesIn n q u := by
          rcases hg.diamond hdet hp hq with rfl | ⟨x, hpx, hqx⟩
          · exact hrest
          · -- one replacement from `p` leads to `x`, and so does one from `q`
            obtain ⟨hle, hx⟩ := ih hrest (.head hpx (.refl x))
            have hn : n - 1 + 1 = n := by omega
            rw [← hn]
            exact .head hqx hx
        obtain ⟨hle, hv⟩ := ih hother hmore
        exact ⟨by omega, by rwa [Nat.add_sub_add_right]⟩

end Grammar

end PhraseGrammar
