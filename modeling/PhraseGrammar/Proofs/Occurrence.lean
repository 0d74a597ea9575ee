import PhraseGrammar.Grammar
import Mathlib.Data.List.Basic
import Mathlib.Data.Nat.Find

/-!
# Occurrences of patterns

* `Rule.OccursAt`: the pattern of a rule stands at a place of a form. An empty pattern stands
  nowhere;
* `Rule.Fills`: the same in terms of spans, for patterns that are not empty
  (`Rule.occursAt_iff_fills`);
* `Rule.OccursFrom`, `Rule.LeftmostFrom`: it stands somewhere at or after an offset, and the first
  such place;
* `Grammar.HasProduction`, `Grammar.OccursFrom`: the productions with their indices, and whether
  one of them stands somewhere at or after an offset;
* `Grammar.IsSite`: the first production that does, at its leftmost place.

`Rule.findMatch_eq_some_iff` and `Rule.findMatch_eq_none_iff` say what the search for one rule
finds, and `Grammar.site?_eq_some_iff` and `Grammar.site?_eq_none_iff` what the search for all
productions finds. `Rule.findMatch_exact` says it for one rule in terms of spans.
-/

namespace PhraseGrammar

namespace Rule

/-- The pattern, which is not empty, stands in `form` from place `i` on. -/
def OccursAt (r : Rule) (form : Form) (i : Nat) : Prop :=
  r.pattern ≠ [] ∧ r.pattern <+: form.drop i

/-- The span from place `i` on that is as long as the pattern lies in `form`, and it is the
pattern. -/
def Fills (r : Rule) (form : Form) (i : Nat) : Prop :=
  i + r.pattern.length ≤ form.length ∧ (form.drop i).take r.pattern.length = r.pattern

instance (r : Rule) (form : Form) (i : Nat) : Decidable (r.Fills form i) :=
  inferInstanceAs (Decidable (_ ∧ _))

/-- The pattern stands somewhere at or after `offset`. -/
def OccursFrom (r : Rule) (form : Form) (offset : Nat) : Prop :=
  ∃ i, offset ≤ i ∧ r.OccursAt form i

/-- `i` is the first place at or after `offset` where the pattern stands. -/
structure LeftmostFrom (r : Rule) (form : Form) (offset i : Nat) : Prop where
  offset_le : offset ≤ i
  occursAt : r.OccursAt form i
  not_before : ∀ j, offset ≤ j → j < i → ¬ r.OccursAt form j

theorem OccursAt.exists_eq_append {r : Rule} {form : Form} {i : Nat} (h : r.OccursAt form i) :
    ∃ left right, form = left ++ r.pattern ++ right ∧ left.length = i := by
  obtain ⟨hne, right, hright⟩ := h
  have hi : i ≤ form.length := by
    by_contra hlt
    rw [List.drop_eq_nil_of_le (by omega)] at hright
    exact hne (List.append_eq_nil_iff.1 hright).1
  refine ⟨form.take i, right, ?_, by rw [List.length_take]; omega⟩
  rw [List.append_assoc, hright, List.take_append_drop]

/-- Places where the pattern stands leave room for it. -/
theorem OccursAt.add_length_le {r : Rule} {form : Form} {i : Nat} (h : r.OccursAt form i) :
    i + r.pattern.length ≤ form.length := by
  obtain ⟨left, right, rfl, rfl⟩ := h.exists_eq_append
  simp

theorem occursAt_iff_take {r : Rule} {form : Form} {i : Nat} (hne : r.pattern ≠ []) :
    r.OccursAt form i ↔ (form.drop i).take r.pattern.length = r.pattern := by
  rw [OccursAt, List.prefix_iff_eq_take, eq_comm]
  exact and_iff_right hne

theorem occursAt_iff_fills {r : Rule} {form : Form} {i : Nat} :
    r.OccursAt form i ↔ r.pattern ≠ [] ∧ r.Fills form i := by
  constructor
  · intro h
    exact ⟨h.1, h.add_length_le, (occursAt_iff_take h.1).1 h⟩
  · rintro ⟨hne, -, hspan⟩
    exact (occursAt_iff_take hne).2 hspan

theorem OccursFrom.mono {r : Rule} {form : Form} {m n : Nat} (h : r.OccursFrom form n)
    (hmn : m ≤ n) : r.OccursFrom form m := by
  obtain ⟨i, hi, hocc⟩ := h
  exact ⟨i, by omega, hocc⟩

theorem LeftmostFrom.unique {r : Rule} {form : Form} {offset i j : Nat}
    (hi : r.LeftmostFrom form offset i) (hj : r.LeftmostFrom form offset j) : i = j := by
  rcases Nat.lt_trichotomy i j with h | h | h
  · exact absurd hi.occursAt (hj.not_before i hi.offset_le h)
  · exact h
  · exact absurd hj.occursAt (hi.not_before j hj.offset_le h)

/-- The first place from an offset on is also the first one from every offset between the two. -/
theorem LeftmostFrom.of_le {r : Rule} {form : Form} {offset later i : Nat}
    (h : r.LeftmostFrom form offset i) (hoffset : offset ≤ later) (hlater : later ≤ i) :
    r.LeftmostFrom form later i where
  offset_le := hlater
  occursAt := h.occursAt
  not_before j hj := h.not_before j (Nat.le_trans hoffset hj)

theorem leftmostFrom_iff_fills {r : Rule} {form : Form} {offset i : Nat} :
    r.LeftmostFrom form offset i ↔
      r.pattern ≠ [] ∧ offset ≤ i ∧ r.Fills form i ∧
        ∀ j, offset ≤ j → j < i → ¬ r.Fills form j := by
  constructor
  · rintro ⟨hle, hocc, hbefore⟩
    obtain ⟨hne, hfills⟩ := occursAt_iff_fills.1 hocc
    refine ⟨hne, hle, hfills, ?_⟩
    intro j hj hji hearlier
    exact hbefore j hj hji (occursAt_iff_fills.2 ⟨hne, hearlier⟩)
  · rintro ⟨hne, hle, hfills, hbefore⟩
    refine ⟨hle, occursAt_iff_fills.2 ⟨hne, hfills⟩, ?_⟩
    intro j hj hji hocc
    exact hbefore j hj hji (occursAt_iff_fills.1 hocc).2

theorem not_occursFrom_iff_fills {r : Rule} {form : Form} {offset : Nat} :
    ¬ r.OccursFrom form offset ↔ r.pattern = [] ∨ ∀ i, offset ≤ i → ¬ r.Fills form i := by
  by_cases hne : r.pattern = []
  · simp [OccursFrom, occursAt_iff_fills, hne]
  · simp [OccursFrom, occursAt_iff_fills, hne]

/-- What the search in the symbols from place `i` on finds. -/
theorem locate_eq_some_iff {pattern : Form} (hne : pattern ≠ []) {rest : Form} {i k : Nat} :
    locate pattern rest i = some k ↔
      ∃ d, k = i + d ∧ pattern <+: rest.drop d ∧ ∀ j, j < d → ¬ pattern <+: rest.drop j := by
  -- what is a distance `d` in `rest` is `d + 1` in `s :: rest`
  induction rest generalizing i with
  | nil =>
    simp only [locate_nil, List.drop_nil, List.prefix_nil, reduceCtorEq, false_iff]
    rintro ⟨d, -, h, -⟩
    exact hne h
  | cons s rest ih =>
    rw [locate_cons]
    split_ifs with hp
    · rw [List.isPrefixOf_iff_prefix] at hp
      constructor
      · rintro ⟨⟩
        refine ⟨0, rfl, hp, ?_⟩
        intro j hj
        omega
      · rintro ⟨d, rfl, -, hbefore⟩
        cases d with
        | zero => rfl
        | succ d => exact absurd hp (hbefore 0 (Nat.succ_pos d))
    · rw [List.isPrefixOf_iff_prefix] at hp
      rw [ih]
      constructor
      · rintro ⟨d, rfl, hd, hbefore⟩
        refine ⟨d + 1, by omega, hd, ?_⟩
        intro j hj
        cases j with
        | zero => exact hp
        | succ j => exact hbefore j (by omega)
      · rintro ⟨d, rfl, hd, hbefore⟩
        cases d with
        | zero => exact absurd hd hp
        | succ d =>
          refine ⟨d, by omega, hd, ?_⟩
          intro j hj
          exact hbefore (j + 1) (by omega)

theorem findMatch_eq_some_iff {r : Rule} {form : Form} {offset i : Nat} :
    r.findMatch form offset = some i ↔ r.LeftmostFrom form offset i := by
  by_cases hne : r.pattern = []
  · rw [findMatch_of_pattern_eq_nil hne]
    constructor
    · rintro ⟨⟩
    · intro h
      exact absurd hne h.occursAt.1
  · simp only [findMatch, List.isEmpty_iff, hne, if_false, locate_eq_some_iff hne, List.drop_drop]
    constructor
    · rintro ⟨d, rfl, hd, hbefore⟩
      refine ⟨by omega, ⟨hne, hd⟩, ?_⟩
      intro j hj hji hocc
      obtain ⟨k, rfl⟩ := Nat.exists_eq_add_of_le hj
      exact hbefore k (by omega) hocc.2
    · rintro ⟨hle, hocc, hbefore⟩
      obtain ⟨d, rfl⟩ := Nat.exists_eq_add_of_le hle
      refine ⟨d, rfl, hocc.2, ?_⟩
      intro j hj hpre
      exact hbefore (offset + j) (by omega) (by omega) ⟨hne, hpre⟩

/-- A rule that occurs somewhere has a leftmost occurrence. -/
theorem OccursFrom.exists_leftmostFrom {r : Rule} {form : Form} {offset : Nat}
    (h : r.OccursFrom form offset) : ∃ i, r.LeftmostFrom form offset i := by
  classical
  have hspec := Nat.find_spec h
  refine ⟨Nat.find h, hspec.1, hspec.2, ?_⟩
  intro j hj hlt hocc
  exact Nat.find_min h hlt ⟨hj, hocc⟩

theorem findMatch_eq_none_iff {r : Rule} {form : Form} {offset : Nat} :
    r.findMatch form offset = none ↔ ¬ r.OccursFrom form offset := by
  constructor
  · intro hnone hocc
    obtain ⟨i, hi⟩ := hocc.exists_leftmostFrom
    rw [findMatch_eq_some_iff.2 hi] at hnone
    cases hnone
  · intro hocc
    rw [Option.eq_none_iff_forall_ne_some]
    intro i hi
    have h := findMatch_eq_some_iff.1 hi
    exact hocc ⟨i, h.offset_le, h.occursAt⟩

/-- **The search for a pattern finds its leftmost occurrence at or after the offset**, wherever the
offset lies: the first place from there on whose span is the pattern. It finds nothing exactly if
the pattern is empty or there is no such place. What it finds from one offset it finds from every
offset up to there. -/
theorem findMatch_exact (r : Rule) (form : Form) (offset : Nat) :
    (∀ i, r.findMatch form offset = some i ↔
      r.pattern ≠ [] ∧ offset ≤ i ∧ r.Fills form i ∧
        ∀ j, offset ≤ j → j < i → ¬ r.Fills form j) ∧
    (r.findMatch form offset = none ↔
      r.pattern = [] ∨ ∀ i, offset ≤ i → ¬ r.Fills form i) ∧
    ∀ i later, r.findMatch form offset = some i → offset ≤ later → later ≤ i →
      r.findMatch form later = some i := by
  refine ⟨fun i => ?_, ?_, fun i later hi hoffset hlater => ?_⟩
  · rw [findMatch_eq_some_iff, leftmostFrom_iff_fills]
  · rw [findMatch_eq_none_iff, not_occursFrom_iff_fills]
  · have hleftmost := findMatch_eq_some_iff.1 hi
    exact findMatch_eq_some_iff.2 (hleftmost.of_le hoffset hlater)

/-- A rule whose pattern overlaps itself. -/
def halving : Rule := ⟨[.terminal 'a', .terminal 'a'], [[.terminal 'a']]⟩

/-- A form with three letters in a row. -/
def threefold : Form := [.nonterminal 'B', .terminal 'a', .terminal 'a', .terminal 'a', .start]

/-- Of two occurrences that overlap the first one is found up to where it begins, and from there on
the other one. Nothing is found from the last place with room for the pattern, or from behind the
form. -/
theorem findMatch_exact_halving :
    halving.findMatch threefold 0 = some 1 ∧ ¬ halving.Fills threefold 0 ∧
      halving.Fills threefold 1 ∧ halving.findMatch threefold 1 = some 1 ∧
      halving.findMatch threefold 2 = some 2 ∧ halving.findMatch threefold 3 = none ∧
      halving.findMatch threefold 9 = none := by
  obtain ⟨hfront, -, hlater⟩ := halving.findMatch_exact threefold 0
  obtain ⟨hmiddle, -, -⟩ := halving.findMatch_exact threefold 2
  obtain ⟨-, hback, -⟩ := halving.findMatch_exact threefold 3
  have hfirst : halving.findMatch threefold 0 = some 1 := rfl
  obtain ⟨-, -, hfills, hbefore⟩ := (hfront 1).1 hfirst
  have hsecond : halving.findMatch threefold 2 = some 2 := by
    refine (hmiddle 2).2 ⟨by decide, Nat.le_refl 2, by decide, ?_⟩
    intro j hj hji
    omega
  have hlast : halving.findMatch threefold 3 = none := by
    refine hback.2 (.inr ?_)
    rintro i hi ⟨hroom, hspan⟩
    obtain rfl : i = 3 := by
      have hroom' : i + 2 ≤ 5 := hroom
      omega
    exact absurd hspan (by decide)
  exact ⟨hfirst, hbefore 0 (Nat.le_refl 0) (by decide), hfills,
    hlater 1 1 hfirst (by decide) (Nat.le_refl 1), hsecond, hlast, rfl⟩

end Rule

namespace Grammar

/-- `r` is the production of the given index. The start rule, of index 0, is none. -/
def HasProduction (g : Grammar) (index : Nat) (r : Rule) : Prop :=
  1 ≤ index ∧ g.rules[index]? = some r

/-- Some production occurs at or after `offset`. -/
def OccursFrom (g : Grammar) (form : Form) (offset : Nat) : Prop :=
  ∃ index r, g.HasProduction index r ∧ r.OccursFrom form offset

/-- The production of the site is the first one that occurs at or after `offset`, and it does so
at the start of the site first. -/
structure IsSite (g : Grammar) (form : Form) (offset : Nat) (site : Site) : Prop where
  production : g.HasProduction site.index site.rule
  leftmost : site.rule.LeftmostFrom form offset site.start
  first : ∀ j r, j < site.index → g.HasProduction j r → ¬ r.OccursFrom form offset

theorem mem_productions {g : Grammar} {r : Rule} {index : Nat} :
    (r, index) ∈ g.productions ↔ g.HasProduction index r := by
  rcases g with ⟨_ | ⟨first, rest⟩⟩
  · simp [HasProduction]
  · rw [productions_cons, List.mk_mem_zipIdx_iff_le_and_getElem?_sub, HasProduction]
    cases index <;> simp

theorem IsSite.occursFrom {g : Grammar} {form : Form} {offset : Nat} {site : Site}
    (h : g.IsSite form offset site) : g.OccursFrom form offset :=
  ⟨site.index, site.rule, h.production, site.start, h.leftmost.offset_le, h.leftmost.occursAt⟩

/-- There is only one such site. -/
theorem IsSite.unique {g : Grammar} {form : Form} {offset : Nat} {a b : Site}
    (ha : g.IsSite form offset a) (hb : g.IsSite form offset b) : a = b := by
  have key : ∀ {x y : Site}, g.IsSite form offset x → g.IsSite form offset y →
      ¬ x.index < y.index := by
    intro x y hx hy hlt
    exact hy.first _ _ hlt hx.production ⟨_, hx.leftmost.offset_le, hx.leftmost.occursAt⟩
  have hindex : a.index = b.index := by
    have h₁ := key ha hb
    have h₂ := key hb ha
    omega
  have hrule : a.rule = b.rule := by
    have hproduction := ha.production.2
    rw [hindex, hb.production.2] at hproduction
    exact (Option.some.inj hproduction).symm
  have hstart : a.start = b.start := by
    have hleftmost := ha.leftmost
    rw [hrule] at hleftmost
    exact hleftmost.unique hb.leftmost
  cases a; cases b
  simp_all

theorem site?_eq_none_iff {g : Grammar} {form : Form} {offset : Nat} :
    g.site? form offset = none ↔ ¬ g.OccursFrom form offset := by
  simp only [site?, List.findSome?_eq_none_iff, Option.map_eq_none_iff, OccursFrom, not_exists,
    not_and, Prod.forall, mem_productions, Rule.findMatch_eq_none_iff]
  exact forall_comm

theorem isSite_of_site?_eq_some {g : Grammar} {form : Form} {offset : Nat} {site : Site}
    (h : g.site? form offset = some site) : g.IsSite form offset site := by
  obtain ⟨before, ⟨r, index⟩, after, hsplit, hfound, hnone⟩ := List.findSome?_eq_some_iff.1 h
  obtain ⟨start, hstart, rfl⟩ := Option.map_eq_some_iff.1 hfound
  refine ⟨mem_productions.1 (by simp [hsplit]), Rule.findMatch_eq_some_iff.1 hstart, ?_⟩
  intro j r' hj hr'
  -- the productions are listed by index, so those of lower index come before
  rcases g with ⟨_ | ⟨first, rest⟩⟩
  · simp at hsplit
  rw [← mem_productions, hsplit] at hr'
  rw [productions_cons] at hsplit
  obtain ⟨front, back, -, rfl, hback⟩ := List.zipIdx_eq_append_iff.1 hsplit
  rw [hback] at hr'
  have hle : 1 + front.length ≤ index := List.le_snd_of_mem_zipIdx (hback ▸ List.mem_cons_self)
  have hfront : (r', j) ∈ front.zipIdx 1 := by
    rcases List.mem_append.1 hr' with hmem | hmem
    · exact hmem
    · exfalso
      cases back with
      | nil => simp at hmem
      | cons b back =>
        rw [List.zipIdx_cons, List.cons.injEq, Prod.mk.injEq] at hback
        have := List.le_snd_of_mem_zipIdx hmem
        simp only at hj
        omega
  simpa [Rule.findMatch_eq_none_iff] using hnone _ hfront

theorem site?_eq_some_iff {g : Grammar} {form : Form} {offset : Nat} {site : Site} :
    g.site? form offset = some site ↔ g.IsSite form offset site := by
  constructor
  · exact isSite_of_site?_eq_some
  · intro h
    cases hs : g.site? form offset with
    | none => exact absurd h.occursFrom (site?_eq_none_iff.1 hs)
    | some other => rw [(isSite_of_site?_eq_some hs).unique h]

end Grammar

end PhraseGrammar
