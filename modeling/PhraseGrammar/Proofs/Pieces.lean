import PhraseGrammar.Proofs.Scanning

/-!
# What lines are made of

A line is code, perhaps with a comment behind it. Code is made of pieces, which are blanks and
tokens; everything else in it offends.

* `Piece`: the pieces, with `Piece.joined`, their characters in a row, and `Piece.tokens`, their
  tokens with the columns they stand in;
* `CommentAt`, `IsCode`: where a comment begins, and the part of a line in front of the first one;
* `Offends`, `FirstOffence`: the characters of the code that fit nowhere, and the first of them.

`Spells.scan_eq` and `FirstOffence.scan_eq` say what scanning a line comes to, and by `line_cases`
one of the two applies. Both follow the line piece by piece (`line_induction`).
-/

namespace PhraseGrammar

/-! ### Pieces -/

/-- A letter is a capital letter or a small one. -/
theorem isAlpha_eq (c : Char) : c.isAlpha = (c.isUpper || c.isLower) := rfl

/-- A blank or a token as it is written. The marks for the empty word and the arrow can be written
in two ways. -/
inductive Piece
  | space
  | tab
  | start
  | capitalE
  | epsilon
  | bar
  | terminal (c : Char) (h : c.isLower = true)
  | nonterminal (c : Char) (h : c.isUpper = true ∧ c ≠ 'E' ∧ c ≠ 'S')
  | doubleArrow
  | arrow

namespace Piece

/-- The characters of a piece. -/
def spelling : Piece → List Char
  | space => [' ']
  | tab => ['\t']
  | start => ['S']
  | capitalE => ['E']
  | epsilon => ['ε']
  | bar => ['|']
  | terminal c _ => [c]
  | nonterminal c _ => [c]
  | doubleArrow => ['=', '>']
  | arrow => ['-', '>']

/-- The token that a piece is, if it is no blank. -/
def token? : Piece → Option Token
  | space => none
  | tab => none
  | start => some .start
  | capitalE => some .epsilon
  | epsilon => some .epsilon
  | bar => some .or
  | terminal c _ => some (.terminal c)
  | nonterminal c _ => some (.nonterminal c)
  | doubleArrow => some .assign
  | arrow => some .assign

/-- The characters of pieces in a row. -/
def joined (ps : List Piece) : List Char := ps.flatMap spelling

/-- The tokens of pieces in a row, each in the column of its last character, when so many characters
of the line stand before them. -/
def tokens (before : Nat) : List Piece → List (Token × Nat)
  | [] => []
  | p :: ps =>
    (p.token?.map (·, before + p.spelling.length)).toList ++ tokens (before + p.spelling.length) ps

@[simp] theorem joined_nil : joined [] = [] := rfl

@[simp] theorem joined_cons (p : Piece) (ps : List Piece) :
    joined (p :: ps) = p.spelling ++ joined ps := rfl

/-- A piece is an arrow, or a single character that is a letter, a blank, `ε` or a bar. -/
theorem spelling_cases (p : Piece) :
    (∃ c, p.spelling = [c] ∧ (c.isAlpha = true ∨ c ∈ [' ', '\t', 'ε', '|'])) ∨
      p.spelling = ['=', '>'] ∨ p.spelling = ['-', '>'] := by
  cases p with
  | doubleArrow => exact .inr (.inl rfl)
  | arrow => exact .inr (.inr rfl)
  | terminal c h => exact .inl ⟨c, rfl, .inl (by simp [isAlpha_eq, h])⟩
  | nonterminal c h => exact .inl ⟨c, rfl, .inl (by simp [isAlpha_eq, h.1])⟩
  | start => exact .inl ⟨_, rfl, .inl rfl⟩
  | capitalE => exact .inl ⟨_, rfl, .inl rfl⟩
  | _ => exact .inl ⟨_, rfl, .inr (by simp)⟩

/-- No other characters occur in pieces. -/
theorem not_mem_spelling {c : Char} (hletter : c.isAlpha = false)
    (hother : c ∉ [' ', '\t', 'ε', '|', '=', '-', '>']) (p : Piece) : c ∉ p.spelling := by
  intro hc
  rcases p.spelling_cases with ⟨d, hp, hd⟩ | hp | hp <;> rw [hp] at hc
  · obtain rfl := List.mem_singleton.1 hc
    rcases hd with hd | hd
    · rw [hd] at hletter
      cases hletter
    · exact hother (List.mem_append_left ['=', '-', '>'] hd)
  · rcases List.mem_pair.1 hc with rfl | rfl <;> exact hother (by decide)
  · rcases List.mem_pair.1 hc with rfl | rfl <;> exact hother (by decide)

theorem slash_not_mem_spelling (p : Piece) : '/' ∉ p.spelling :=
  p.not_mem_spelling (by decide) (by decide)

theorem getLast?_spelling (p : Piece) :
    p.spelling.getLast? ≠ some '=' ∧ p.spelling.getLast? ≠ some '-' := by
  rcases p.spelling_cases with ⟨c, hp, hc⟩ | hp | hp <;> rw [hp]
  · constructor <;> rintro ⟨⟩ <;> revert hc <;> decide
  · decide
  · decide

theorem spelling_ne_nil (p : Piece) : p.spelling ≠ [] := by
  cases p <;> exact List.cons_ne_nil _ _

/-- Every character that is a token is a piece. -/
theorem exists_of_ofChar? {c : Char} {token : Token} (h : Token.ofChar? c = some token) :
    ∃ p : Piece, p.spelling = [c] ∧ p.token? = some token := by
  unfold Token.ofChar? at h
  split_ifs at h with h₁ h₂ h₃ h₄ h₅ <;> cases h
  · rcases h₁ with rfl | rfl
    · exact ⟨capitalE, rfl, rfl⟩
    · exact ⟨epsilon, rfl, rfl⟩
  · subst h₂
    exact ⟨start, rfl, rfl⟩
  · subst h₃
    exact ⟨bar, rfl, rfl⟩
  · exact ⟨terminal c h₄, rfl, rfl⟩
  · exact ⟨nonterminal c ⟨h₅, fun h => h₁ (.inl h), h₂⟩, rfl, rfl⟩

end Piece

namespace Lexeme

/-! ### Code and comments -/

/-- A comment begins at place `i` of a line. -/
def CommentAt (chars : List Char) (i : Nat) : Prop := ['/', '/'] <+: chars.drop i

/-- The part of a line in front of its first comment; the whole line, if it has none. -/
structure IsCode (chars code : List Char) : Prop where
  front : code <+: chars
  no_comment : ∀ i < code.length, ¬ CommentAt chars i
  whole_or_comment : code = chars ∨ CommentAt chars code.length

/-- A character at place `i` of a line, outside comments, that belongs to no piece. -/
inductive Unfit (chars : List Char) (i : Nat) (c : Char) : Prop
  /-- The first character of an arrow, and the second one does not follow. -/
  | shaft (h : c = '=' ∨ c = '-') (next : chars[i + 1]? ≠ some '>')
  /-- The second character of an arrow, and the first one does not stand before it. -/
  | head (h : c = '>') (before : ∀ j, i = j + 1 → chars[j]? ≠ some '=' ∧ chars[j]? ≠ some '-')
  | slash (h : c = '/') (next : chars[i + 1]? ≠ some '/')
  | stranger (h : c.isAlpha = false) (other : c ∉ [' ', '\t', 'ε', '|', '=', '-', '>', '/'])

/-- The character at place `i` of a line is no part of a comment, and it fits nowhere. -/
structure Offends (chars : List Char) (i : Nat) (c : Char) : Prop where
  here : chars[i]? = some c
  in_code : ∀ j ≤ i, ¬ CommentAt chars j
  unfit : Unfit chars i c

/-- The first character that offends. -/
structure FirstOffence (chars : List Char) (i : Nat) (c : Char) : Prop where
  offends : Offends chars i c
  first : ∀ j < i, ∀ d, ¬ Offends chars j d

theorem commentAt_append {front : List Char} (h : '/' ∉ front) (rest : List Char) (i : Nat) :
    CommentAt (front ++ rest) i ↔ ∃ k, i = front.length + k ∧ CommentAt rest k := by
  constructor
  · intro hi
    rcases Nat.lt_or_ge i front.length with hlt | hle
    · -- the comment would begin with a character of `front`
      exfalso
      rw [CommentAt, List.drop_append_of_le_length (Nat.le_of_lt hlt),
        List.drop_eq_getElem_cons hlt] at hi
      obtain ⟨hslash, -⟩ := List.cons_prefix_cons.1 hi
      exact h (hslash ▸ List.getElem_mem hlt)
    · obtain ⟨k, rfl⟩ := Nat.exists_eq_add_of_le hle
      refine ⟨k, rfl, ?_⟩
      rwa [CommentAt, List.drop_append, List.drop_eq_nil_of_le (by omega), List.nil_append,
        Nat.add_sub_cancel_left] at hi
  · rintro ⟨k, rfl, hk⟩
    rwa [CommentAt, List.drop_append, List.drop_eq_nil_of_le (by omega), List.nil_append,
      Nat.add_sub_cancel_left]

/-- Behind characters that end in no shaft of an arrow, what is unfit depends on the rest only. -/
theorem unfit_append {front : List Char} (hne : front ≠ [])
    (hlast : front.getLast? ≠ some '=' ∧ front.getLast? ≠ some '-') (rest : List Char) (k : Nat)
    (c : Char) : Unfit (front ++ rest) (front.length + k) c ↔ Unfit rest k c := by
  have hget : ∀ j, (front ++ rest)[front.length + j]? = rest[j]? := by
    intro j
    rw [List.getElem?_append_right (by omega), Nat.add_sub_cancel_left]
  have hnext : (front ++ rest)[front.length + k + 1]? = rest[k + 1]? := hget (k + 1)
  have hbefore : (∀ j, front.length + k = j + 1 →
        (front ++ rest)[j]? ≠ some '=' ∧ (front ++ rest)[j]? ≠ some '-') ↔
      ∀ j, k = j + 1 → rest[j]? ≠ some '=' ∧ rest[j]? ≠ some '-' := by
    cases k with
    | zero =>
      refine iff_of_true ?_ (by omega)
      intro j hj
      have hlen : 0 < front.length := List.length_pos_iff.2 hne
      rw [List.getElem?_append_left (by omega), show j = front.length - 1 by omega,
        ← List.getLast?_eq_getElem?]
      exact hlast
    | succ k =>
      constructor
      · rintro h j ⟨⟩
        rw [← hget]
        exact h _ rfl
      · rintro h j hj
        obtain rfl : j = front.length + k := by omega
        rw [hget]
        exact h k rfl
  constructor
  · rintro (⟨h, next⟩ | ⟨h, before⟩ | ⟨h, next⟩ | ⟨h, other⟩)
    · exact .shaft h (hnext ▸ next)
    · exact .head h (hbefore.1 before)
    · exact .slash h (hnext ▸ next)
    · exact .stranger h other
  · rintro (⟨h, next⟩ | ⟨h, before⟩ | ⟨h, next⟩ | ⟨h, other⟩)
    · exact .shaft h (hnext ▸ next)
    · exact .head h (hbefore.2 before)
    · exact .slash h (hnext ▸ next)
    · exact .stranger h other

theorem not_unfit {c : Char} (h : c.isAlpha = true ∨ c ∈ [' ', '\t', 'ε', '|']) (line : List Char)
    (i : Nat) : ¬ Unfit line i c := by
  rintro (⟨rfl | rfl, -⟩ | ⟨rfl, -⟩ | ⟨rfl, -⟩ | ⟨hletter, hother⟩)
  · revert h; decide
  · revert h; decide
  · revert h; decide
  · revert h; decide
  · rcases h with h | h
    · rw [h] at hletter
      cases hletter
    · exact hother (List.mem_append_left ['=', '-', '>', '/'] h)

/-- Nothing in a piece is unfit. -/
theorem not_unfit_of_lt {p : Piece} {rest : List Char} {i : Nat} {c : Char}
    (hi : i < p.spelling.length) (hc : (p.spelling ++ rest)[i]? = some c) :
    ¬ Unfit (p.spelling ++ rest) i c := by
  have harrow : ∀ shaft : Char, shaft = '=' ∨ shaft = '-' → p.spelling = [shaft, '>'] →
      ¬ Unfit (p.spelling ++ rest) i c := by
    intro shaft hshaft hp
    rw [hp] at hi hc ⊢
    obtain rfl | rfl : i = 0 ∨ i = 1 := by simp only [List.length_cons] at hi; simp at hi; omega
    · obtain rfl : shaft = c := by simpa using hc
      rintro (⟨-, next⟩ | ⟨rfl, -⟩ | ⟨rfl, -⟩ | ⟨-, hother⟩)
      · exact next rfl
      · revert hshaft; decide
      · revert hshaft; decide
      · rcases hshaft with rfl | rfl <;> simp at hother
    · obtain rfl : '>' = c := by simpa using hc
      rintro (⟨h | h, -⟩ | ⟨-, before⟩ | ⟨h, -⟩ | ⟨-, hother⟩)
      · cases h
      · cases h
      · have hfirst := before 0 rfl
        rcases hshaft with rfl | rfl <;> simp at hfirst
      · cases h
      · simp at hother
  rcases p.spelling_cases with ⟨d, hp, hd⟩ | hp | hp
  · rw [hp, List.length_singleton, Nat.lt_one_iff] at hi
    obtain rfl : d = c := by simpa [hp, hi] using hc
    exact not_unfit hd _ _
  · exact harrow '=' (.inl rfl) hp
  · exact harrow '-' (.inr rfl) hp

/-- A piece at the front of a line does not offend, nor does it change what does. -/
theorem offends_append (p : Piece) (rest : List Char) (i : Nat) (c : Char) :
    Offends (p.spelling ++ rest) i c ↔ ∃ k, i = p.spelling.length + k ∧ Offends rest k c := by
  have hcomment := commentAt_append p.slash_not_mem_spelling rest
  constructor
  · rintro ⟨here, in_code, unfit⟩
    rcases Nat.lt_or_ge i p.spelling.length with hlt | hle
    · exact absurd unfit (not_unfit_of_lt hlt here)
    · obtain ⟨k, rfl⟩ := Nat.exists_eq_add_of_le hle
      refine ⟨k, rfl, ?_, ?_, ?_⟩
      · rwa [List.getElem?_append_right (by omega), Nat.add_sub_cancel_left] at here
      · intro j hj hat
        exact in_code (p.spelling.length + j) (by omega) ((hcomment _).2 ⟨j, rfl, hat⟩)
      · exact (unfit_append p.spelling_ne_nil p.getLast?_spelling rest k c).1 unfit
  · rintro ⟨k, rfl, here, in_code, unfit⟩
    refine ⟨?_, ?_, (unfit_append p.spelling_ne_nil p.getLast?_spelling rest k c).2 unfit⟩
    · rwa [List.getElem?_append_right (by omega), Nat.add_sub_cancel_left]
    · intro j hj hat
      obtain ⟨m, rfl, hm⟩ := (hcomment _).1 hat
      exact in_code m (by omega) hm

theorem firstOffence_append {p : Piece} {rest : List Char} {i : Nat} {c : Char} :
    FirstOffence (p.spelling ++ rest) i c ↔
      ∃ k, i = p.spelling.length + k ∧ FirstOffence rest k c := by
  constructor
  · rintro ⟨offends, first⟩
    obtain ⟨k, rfl, hk⟩ := (offends_append p rest i c).1 offends
    refine ⟨k, rfl, hk, fun j hj d hd => ?_⟩
    exact first (p.spelling.length + j) (by omega) d ((offends_append p rest _ d).2 ⟨j, rfl, hd⟩)
  · rintro ⟨k, rfl, offends, first⟩
    refine ⟨(offends_append p rest _ c).2 ⟨k, rfl, offends⟩, fun j hj d hd => ?_⟩
    obtain ⟨m, rfl, hm⟩ := (offends_append p rest j d).1 hd
    exact first m (by omega) d hm

/-! ### Scanning piece by piece -/

theorem scan_piece (p : Piece) (before : Nat) (rest : List Char) :
    scan (before + 1) (p.spelling ++ rest) =
      ((p.token?.map (·, before + p.spelling.length)).toList ++ ·) <$>
        scan (before + p.spelling.length + 1) rest := by
  have hchar : ∀ c token, p.spelling = [c] → p.token? = some token →
      Token.ofChar? c = some token → scan (before + 1) (p.spelling ++ rest) =
        ((p.token?.map (·, before + p.spelling.length)).toList ++ ·) <$>
          scan (before + p.spelling.length + 1) rest := by
    intro c token hp htoken hc
    rw [hp, htoken, List.singleton_append, scan_of_ofChar? hc]
    rfl
  cases p with
  | space | tab => simp [Piece.spelling, Piece.token?, scan]
  | doubleArrow | arrow => simp [Piece.spelling, Piece.token?, scan]
  | start => exact hchar 'S' _ rfl rfl rfl
  | capitalE => exact hchar 'E' _ rfl rfl rfl
  | epsilon => exact hchar 'ε' _ rfl rfl rfl
  | bar => exact hchar '|' _ rfl rfl rfl
  | terminal c h => exact hchar c _ rfl rfl (Token.ofChar?_glyph (s := .terminal c) h)
  | nonterminal c h =>
    refine hchar c _ rfl rfl (Token.ofChar?_glyph (s := .nonterminal c) ?_)
    simp [Symbol.inAlphabet, h]

theorem ofChar?_eq_none_iff {c : Char} :
    Token.ofChar? c = none ↔ c.isAlpha = false ∧ c ≠ 'ε' ∧ c ≠ '|' := by
  unfold Token.ofChar?
  split_ifs with h₁ h₂ h₃ h₄ h₅
  · rcases h₁ with rfl | rfl <;> decide
  · subst h₂; decide
  · subst h₃; decide
  · simp [isAlpha_eq, h₄]
  · simp [isAlpha_eq, h₅]
  · simp [isAlpha_eq, h₃, h₄, h₅, not_or.1 h₁]

/-- What offends at the front of a line is what begins neither a piece nor a comment. -/
theorem offends_zero_iff {c : Char} {rest : List Char} :
    Offends (c :: rest) 0 c ↔ (c ≠ ' ' ∧ c ≠ '\t') ∧ (rest[0]? = some '/' → c ≠ '/') ∧
      (rest[0]? = some '>' → c ≠ '=' ∧ c ≠ '-') ∧ Token.ofChar? c = none := by
  have hcomment : CommentAt (c :: rest) 0 ↔ c = '/' ∧ rest[0]? = some '/' := by
    cases rest <;> simp [CommentAt, eq_comm]
  rw [ofChar?_eq_none_iff]
  constructor
  · rintro ⟨-, in_code, unfit⟩
    have hslash : rest[0]? = some '/' → c ≠ '/' := by
      intro hrest hc
      exact in_code 0 (Nat.le_refl 0) (hcomment.2 ⟨hc, hrest⟩)
    rcases unfit with ⟨rfl | rfl, next⟩ | ⟨rfl, -⟩ | ⟨rfl, -⟩ | ⟨hletter, hother⟩
    · exact ⟨by decide, hslash, fun hrest => absurd hrest next, by decide⟩
    · exact ⟨by decide, hslash, fun hrest => absurd hrest next, by decide⟩
    · exact ⟨by decide, hslash, fun _ => by decide, by decide⟩
    · exact ⟨by decide, hslash, fun _ => by decide, by decide⟩
    · simp only [List.mem_cons, List.not_mem_nil, or_false, not_or] at hother
      obtain ⟨hspace, htab, hepsilon, hbar, hequals, hminus, -⟩ := hother
      exact ⟨⟨hspace, htab⟩, hslash, fun _ => ⟨hequals, hminus⟩, hletter, hepsilon, hbar⟩
  · rintro ⟨⟨hspace, htab⟩, hslash, hshaft, hletter, hepsilon, hbar⟩
    refine ⟨rfl, ?_, ?_⟩
    · intro j hj hat
      obtain rfl := Nat.le_zero.1 hj
      obtain ⟨hc, hrest⟩ := hcomment.1 hat
      exact hslash hrest hc
    · by_cases h₁ : c = '=' ∨ c = '-'
      · exact .shaft h₁ fun hrest => h₁.elim (hshaft hrest).1 (hshaft hrest).2
      by_cases h₂ : c = '>'
      · exact .head h₂ (by rintro j ⟨⟩)
      by_cases h₃ : c = '/'
      · exact .slash h₃ fun hrest => hslash hrest h₃
      · refine .stranger hletter ?_
        simp [hspace, htab, hepsilon, hbar, not_or.1 h₁, h₂, h₃]

/-- Scanning stops at a character that offends. -/
theorem scan_of_offends {c : Char} {rest : List Char} (h : Offends (c :: rest) 0 c)
    (column : Nat) : scan column (c :: rest) = .error (c, column) := by
  obtain ⟨⟨hspace, htab⟩, hslash, hshaft, hc⟩ := offends_zero_iff.1 h
  rw [scan]
  · simp only [hc]
  · exact hspace
  · exact htab
  · rintro more rfl rfl
    exact hslash rfl rfl
  · rintro more rfl rfl
    exact (hshaft rfl).1 rfl
  · rintro more rfl rfl
    exact (hshaft rfl).2 rfl

/-- A line is empty, or it begins with a comment, with a piece or with a character that offends. -/
theorem line_induction {P : List Char → Prop} (nil : P [])
    (comment : ∀ rest, P ('/' :: '/' :: rest))
    (piece : ∀ (p : Piece) rest, P rest → P (p.spelling ++ rest))
    (offence : ∀ c rest, Offends (c :: rest) 0 c → P (c :: rest)) (line : List Char) : P line := by
  generalize hcolumn : 0 = column
  clear hcolumn
  fun_induction scan column line with
  | case1 => exact nil
  | case2 column rest ih => exact piece .space rest ih
  | case3 column rest ih => exact piece .tab rest ih
  | case4 column rest => exact comment rest
  | case5 column rest ih => exact piece .doubleArrow rest ih
  | case6 column rest ih => exact piece .arrow rest ih
  | case7 column c rest _ _ _ _ _ token htoken ih =>
    obtain ⟨p, hp, -⟩ := Piece.exists_of_ofChar? htoken
    have hline := piece p rest ih
    rwa [hp] at hline
  | case8 column c rest hspace htab hcomment hdouble harrow hc =>
    have hrest : ∀ d, rest[0]? = some d → ∃ tail, rest = d :: tail := by
      intro d hd
      rw [← List.head?_eq_getElem?] at hd
      exact List.head?_eq_some_iff.1 hd
    refine offence c rest (offends_zero_iff.2 ⟨⟨hspace, htab⟩, ?_, ?_, hc⟩)
    · intro hd hslash
      obtain ⟨tail, rfl⟩ := hrest _ hd
      exact hcomment tail hslash rfl
    · intro hd
      obtain ⟨tail, rfl⟩ := hrest _ hd
      exact ⟨fun h => hdouble tail h rfl, fun h => harrow tail h rfl⟩

/-! ### Whole lines -/

theorem isCode_comment (rest : List Char) : IsCode ('/' :: '/' :: rest) [] where
  front := List.nil_prefix
  no_comment := by rintro i ⟨⟩
  whole_or_comment := .inr (by simp [CommentAt])

theorem IsCode.piece {rest code : List Char} (h : IsCode rest code) (p : Piece) :
    IsCode (p.spelling ++ rest) (p.spelling ++ code) where
  front := (List.prefix_append_right_inj _).2 h.front
  no_comment := by
    intro i hi hat
    obtain ⟨k, rfl, hk⟩ := (commentAt_append p.slash_not_mem_spelling rest i).1 hat
    rw [List.length_append] at hi
    exact h.no_comment k (by omega) hk
  whole_or_comment := by
    rcases h.whole_or_comment with rfl | hat
    · exact .inl rfl
    · refine .inr ((commentAt_append p.slash_not_mem_spelling rest _).2 ⟨_, ?_, hat⟩)
      rw [List.length_append]

/-- The line holds code that is made of these pieces, and perhaps a comment. -/
def Spells (line : List Char) (ps : List Piece) : Prop := IsCode line (Piece.joined ps)

/-- A line is made of pieces, or something in it offends. -/
theorem line_cases (line : List Char) :
    (∃ ps, Spells line ps) ∨ ∃ i c, FirstOffence line i c := by
  induction line using line_induction with
  | nil => exact .inl ⟨[], List.prefix_rfl, by rintro i ⟨⟩, .inl rfl⟩
  | comment rest => exact .inl ⟨[], isCode_comment rest⟩
  | piece p rest ih =>
    rcases ih with ⟨ps, hps⟩ | ⟨i, c, h⟩
    · exact .inl ⟨p :: ps, hps.piece p⟩
    · exact .inr ⟨_, c, firstOffence_append.2 ⟨i, rfl, h⟩⟩
  | offence c rest h => exact .inr ⟨0, c, h, by rintro j ⟨⟩⟩

/-- Nothing or a comment follows the pieces. -/
theorem Spells.exists_behind {line : List Char} {ps : List Piece} (h : Spells line ps) :
    ∃ behind, line = Piece.joined ps ++ behind ∧
      (behind = [] ∨ ∃ rest, behind = '/' :: '/' :: rest) := by
  obtain ⟨behind, rfl⟩ := h.front
  refine ⟨behind, rfl, ?_⟩
  rcases h.whole_or_comment with heq | hat
  · exact .inl (by simpa using heq)
  · obtain ⟨rest, hrest⟩ := hat
    rw [List.drop_left] at hrest
    exact .inr ⟨rest, hrest.symm⟩

/-- In a line that is made of pieces nothing offends. -/
theorem Spells.not_offends {line : List Char} {ps : List Piece} (h : Spells line ps) (i : Nat)
    (c : Char) : ¬ Offends line i c := by
  obtain ⟨behind, rfl, hbehind⟩ := h.exists_behind
  clear h
  induction ps generalizing i with
  | nil =>
    intro hoffends
    rcases hbehind with rfl | ⟨rest, rfl⟩
    · cases hoffends.here
    · exact hoffends.in_code 0 (Nat.zero_le i) (by simp [CommentAt])
  | cons p ps ih =>
    rw [Piece.joined_cons, List.append_assoc, offends_append]
    rintro ⟨k, -, hk⟩
    exact ih k hk

/-- Scanning a line that is made of pieces gives their tokens. -/
theorem Spells.scan_eq {line : List Char} {ps : List Piece} (h : Spells line ps) (before : Nat) :
    scan (before + 1) line = .ok (Piece.tokens before ps) := by
  obtain ⟨behind, rfl, hbehind⟩ := h.exists_behind
  clear h
  induction ps generalizing before with
  | nil => rcases hbehind with rfl | ⟨rest, rfl⟩ <;> simp [scan, Piece.tokens]
  | cons p ps ih =>
    rw [Piece.joined_cons, List.append_assoc, scan_piece, ih]
    rfl

/-- Scanning any other line stops at the first character that offends. -/
theorem FirstOffence.scan_eq {line : List Char} {i : Nat} {c : Char} (h : FirstOffence line i c)
    (before : Nat) : scan (before + 1) line = .error (c, before + i + 1) := by
  induction line using line_induction generalizing i before with
  | nil => cases h.offends.here
  | comment rest => exact absurd (by simp [CommentAt]) (h.offends.in_code 0 (Nat.zero_le i))
  | piece p rest ih =>
    obtain ⟨k, rfl, hk⟩ := firstOffence_append.1 h
    rw [scan_piece, ih hk, ← Nat.add_assoc]
    rfl
  | offence d rest hd =>
    rcases Nat.eq_zero_or_pos i with rfl | hpos
    · obtain rfl : d = c := by simpa using h.offends.here
      exact scan_of_offends hd _
    · exact absurd hd (h.first 0 hpos d)

end Lexeme

end PhraseGrammar
