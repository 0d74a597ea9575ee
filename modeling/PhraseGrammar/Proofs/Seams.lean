import PhraseGrammar.Proofs.Columns

/-!
# Lines that are put together

What stands before a place of a line does not matter for what is scanned behind it, if no arrow and
no beginning of a comment crosses that place.

* `Seam`, `Gap`: where a line can be put together, and where a blank can come in between;
* `scan_append`: scanning goes on behind a seam;
* `scan_append_congr`: what is scanned behind a seam does not depend on what stands before it;
* `alike_blank`, `same_of_token`: blanks that come in, and pieces that stand for each other;
* `trimmed`: a line without the carriage return at its end;
* `exists_line`: what is put into a text comes to stand in one of its lines.
-/

namespace PhraseGrammar

/-! ### Line ends -/

namespace Piece

variable (p : Piece)

theorem lineFeed_not_mem : '\n' ∉ p.spelling :=
  p.not_mem_spelling (by decide) (by decide)

/-- Pieces do not end in carriage returns. -/
theorem getLast?_append_ne (left : List Char) : (left ++ p.spelling).getLast? ≠ some '\r' := by
  have hreturn : '\r' ∉ p.spelling := p.not_mem_spelling (by decide) (by decide)
  obtain ⟨front, c, hp⟩ := (List.eq_nil_or_concat' p.spelling).resolve_left p.spelling_ne_nil
  rw [hp, ← List.append_assoc, List.getLast?_concat]
  rintro ⟨⟩
  exact hreturn (by simp [hp])

end Piece

namespace Lexeme

/-! ### Seams -/

/-- Neither an arrow nor the beginning of a comment crosses from `left` to `right`. -/
structure Seam (left right : List Char) : Prop where
  arrow : right.head? = some '>' → left.getLast? ≠ some '=' ∧ left.getLast? ≠ some '-'
  slashes : right.head? = some '/' → left.getLast? ≠ some '/'

/-- A blank between `left` and `right` tears nothing apart, and no carriage return comes to stand
before it. -/
structure Gap (left right : List Char) : Prop extends Seam left right where
  carriageReturn : left.getLast? ≠ some '\r'

/-- A seam stays one where both sides are shorter. -/
theorem Seam.mono {left right l r : List Char} (h : Seam left right) (hl : l <:+ left)
    (hr : r <+: right) : Seam l r := by
  have hlast : ∀ c, l.getLast? = some c → left.getLast? = some c := by
    intro c hc
    obtain ⟨front, rfl⟩ := hl
    rw [List.getLast?_append, hc]
    rfl
  have hhead : ∀ c, r.head? = some c → right.head? = some c := by
    intro c hc
    obtain ⟨back, rfl⟩ := hr
    rw [List.head?_append, hc]
    rfl
  constructor
  · intro hc
    obtain ⟨hdouble, hsingle⟩ := h.arrow (hhead _ hc)
    exact ⟨mt (hlast _) hdouble, mt (hlast _) hsingle⟩
  · intro hc
    exact mt (hlast _) (h.slashes (hhead _ hc))

/-- What offends at the front of a line offends there whatever comes behind a seam. -/
theorem Offends.append {c : Char} {rest x : List Char} (h : Offends (c :: rest) 0 c)
    (hx : Seam (c :: rest) x) : Offends (c :: (rest ++ x)) 0 c := by
  cases rest with
  | cons d rest =>
    rw [offends_zero_iff] at h ⊢
    exact h
  | nil =>
    obtain ⟨hblank, -, -, hc⟩ := offends_zero_iff.1 h
    rw [offends_zero_iff, List.nil_append, ← List.head?_eq_getElem?]
    refine ⟨hblank, ?_, ?_, hc⟩
    · rintro hhead rfl
      exact hx.slashes hhead rfl
    · intro hhead
      obtain ⟨hdouble, hsingle⟩ := hx.arrow hhead
      exact ⟨fun h => hdouble (h ▸ rfl), fun h => hsingle (h ▸ rfl)⟩

/-- **What is scanned behind a seam does not depend on what stands before it.** What scanning comes
to may be looked at in any way `f` for which more tokens at the front make no difference. -/
theorem scan_append_congr {β : Type} {f : Except (Char × Nat) (List (Token × Nat)) → β}
    (hf : ∀ (tokens : List (Token × Nat)) a b, f a = f b →
      f ((tokens ++ ·) <$> a) = f ((tokens ++ ·) <$> b))
    {l x y : List Char} (hx : Seam l x) (hy : Seam l y)
    (h : ∀ before, f (scan (before + 1) x) = f (scan (before + 1) y)) (before : Nat) :
    f (scan (before + 1) (l ++ x)) = f (scan (before + 1) (l ++ y)) := by
  induction l using line_induction generalizing before with
  | nil => exact h before
  | comment rest => simp only [List.cons_append, scan]
  | piece p rest ih =>
    have hrest : rest <:+ p.spelling ++ rest := List.suffix_append _ _
    rw [List.append_assoc, List.append_assoc, scan_piece, scan_piece]
    exact hf _ _ _ (ih (hx.mono hrest List.prefix_rfl) (hy.mono hrest List.prefix_rfl) _)
  | offence c rest hc =>
    rw [List.cons_append, List.cons_append, scan_of_offends (hc.append hx),
      scan_of_offends (hc.append hy)]

/-- Scanning goes on behind a seam, unless there is a comment before it. -/
theorem scan_append {l x : List Char} (hx : Seam l x) (hl : ∀ i, ¬ CommentAt l i) (before : Nat) :
    scan (before + 1) (l ++ x) = scan (before + 1) l >>= fun tokens =>
      (tokens ++ ·) <$> scan (before + l.length + 1) x := by
  induction l using line_induction generalizing before with
  | nil =>
    rw [List.nil_append, scan, List.length_nil, Nat.add_zero]
    cases scan (before + 1) x <;> rfl
  | comment rest => exact absurd ⟨rest, rfl⟩ (hl 0)
  | piece p rest ih =>
    have hrest : rest <:+ p.spelling ++ rest := List.suffix_append _ _
    have hcode : ∀ i, ¬ CommentAt rest i := fun i hat =>
      hl _ ((commentAt_append p.slash_not_mem_spelling rest _).2 ⟨i, rfl, hat⟩)
    rw [List.append_assoc, scan_piece, scan_piece, ih (hx.mono hrest List.prefix_rfl) hcode,
      List.length_append, ← Nat.add_assoc]
    cases scan (before + p.spelling.length + 1) rest with
    | error offence => rfl
    | ok tokens =>
      cases scan (before + p.spelling.length + rest.length + 1) x with
      | error offence => rfl
      | ok more => simp [bind, Except.bind]
  | offence c rest hc =>
    rw [List.cons_append, scan_of_offends (hc.append hx), scan_of_offends hc]
    rfl

/-- No piece begins with the second character of an arrow or with a slash. -/
theorem Seam.piece (l : List Char) (p : Piece) (r : List Char) : Seam l (p.spelling ++ r) := by
  obtain ⟨c, rest, hp⟩ := List.exists_cons_of_ne_nil p.spelling_ne_nil
  have hc : c ≠ '>' ∧ c ≠ '/' := by
    rcases p.spelling_cases with ⟨d, hd, hd'⟩ | hd | hd <;> rw [hd] at hp <;> cases hp
    · constructor <;> rintro rfl <;> revert hd' <;> decide
    · decide
    · decide
  rw [hp]
  constructor <;> rintro ⟨⟩
  · exact absurd rfl hc.1
  · exact absurd rfl hc.2

/-- A blank at a seam is not seen, but for the columns. -/
theorem alike_blank {p : Piece} (hp : p.token? = none) {l r : List Char} (h : Seam l r) :
    Alike (l ++ r) (l ++ (p.spelling ++ r)) := by
  refine scan_append_congr ?_ h (.piece l p r) ?_ 0
  · intro tokens a b hab
    rw [unplaced_map, unplaced_map, hab]
  · intro before
    rw [scan_piece, unplaced_map, hp, unplaced_scan r before (before + p.spelling.length)]
    cases unplaced (scan (before + p.spelling.length + 1) r) <;> rfl

/-- Pieces that are the same token and have the same length are scanned alike. -/
theorem same_of_token {p q : Piece} (htoken : p.token? = q.token?)
    (hlength : p.spelling.length = q.spelling.length) (l r : List Char) :
    Same (l ++ (p.spelling ++ r)) (l ++ (q.spelling ++ r)) := by
  refine ⟨?_, by simp [hlength]⟩
  refine scan_append_congr (f := id) (fun _ _ _ => congrArg _) (.piece l p r) (.piece l q r) ?_ 0
  intro before
  rw [scan_piece, scan_piece, htoken, hlength]

/-! ### The lines of a changed text -/

/-- A line without the carriage return at its end. -/
def trimmed (raw : List Char) : List Char :=
  if raw.getLast? = some '\r' then raw.dropLast else raw

theorem lines_ofList (text : List Char) :
    lines (String.ofList text) = (text.splitOn '\n').map trimmed := by
  rw [lines, String.toList_ofList]
  rfl

theorem isPrefix_trimmed (raw : List Char) : trimmed raw <+: raw := by
  unfold trimmed
  split_ifs
  · exact List.dropLast_prefix raw
  · exact List.prefix_rfl

theorem trimmed_concat (line : List Char) : trimmed (line ++ ['\r']) = line := by
  simp [trimmed]

/-- Only the end of a line is trimmed. -/
theorem trimmed_append {l : List Char} (h : l.getLast? ≠ some '\r') (r : List Char) :
    trimmed (l ++ r) = l ++ trimmed r := by
  rcases List.eq_nil_or_concat' r with rfl | ⟨front, c, rfl⟩
  · simp [trimmed, h]
  · unfold trimmed
    rw [← List.append_assoc, List.getLast?_concat, List.getLast?_concat]
    split_ifs
    · rw [List.dropLast_concat, List.dropLast_concat]
    · rw [List.append_assoc]

theorem splitOn_eq_concat {α : Type} [DecidableEq α] (a : α) (text : List α) :
    ∃ before last, last <:+ text ∧ text.splitOn a = before ++ [last] := by
  obtain ⟨before, last, hsplit⟩ :=
    (List.eq_nil_or_concat' (text.splitOn a)).resolve_left (List.splitOn_ne_nil a text)
  refine ⟨before, last, ?_, hsplit⟩
  have htext := intercalate_append [a] before [] [] last
  rw [List.nil_append, List.intercalate_singleton, ← hsplit, List.intercalate_splitOn] at htext
  exact ⟨_, htext.symm⟩

theorem splitOn_eq_cons {α : Type} [DecidableEq α] (a : α) (text : List α) :
    ∃ first after, first <+: text ∧ text.splitOn a = first :: after := by
  obtain ⟨first, after, hsplit⟩ := List.exists_cons_of_ne_nil (List.splitOn_ne_nil a text)
  refine ⟨first, after, ?_, hsplit⟩
  have htext := intercalate_append [a] [] after first []
  rw [List.append_nil, List.nil_append, List.nil_append, List.intercalate_singleton, ← hsplit,
    List.intercalate_splitOn] at htext
  exact ⟨_, htext.symm⟩

/-- What is put into a text comes to stand in one of its lines. -/
theorem exists_line (left right : List Char) :
    ∃ before l r after, l <:+ left ∧ r <+: right ∧
      ∀ mid, '\n' ∉ mid → (left ++ mid).getLast? ≠ some '\r' →
        lines (String.ofList (left ++ (mid ++ right))) = before ++ (l ++ (mid ++ r)) :: after := by
  obtain ⟨before, l, hl, hleft⟩ := splitOn_eq_concat '\n' left
  obtain ⟨r, after, hr, hright⟩ := splitOn_eq_cons '\n' right
  refine ⟨before.map trimmed, l, trimmed r, after.map trimmed, hl,
    (isPrefix_trimmed r).trans hr, ?_⟩
  intro mid hmid hlast
  have hfront : (left ++ mid).splitOn '\n' = before ++ [l ++ mid] :=
    splitOn_append hleft (splitOn_of_not_mem hmid)
  have hend : (l ++ mid).getLast? ≠ some '\r' := by
    obtain ⟨front, rfl⟩ := hl
    rw [List.append_assoc, List.getLast?_append] at hlast
    exact fun h => hlast (by rw [h]; rfl)
  rw [← List.append_assoc, lines_ofList, splitOn_append hfront hright, List.map_append,
    List.map_cons, trimmed_append hend, List.append_assoc]

theorem forall₂_line {R : List Char → List Char → Prop} (hrefl : ∀ line, R line line)
    {line line' : List Char} (h : R line line') (before after : List (List Char)) :
    List.Forall₂ R (before ++ line :: after) (before ++ line' :: after) := by
  have hsame : ∀ lines, List.Forall₂ R lines lines := fun lines =>
    List.forall₂_same.2 fun line _ => hrefl line
  exact List.rel_append (hsame before) (.cons h (hsame after))

end Lexeme

end PhraseGrammar
