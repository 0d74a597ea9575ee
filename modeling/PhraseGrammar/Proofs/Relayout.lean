import PhraseGrammar.Proofs.Comments

/-!
# Texts that are laid out differently

A text can be changed in many ways without a change of what it says: blanks come in between,
comments go, the arrow and the mark for the empty word are written in their other way, and lines end
in carriage returns.

* `returned`: a text with a carriage return before each line feed;
* `byLine_blank`, `ofText_of_token`, `lines_returned`: what a blank, another spelling and new
  carriage returns come to. For comments see `Comment.byLine_eq_iff`.

Main statement: `layout_insignificant`. A comment behind a carriage return is the one that cannot
always be taken away (`whole_ne_without`).
-/

namespace PhraseGrammar

open Lexeme

/-! ### Carriage returns -/

/-- A text with a carriage return before each line feed. -/
def returned (text : List Char) : List Char :=
  text.flatMap fun c => if c = '\n' then ['\r', '\n'] else [c]

theorem returned_of_not_mem {line : List Char} (h : '\n' ∉ line) : returned line = line := by
  induction line with
  | nil => rfl
  | cons c line ih =>
    rw [List.mem_cons, not_or] at h
    rw [returned, List.flatMap_cons, if_neg (Ne.symm h.1), ← returned, ih h.2]
    rfl

/-- The new carriage returns are trimmed away again. -/
theorem trimmed_returned {raws : List (List Char)} (hne : raws ≠ [])
    (hraws : ∀ raw ∈ raws, '\n' ∉ raw) (h : ¬ ['\r', '\n'] <:+: ['\n'].intercalate raws) :
    ((returned (['\n'].intercalate raws)).splitOn '\n').map trimmed = raws.map trimmed := by
  induction raws with
  | nil => exact absurd rfl hne
  | cons raw rest ih =>
    rw [List.forall_mem_cons] at hraws
    by_cases hrest : rest = []
    · rw [hrest, List.intercalate_singleton, returned_of_not_mem hraws.1,
        splitOn_of_not_mem hraws.1]
    · rw [List.intercalate_cons_of_ne_nil hrest, List.append_assoc] at h ⊢
      have hmore : ¬ ['\r', '\n'] <:+: ['\n'].intercalate rest := fun hmem =>
        h (hmem.trans ⟨raw ++ ['\n'], [], by simp⟩)
      have hraw : trimmed raw = raw := by
        refine if_neg fun hlast => h ?_
        obtain ⟨front, rfl⟩ := List.getLast?_eq_some_iff.1 hlast
        exact ⟨front, ['\n'].intercalate rest, by simp⟩
      have hreturn : '\n' ∉ raw ++ ['\r'] := by simp [hraws.1]
      have hreturned : returned (raw ++ (['\n'] ++ ['\n'].intercalate rest)) =
          (raw ++ ['\r']) ++ '\n' :: returned (['\n'].intercalate rest) := by
        conv_rhs => rw [← returned_of_not_mem hraws.1]
        simp [returned]
      rw [hreturned, splitOn_first hreturn, List.map_cons, List.map_cons, trimmed_concat, hraw,
        ih hrest hraws.2 hmore]

theorem lines_returned {text : List Char} (h : ¬ ['\r', '\n'] <:+: text) :
    lines (String.ofList (returned text)) = lines (String.ofList text) := by
  have htext : ['\n'].intercalate (text.splitOn '\n') = text := List.intercalate_splitOn _
  rw [lines_ofList, lines_ofList]
  conv_lhs => rw [← htext]
  exact trimmed_returned (List.splitOn_ne_nil _ _) (not_mem_of_mem_splitOn _ _) (htext.symm ▸ h)

/-! ### Layout -/

namespace Grammar

/-- A blank that comes in at a gap is not seen. -/
theorem byLine_blank (file : Path) {p : Piece} (hp : p.token? = none) {left right : List Char}
    (h : Gap left right) :
    byLine (ofText file (String.ofList (left ++ right))) =
      byLine (ofText file (String.ofList (left ++ (p.spelling ++ right)))) := by
  obtain ⟨before, l, r, after, hl, hr, hlines⟩ := exists_line left right
  have hbare := hlines [] (by simp) (by simpa using h.carriageReturn)
  have hblank := hlines p.spelling p.lineFeed_not_mem (p.getLast?_append_ne left)
  have hline : Alike (l ++ r) (l ++ (p.spelling ++ r)) := alike_blank hp (h.toSeam.mono hl hr)
  apply byLine_ofText_congr
  rw [List.nil_append, List.nil_append] at hbare
  rw [hbare, hblank]
  exact forall₂_line (R := Alike) (fun _ => rfl) hline before after

/-- Pieces that are the same token and have the same length stand for each other. -/
theorem ofText_of_token (file : Path) {p q : Piece} (htoken : p.token? = q.token?)
    (hlength : p.spelling.length = q.spelling.length) (left right : List Char) :
    ofText file (String.ofList (left ++ (p.spelling ++ right))) =
      ofText file (String.ofList (left ++ (q.spelling ++ right))) := by
  obtain ⟨before, l, r, after, -, -, hlines⟩ := exists_line left right
  apply ofText_congr
  rw [hlines p.spelling p.lineFeed_not_mem (p.getLast?_append_ne left),
    hlines q.spelling q.lineFeed_not_mem (q.getLast?_append_ne left)]
  exact forall₂_line (fun _ => ⟨rfl, rfl⟩) (same_of_token htoken hlength l r) before after

/-- **Layout does not change what a text says.** The same grammar is read, or the same error in the
same line, when a blank comes in at a gap or a comment is taken away; but for a comment behind a
carriage return that gets to the end of the line and was the first to offend. An error stays even in
its column when an arrow or a mark for the empty word is written in its other way, and when every
line feed gets a carriage return. -/
theorem layout_insignificant (file : Path) :
    (∀ (left right : List Char) (b : Char), b = ' ' ∨ b = '\t' → Gap left right →
      byLine (ofText file (String.ofList (left ++ right))) =
        byLine (ofText file (String.ofList (left ++ b :: right)))) ∧
    (∀ c : Comment, byLine (ofText file c.whole) = byLine (ofText file c.without) ↔
      c.Loose ∨ c.Offended) ∧
    (∀ left right : List Char,
      ofText file (String.ofList (left ++ '=' :: '>' :: right)) =
        ofText file (String.ofList (left ++ '-' :: '>' :: right))) ∧
    (∀ left right : List Char,
      ofText file (String.ofList (left ++ 'E' :: right)) =
        ofText file (String.ofList (left ++ 'ε' :: right))) ∧
    ∀ text : List Char, ¬ ['\r', '\n'] <:+: text →
      ofText file (String.ofList text) = ofText file (String.ofList (returned text)) := by
  refine ⟨?_, ?_, ?_, ?_, ?_⟩
  · intro left right b hb h
    obtain ⟨p, hp, hspelling⟩ : ∃ p : Piece, p.token? = none ∧ p.spelling = [b] := by
      rcases hb with rfl | rfl
      · exact ⟨.space, rfl, rfl⟩
      · exact ⟨.tab, rfl, rfl⟩
    have hblank := byLine_blank file hp h
    rwa [hspelling, List.singleton_append] at hblank
  · intro c
    exact c.byLine_eq_iff file
  · exact ofText_of_token file (p := .doubleArrow) (q := .arrow) rfl rfl
  · exact ofText_of_token file (p := .capitalE) (q := .epsilon) rfl rfl
  · intro text h
    rw [ofText, ofText, Lexeme.ofText, Lexeme.ofText, lines_returned h]

theorem layout_insignificant_remarked :
    ofText ⟨"a.lang"⟩ "S=>a|>" = .error ⟨⟨⟨"a.lang"⟩, 1, 6⟩, .unknownCharacter '>'⟩ ∧
      byLine (ofText ⟨"a.lang"⟩ "S=>a|>") = byLine (ofText ⟨"a.lang"⟩ "S=>a|\t>") ∧
      Comment.remarked.Loose ∧
      byLine (ofText ⟨"a.lang"⟩ "S=>A\nA->b\r// /\r\n") =
        byLine (ofText ⟨"a.lang"⟩ "S=>A\nA->b\r\r\n") ∧
      ofText ⟨"a.lang"⟩ "S=>a\n" = ofText ⟨"a.lang"⟩ "S=>a\r\n" := by
  have hgap : Gap ['S', '=', '>', 'a', '|'] ['>'] := ⟨⟨by decide, by decide⟩, by decide⟩
  have hloose : Comment.remarked.Loose := fun _ => rfl
  have hwhole : Comment.remarked.whole = "S=>A\nA->b\r// /\r\n" := rfl
  have hwithout : Comment.remarked.without = "S=>A\nA->b\r\r\n" := rfl
  have hbare : String.ofList (['S', '=', '>', 'a', '|'] ++ ['>']) = "S=>a|>" := rfl
  have hblank : String.ofList (['S', '=', '>', 'a', '|'] ++ ['\t', '>']) = "S=>a|\t>" := rfl
  have hplain : String.ofList ['S', '=', '>', 'a', '\n'] = "S=>a\n" := rfl
  have hreturned : String.ofList (returned ['S', '=', '>', 'a', '\n']) = "S=>a\r\n" := rfl
  refine ⟨rfl, ?_, hloose, ?_, ?_⟩
  · rw [← hbare, ← hblank]
    exact (layout_insignificant ⟨"a.lang"⟩).1 _ _ '\t' (.inr rfl) hgap
  · rw [← hwhole, ← hwithout]
    exact ((layout_insignificant ⟨"a.lang"⟩).2.1 _).2 (.inl hloose)
  · rw [← hplain, ← hreturned]
    exact (layout_insignificant ⟨"a.lang"⟩).2.2.2.2 _ (by decide)

/-- A carriage return that stood before a comment can become part of the end of the line, where it
is no unknown character any more. -/
theorem whole_ne_without :
    Comment.behindReturn.whole = "S=>a\r//c\n" ∧ Comment.behindReturn.without = "S=>a\r\n" ∧
      ofText ⟨"a.lang"⟩ "S=>a\r//c\n" =
        .error ⟨⟨⟨"a.lang"⟩, 1, 5⟩, .unknownCharacter '\r'⟩ ∧
      ofText ⟨"a.lang"⟩ "S=>a\r\n" = .ok ⟨[⟨[.start], [[.terminal 'a']]⟩]⟩ ∧
      byLine (ofText ⟨"a.lang"⟩ Comment.behindReturn.whole) ≠
        byLine (ofText ⟨"a.lang"⟩ Comment.behindReturn.without) := by
  refine ⟨rfl, rfl, rfl, rfl, ?_⟩
  intro h
  cases h

end Grammar

end PhraseGrammar
