import PhraseGrammar.Proofs.Rejection
import PhraseGrammar.Proofs.Seams

/-!
# Texts without their comments

A comment can be taken away, unless a carriage return stands directly before it: at the end of the
line this would not be an unknown character any more.

* `Comment`: a comment of a text, with `Comment.whole` and `Comment.without`;
* `Comment.Loose`: no carriage return gets to the end of the line;
* `Comment.Offended`: something offends before that carriage return.

Main statement: `Comment.byLine_eq_iff`.
-/

namespace PhraseGrammar

namespace Lexeme

/-- Code does not end in a slash where a comment begins behind it. -/
theorem IsCode.getLast?_ne {code remark : List Char}
    (h : IsCode (code ++ '/' :: '/' :: remark) code) : code.getLast? ≠ some '/' := by
  intro hlast
  obtain ⟨front, rfl⟩ := List.getLast?_eq_some_iff.1 hlast
  -- the comment would begin one place earlier
  refine h.no_comment front.length (by simp) ?_
  rw [CommentAt, List.append_assoc, List.drop_left]
  exact ⟨'/' :: remark, rfl⟩

theorem isCode_of_not_mem {code : List Char} (h : '/' ∉ code) (remark : List Char) :
    IsCode (code ++ '/' :: '/' :: remark) code where
  front := List.prefix_append _ _
  no_comment := by
    intro i hi hat
    obtain ⟨k, rfl, -⟩ := (commentAt_append h _ i).1 hat
    omega
  whole_or_comment := by
    refine .inr ((commentAt_append h _ _).2 ⟨0, rfl, ?_⟩)
    exact ⟨remark, rfl⟩

/-- A comment is not scanned. -/
theorem scan_comment {code : List Char} (h : code.getLast? ≠ some '/') (remark : List Char) :
    scan 1 (code ++ '/' :: '/' :: remark) = scan 1 code := by
  have hseam : Seam code ('/' :: '/' :: remark) := ⟨nofun, fun _ => h⟩
  have hnil : Seam code [] := ⟨nofun, nofun⟩
  have hscan := scan_append_congr (f := id) (fun _ _ _ => congrArg _) hseam hnil
    (by intro before; rw [scan, scan]) 0
  rwa [List.append_nil] at hscan

end Lexeme

open Lexeme

/-! ### Comments -/

/-- A comment of a text: the first one in its line, up to the end of the line. -/
structure Comment where
  /-- The lines before the one that the comment stands in. -/
  before : List Char
  /-- What stands before the comment in its line. -/
  code : List Char
  /-- What the comment says. -/
  remark : List Char
  /-- The end of the line and what follows it. -/
  after : List Char
  before_ends : before = [] ∨ before.getLast? = some '\n'
  in_line : '\n' ∉ code ∧ '\n' ∉ remark
  first : IsCode (code ++ '/' :: '/' :: remark) code
  after_begins : after = [] ∨ after = ['\r'] ∨ ['\n'] <+: after ∨ ['\r', '\n'] <+: after

namespace Comment

variable (c : Comment)

/-- The text that the comment stands in. -/
def whole : String := String.ofList (c.before ++ (c.code ++ '/' :: '/' :: c.remark) ++ c.after)

/-- The text when the comment is taken away. -/
def without : String := String.ofList (c.before ++ c.code ++ c.after)

/-- No carriage return that was part of the code comes to stand at the end of the line when the
comment is taken away. -/
def Loose : Prop := c.code.getLast? = some '\r' → c.after.head? = some '\r'

/-- What is left of the line behind the comment. -/
theorem splitOn_after :
    ∃ stub lines, c.after.splitOn '\n' = stub :: lines ∧
      (stub = ['\r'] ∧ c.after.head? = some '\r' ∨ stub = [] ∧ c.after.head? ≠ some '\r') := by
  rcases c.after_begins with h | h | ⟨rest, h⟩ | ⟨rest, h⟩
  · rw [h]
    exact ⟨[], [], rfl, .inr ⟨rfl, nofun⟩⟩
  · rw [h]
    exact ⟨['\r'], [], splitOn_of_not_mem (by decide), .inl ⟨rfl, rfl⟩⟩
  · rw [← h]
    exact ⟨[], _, splitOn_cons_self '\n' rest, .inr ⟨rfl, by simp⟩⟩
  · have hreturn : '\n' ∉ ['\r'] := by decide
    rw [← h]
    exact ⟨['\r'], _, splitOn_first hreturn rest, .inl ⟨rfl, rfl⟩⟩

/-- The lines of the text, with any other line in place of the one that the comment stands in. -/
theorem exists_lines :
    ∃ before stub after, lines (String.ofList c.before) = before ++ [[]] ∧
      (stub = ['\r'] ∧ c.after.head? = some '\r' ∨ stub = [] ∧ c.after.head? ≠ some '\r') ∧
      ∀ line, '\n' ∉ line → lines (String.ofList (c.before ++ line ++ c.after)) =
        before ++ trimmed (line ++ stub) :: after := by
  obtain ⟨before, hbefore⟩ : ∃ lines, c.before.splitOn '\n' = lines ++ [[]] := by
    rcases c.before_ends with h | h
    · rw [h]
      exact ⟨[], rfl⟩
    · obtain ⟨front, h⟩ := List.getLast?_eq_some_iff.1 h
      rw [h, splitOn_last (by simp)]
      exact ⟨_, rfl⟩
  obtain ⟨stub, after, hafter, hstub⟩ := c.splitOn_after
  refine ⟨before.map trimmed, stub, after.map trimmed, ?_, hstub, ?_⟩
  · rw [lines_ofList, hbefore, List.map_append]
    rfl
  · intro line hline
    have hfront := splitOn_append hbefore (splitOn_of_not_mem hline)
    rw [lines_ofList, splitOn_append hfront hafter, List.map_append, List.map_cons,
      List.nil_append]

theorem lineFeed_not_mem_whole : '\n' ∉ c.code ++ '/' :: '/' :: c.remark := by
  simp [c.in_line.1, c.in_line.2]

/-- The lines of both texts are the same but for one, of which the same is scanned. -/
theorem alike_of_loose (h : c.Loose) : List.Forall₂ Alike (lines c.whole) (lines c.without) := by
  obtain ⟨before, stub, after, -, hstub, hlines⟩ := c.exists_lines
  have hslash := c.first.getLast?_ne
  have hscan : scan 1 (trimmed ((c.code ++ '/' :: '/' :: c.remark) ++ stub)) =
      scan 1 (trimmed (c.code ++ stub)) := by
    rcases hstub with ⟨rfl, -⟩ | ⟨rfl, hhead⟩
    · rw [trimmed_concat, trimmed_concat, scan_comment hslash]
    · have hreturn : c.code.getLast? ≠ some '\r' := mt h hhead
      have hbare : trimmed c.code = c.code := if_neg hreturn
      have hremark : trimmed ('/' :: '/' :: c.remark) = '/' :: '/' :: trimmed c.remark :=
        trimmed_append (l := ['/', '/']) (by decide) c.remark
      rw [List.append_nil, List.append_nil, trimmed_append hreturn, hremark, hbare,
        scan_comment hslash]
  rw [whole, without, hlines _ c.lineFeed_not_mem_whole, hlines _ c.in_line.1]
  exact forall₂_line (R := Alike) (fun _ => rfl) (congrArg unplaced hscan) _ _

/-! ### A carriage return before the comment -/

/-- Something offends before the last character in front of the comment. -/
def Offended : Prop :=
  (∃ line ∈ lines (String.ofList c.before), ∃ i d, Offends line i d) ∨
    ∃ i d, Offends c.code.dropLast i d

/-- The lines of both texts if the comment is not loose. -/
theorem exists_lines_of_not_loose (h : ¬ c.Loose) :
    ∃ before front rest after, c.code = front ++ ['\r'] ∧
      lines (String.ofList c.before) = before ++ [[]] ∧
      lines c.whole = before ++ (front ++ '\r' :: rest) :: after ∧
      lines c.without = before ++ front :: after := by
  obtain ⟨hlast, hhead⟩ := Classical.not_imp.1 h
  obtain ⟨front, hcode⟩ := List.getLast?_eq_some_iff.1 hlast
  obtain ⟨before, stub, after, hbefore, hstub, hlines⟩ := c.exists_lines
  obtain ⟨rfl, -⟩ := hstub.resolve_left fun hstub => hhead hstub.2
  have hremark : trimmed ((c.code ++ '/' :: '/' :: c.remark) ++ []) =
      front ++ '\r' :: '/' :: '/' :: trimmed c.remark := by
    have hslashes : (c.code ++ ['/', '/']).getLast? ≠ some '\r' := by simp
    have htrimmed := trimmed_append hslashes c.remark
    simpa [hcode] using htrimmed
  refine ⟨before, front, '/' :: '/' :: trimmed c.remark, after, hcode, hbefore, ?_, ?_⟩
  · rw [whole, hlines _ c.lineFeed_not_mem_whole, hremark]
  · rw [without, hlines _ c.in_line.1, List.append_nil, hcode, trimmed_concat]

/-- Before a comment there is no other one. -/
theorem not_commentAt {front : List Char} (h : front <+: c.code) (i : Nat) :
    ¬ CommentAt front i := by
  rintro ⟨behind, hbehind⟩
  obtain ⟨rest, hrest⟩ := h
  have hlt : i < front.length := by
    by_contra hle
    rw [List.drop_eq_nil_of_le (by omega)] at hbehind
    cases hbehind
  refine c.first.no_comment i ?_ ⟨behind ++ rest ++ '/' :: '/' :: c.remark, ?_⟩
  · rw [← hrest, List.length_append]
    omega
  · rw [← hrest, List.append_assoc front, List.drop_append_of_le_length (Nat.le_of_lt hlt),
      ← hbehind]
    simp

/-- Scanning stops at the carriage return, or before it at the same place in both texts. -/
theorem scan_return {front : List Char} (h : front <+: c.code) (rest : List Char) :
    scan 1 (front ++ '\r' :: rest) =
      scan 1 front >>= fun _ => .error ('\r', front.length + 1) := by
  have hseam : Seam front ('\r' :: rest) := ⟨by rintro ⟨⟩, by rintro ⟨⟩⟩
  have hreturn : Offends ('\r' :: rest) 0 '\r' :=
    offends_zero_iff.2 ⟨by decide, fun _ => by decide, fun _ => by decide, rfl⟩
  rw [scan_append hseam (c.not_commentAt h) 0, scan_of_offends hreturn]
  simp only [Nat.zero_add]
  rfl

end Comment

namespace Lexeme

/-! ### Errors without columns -/

/-- Where something offends, something is the first to offend. -/
theorem Offends.exists_firstOffence {line : List Char} {i : Nat} {d : Char} (h : Offends line i d) :
    ∃ j c, FirstOffence line j c := by
  rcases line_cases line with ⟨ps, hps⟩ | hfirst
  · exact absurd h (hps.not_offends i d)
  · exact hfirst

/-- Lines behind the first offence do not matter. -/
theorem exists_firstOffenceIn {before : List (List Char)}
    (h : ∃ line ∈ before, ∃ i d, Offends line i d) :
    ∃ number i c, ∀ after, FirstOffenceIn (before ++ after) number i c := by
  obtain ⟨line, hline, i, d, hoffends⟩ := h
  rcases lines_cases before with ⟨rows, hrows⟩ | ⟨number, j, c, hfirst⟩
  · obtain ⟨ps, hps⟩ := exists_spells_of_mem hrows line hline
    exact absurd hoffends (hps.not_offends i d)
  · obtain ⟨front, other, back, rfl, rfl, hfront, hother⟩ := hfirst
    refine ⟨_, j, c, fun after => ⟨front, other, back ++ after, ?_, rfl, hfront, hother⟩⟩
    rw [List.append_assoc, List.cons_append]

end Lexeme

namespace Grammar

/-- Tokens are not unknown characters. -/
theorem ofLexemes_ne_unknownCharacter {lexemes : List Lexeme} {e : Located CompileError}
    (h : ofLexemes lexemes = .error e) (c : Char) : e.error ≠ .unknownCharacter c := by
  rcases ofLexemes_error_cases h with
    ⟨front, lexeme, back, rules, held, -, -, -, hnext, -⟩ | ⟨rules, held, -, -, rfl⟩
  · rcases Reading.next_eq_error hnext with hcause | ⟨hcause, -⟩ <;> rw [hcause] <;> nofun
  · nofun

theorem ofText_of_firstOffenceIn {text : String} {number i : Nat} {c : Char}
    (h : FirstOffenceIn (lines text) number i c) (file : Path) :
    ofText file text = .error ⟨⟨file, number, i + 1⟩, .unknownCharacter c⟩ := by
  rw [ofText, Lexeme.ofText_of_firstOffenceIn h]
  rfl

/-- An unknown character is reported in the line that it stands in. -/
theorem exists_firstOffenceIn_of_byLine {file : Path} {text : String} {number : Nat} {c : Char}
    (h : byLine (ofText file text) = .error ⟨⟨file, number, 0⟩, .unknownCharacter c⟩) :
    ∃ i, FirstOffenceIn (lines text) number i c := by
  rcases lines_cases (lines text) with ⟨rows, hrows⟩ | ⟨number', i, c', hfirst⟩
  · -- the text is made of tokens
    exfalso
    have hlexemes := Lexeme.ofText_of_spells hrows file
    have hread : ofText file text =
        ofLexemes (ofPage file rows ((lines text).getLastD []).length) := by
      rw [ofText, hlexemes]
      rfl
    rw [hread] at h
    cases hresult : ofLexemes (ofPage file rows ((lines text).getLastD []).length) with
    | ok g =>
      rw [hresult] at h
      cases h
    | error e =>
      rw [hresult] at h
      injection h with h
      exact ofLexemes_ne_unknownCharacter hresult c (congrArg Located.error h)
  · rw [ofText_of_firstOffenceIn hfirst] at h
    cases h
    exact ⟨i, hfirst⟩

end Grammar

namespace Comment

variable (c : Comment)

/-- What offends before the carriage return offends in both texts. -/
theorem byLine_eq_of_offended (file : Path) (hloose : ¬ c.Loose) (h : c.Offended) :
    byLine (Grammar.ofText file c.whole) = byLine (Grammar.ofText file c.without) := by
  obtain ⟨before, front, rest, after, hcode, hbefore, hwhole, hwithout⟩ :=
    c.exists_lines_of_not_loose hloose
  rcases h with ⟨line, hline, i, d, hoffends⟩ | ⟨i, d, hoffends⟩
  · have hmem : line ∈ before := by
      rw [hbefore, List.mem_append, List.mem_singleton] at hline
      refine hline.resolve_right ?_
      rintro rfl
      cases hoffends.here
    obtain ⟨number, j, e, hfirst⟩ := exists_firstOffenceIn ⟨line, hmem, i, d, hoffends⟩
    rw [Grammar.ofText_of_firstOffenceIn (hwhole ▸ hfirst _),
      Grammar.ofText_of_firstOffenceIn (hwithout ▸ hfirst _)]
  · rw [hcode, List.dropLast_concat] at hoffends
    obtain ⟨j, e, hfirst⟩ := hoffends.exists_firstOffence
    have hscan : scan 1 (front ++ '\r' :: rest) = scan 1 front := by
      rw [c.scan_return (hcode ▸ List.prefix_append _ _), hfirst.scan_eq 0]
      rfl
    apply Grammar.byLine_ofText_congr
    rw [hwhole, hwithout]
    exact forall₂_line (R := Alike) (fun _ => rfl) (congrArg unplaced hscan) _ _

/-- If nothing offends before the carriage return, it is the first to offend as long as the comment
stands behind it, and it is gone with the comment. -/
theorem byLine_ne_of_not_offended (file : Path) (hloose : ¬ c.Loose) (h : ¬ c.Offended) :
    byLine (Grammar.ofText file c.whole) ≠ byLine (Grammar.ofText file c.without) := by
  obtain ⟨before, front, rest, after, hcode, hbefore, hwhole, hwithout⟩ :=
    c.exists_lines_of_not_loose hloose
  obtain ⟨hlines, hfront⟩ := not_or.1 h
  rw [hcode, List.dropLast_concat] at hfront
  push Not at hlines hfront
  have hclean : ∀ l ∈ before, ∀ j d, ¬ Offends l j d := by
    intro l hl
    exact hlines l (by rw [hbefore]; exact List.mem_append_left _ hl)
  have hscan : scan 1 (front ++ '\r' :: rest) = .error ('\r', front.length + 1) := by
    obtain ⟨ps, hps⟩ := exists_spells_of_forall_not_offends hfront
    rw [c.scan_return (hcode ▸ List.prefix_append _ _), hps.scan_eq 0]
    rfl
  have hfirst : FirstOffence (front ++ '\r' :: rest) front.length '\r' := by
    rcases line_cases (front ++ '\r' :: rest) with ⟨ps, hps⟩ | ⟨i, d, hfirst⟩
    · cases hscan.symm.trans (hps.scan_eq 0)
    · have heq := hscan.symm.trans (hfirst.scan_eq 0)
      rw [Nat.zero_add] at heq
      cases heq
      exact hfirst
  have hfirstIn : FirstOffenceIn (lines c.whole) (before.length + 1) front.length '\r' :=
    ⟨before, _, after, hwhole, rfl, hclean, hfirst⟩
  intro heq
  rw [Grammar.ofText_of_firstOffenceIn hfirstIn] at heq
  have hreport : byLine (Grammar.ofText file c.without) =
      .error ⟨⟨file, before.length + 1, 0⟩, .unknownCharacter '\r'⟩ := heq.symm
  obtain ⟨i, before', line, after', hlines', hnumber, -, hline⟩ :=
    Grammar.exists_firstOffenceIn_of_byLine hreport
  -- the error would be in the same line as before, but nothing offends there any more
  rw [hwithout] at hlines'
  obtain ⟨-, hrest⟩ := List.append_inj hlines' (by omega)
  cases hrest
  exact hfront _ _ hline.offends

/-- **When a comment can be taken away.** The same is read without it, exactly if no carriage return
gets to the end of the line by that, or something has offended before. -/
theorem byLine_eq_iff (file : Path) :
    byLine (Grammar.ofText file c.whole) = byLine (Grammar.ofText file c.without) ↔
      c.Loose ∨ c.Offended := by
  by_cases hloose : c.Loose
  · exact iff_of_true (Grammar.byLine_ofText_congr file (c.alike_of_loose hloose)) (.inl hloose)
  · by_cases hoffended : c.Offended
    · exact iff_of_true (c.byLine_eq_of_offended file hloose hoffended) (.inr hoffended)
    · refine iff_of_false (c.byLine_ne_of_not_offended file hloose hoffended) ?_
      rintro (h | h)
      · exact hloose h
      · exact hoffended h

/-- A comment behind a carriage return, in a line that ends in another one. -/
def remarked : Comment where
  before := ['S', '=', '>', 'A', '\n']
  code := ['A', '-', '>', 'b', '\r']
  remark := [' ', '/']
  after := ['\r', '\n']
  before_ends := .inr rfl
  in_line := by decide
  first := isCode_of_not_mem (by decide) _
  after_begins := .inr (.inr (.inr List.prefix_rfl))

/-- A comment behind a carriage return, in a line that ends in a line feed. -/
def behindReturn : Comment where
  before := []
  code := ['S', '=', '>', 'a', '\r']
  remark := ['c']
  after := ['\n']
  before_ends := .inl rfl
  in_line := by decide
  first := isCode_of_not_mem (by decide) _
  after_begins := .inr (.inr (.inl List.prefix_rfl))

end Comment

end PhraseGrammar
