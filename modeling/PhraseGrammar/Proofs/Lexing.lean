import PhraseGrammar.Proofs.Pieces
import Mathlib.Data.List.Forall2

/-!
# The lexemes of a text

A text is turned into lexemes exactly if all its lines are made of pieces. The lexemes are then
those of the pieces, line by line and each in its place; otherwise the first character that offends
is reported.

* `AreLines`: the lines of a text, said without splitting it (`areLines_lines`);
* `ofPieces`, `lineEnd`, `ofPage`: the lexemes of pieces in their places;
* `FirstOffenceIn`: the first character that offends in several lines.

Main statement: `ofText_eq_iff`.
-/

namespace PhraseGrammar.Lexeme

/-! ### The lines of a text -/

/-- `line` is `raw` without the carriage return at its end, if there is one. -/
def Trims (raw line : List Char) : Prop :=
  raw = line ++ ['\r'] ∨ raw = line ∧ raw.getLast? ≠ some '\r'

/-- The lines of a text are what its line feeds divide, trimmed. -/
def AreLines (text : List Char) (lines : List (List Char)) : Prop :=
  ∃ raws, raws ≠ [] ∧ (∀ raw ∈ raws, '\n' ∉ raw) ∧ ['\n'].intercalate raws = text ∧
    List.Forall₂ Trims raws lines

theorem not_mem_of_mem_splitOn {α : Type} [DecidableEq α] (a : α) (xs : List α) :
    ∀ part ∈ xs.splitOn a, a ∉ part := by
  induction xs with
  | nil => simp
  | cons x xs ih =>
    rw [List.splitOn_cons_eq_if_modifyHead]
    by_cases hx : x = a
    · simpa [hx] using ih
    · -- the first part grows by `x`
      obtain ⟨part, parts, hparts⟩ := List.exists_cons_of_ne_nil (List.splitOn_ne_nil a xs)
      rw [hparts, List.forall_mem_cons] at ih
      rw [hparts, if_neg (by simpa using hx), List.modifyHead_cons, List.forall_mem_cons]
      refine ⟨?_, ih.2⟩
      rw [List.mem_cons]
      rintro (rfl | hmem)
      · exact hx rfl
      · exact ih.1 hmem

theorem intercalate_append {α : Type} (separator : List α) (before after : List (List α))
    (l r : List α) :
    separator.intercalate (before ++ (l ++ r) :: after) =
      separator.intercalate (before ++ [l]) ++ separator.intercalate (r :: after) := by
  induction before with
  | nil => cases after <;> simp [List.intercalate_cons_of_ne_nil]
  | cons part before ih =>
    have hlong : before ++ (l ++ r) :: after ≠ [] := by simp
    have hshort : before ++ [l] ≠ [] := by simp
    rw [List.cons_append, List.cons_append, List.intercalate_cons_of_ne_nil hlong, ih,
      List.intercalate_cons_of_ne_nil hshort]
    simp only [List.append_assoc]

/-- Where two texts are put together, the last part of the one and the first part of the other
become one. -/
theorem splitOn_append {α : Type} [DecidableEq α] {a : α} {xs ys l r : List α}
    {before after : List (List α)} (hxs : xs.splitOn a = before ++ [l])
    (hys : ys.splitOn a = r :: after) : (xs ++ ys).splitOn a = before ++ (l ++ r) :: after := by
  have hfront : ∀ part ∈ before ++ [l], a ∉ part := by
    rw [← hxs]
    exact not_mem_of_mem_splitOn a xs
  have hback : ∀ part ∈ r :: after, a ∉ part := by
    rw [← hys]
    exact not_mem_of_mem_splitOn a ys
  have hparts : [a].intercalate (before ++ (l ++ r) :: after) = xs ++ ys := by
    rw [intercalate_append, ← hxs, ← hys, List.intercalate_splitOn, List.intercalate_splitOn]
  rw [← hparts, List.splitOn_intercalate a ?_ (by simp)]
  intro part hpart
  rcases List.mem_append.1 hpart with hpart | hpart
  · exact hfront part (List.mem_append_left _ hpart)
  · rcases List.mem_cons.1 hpart with rfl | hpart
    · rw [List.mem_append, not_or]
      exact ⟨hfront l (by simp), hback r List.mem_cons_self⟩
    · exact hback part (List.mem_cons_of_mem r hpart)

theorem splitOn_of_not_mem {α : Type} [DecidableEq α] {a : α} {part : List α} (h : a ∉ part) :
    part.splitOn a = [part] := by
  have hpart : ([a].intercalate [part]).splitOn a = [part] :=
    List.splitOn_intercalate a (by simpa using h) (by simp)
  rwa [List.intercalate_singleton] at hpart

theorem splitOn_cons_self {α : Type} [DecidableEq α] (a : α) (rest : List α) :
    (a :: rest).splitOn a = [] :: rest.splitOn a := by
  rw [List.splitOn_cons_eq_if_modifyHead, if_pos (by simp)]

theorem splitOn_first {α : Type} [DecidableEq α] {a : α} {line : List α} (h : a ∉ line)
    (rest : List α) : (line ++ a :: rest).splitOn a = line :: rest.splitOn a := by
  have hline : line.splitOn a = [] ++ [line] := splitOn_of_not_mem h
  rw [splitOn_append hline (splitOn_cons_self a rest), List.append_nil, List.nil_append]

theorem splitOn_last {α : Type} [DecidableEq α] {a : α} {line : List α} (h : a ∉ line)
    (before : List α) : (before ++ a :: line).splitOn a = before.splitOn a ++ [line] := by
  obtain ⟨init, last, hbefore⟩ :=
    (List.eq_nil_or_concat' (before.splitOn a)).resolve_left (List.splitOn_ne_nil _ _)
  rw [splitOn_append hbefore (splitOn_cons_self a line), splitOn_of_not_mem h, hbefore]
  simp

theorem areLines_lines (text : String) : AreLines text.toList (lines text) := by
  refine ⟨_, List.splitOn_ne_nil '\n' text.toList, not_mem_of_mem_splitOn _ _,
    List.intercalate_splitOn _, ?_⟩
  rw [lines, List.forall₂_map_right_iff, List.forall₂_same]
  intro raw _
  by_cases hlast : raw.getLast? = some '\r'
  · obtain ⟨line, rfl⟩ := List.getLast?_eq_some_iff.1 hlast
    rw [if_pos hlast, List.dropLast_concat]
    exact .inl rfl
  · rw [if_neg hlast]
    exact .inr ⟨rfl, hlast⟩

theorem lines_ne_nil (text : String) : lines text ≠ [] := by
  simp [lines]

/-! ### Lexemes in their places -/

/-- The lexemes of the pieces of one line. -/
def ofPieces (file : Path) (number : Nat) (ps : List Piece) : List Lexeme :=
  (Piece.tokens 0 ps).map fun (token, column) => ⟨token, ⟨file, number, column⟩⟩

/-- The new line that ends a line, unless it is the last one. -/
def lineEnd (file : Path) (number last : Nat) : List Lexeme :=
  if number < last then [⟨.newLine, ⟨file, number, 1⟩⟩] else []

/-- The lexemes of a text whose lines are made of these pieces. The last line has so many
characters. -/
def ofPage (file : Path) (rows : List (List Piece)) (width : Nat) : List Lexeme :=
  ((rows.zipIdx 1).flatMap fun (ps, number) =>
      ofPieces file number ps ++ lineEnd file number rows.length) ++
    [⟨.endOfFile, ⟨file, rows.length, width⟩⟩]

/-- The first character that offends in several lines, and the number of its line. -/
def FirstOffenceIn (lines : List (List Char)) (number i : Nat) (c : Char) : Prop :=
  ∃ before line after, lines = before ++ line :: after ∧ number = before.length + 1 ∧
    (∀ l ∈ before, ∀ j d, ¬ Offends l j d) ∧ FirstOffence line i c

section Line

variable {line : List Char}

theorem Spells.ofLine_eq {ps : List Piece} (h : Spells line ps) (file : Path) (number : Nat) :
    ofLine file number line = .ok (ofPieces file number ps) := by
  rw [ofLine, h.scan_eq 0]
  rfl

theorem FirstOffence.ofLine_eq {i : Nat} {c : Char} (h : FirstOffence line i c) (file : Path)
    (number : Nat) :
    ofLine file number line = .error ⟨⟨file, number, i + 1⟩, .unknownCharacter c⟩ := by
  rw [ofLine, h.scan_eq 0, Nat.zero_add]

theorem exists_spells_of_forall_not_offends (h : ∀ j d, ¬ Offends line j d) :
    ∃ ps, Spells line ps := by
  rcases line_cases line with hps | ⟨i, c, hoffence⟩
  · exact hps
  · exact absurd hoffence.offends (h i c)

end Line

/-! ### Several lines -/

/-- All lines are made of pieces, or there is a first character that offends. -/
theorem lines_cases (lines : List (List Char)) :
    (∃ rows, List.Forall₂ Spells lines rows) ∨ ∃ number i c, FirstOffenceIn lines number i c := by
  induction lines with
  | nil => exact .inl ⟨[], .nil⟩
  | cons line rest ih =>
    rcases line_cases line with ⟨ps, hps⟩ | ⟨i, c, h⟩
    · rcases ih with ⟨rows, hrows⟩ | ⟨_, i, c, before, other, after, rfl, rfl, hbefore, h⟩
      · exact .inl ⟨ps :: rows, .cons hps hrows⟩
      · refine .inr ⟨_, i, c, line :: before, other, after, rfl, rfl, ?_, h⟩
        rw [List.forall_mem_cons]
        exact ⟨hps.not_offends, hbefore⟩
    · exact .inr ⟨1, i, c, [], line, rest, rfl, rfl, by simp, h⟩

theorem exists_spells_of_mem {lines : List (List Char)} {rows : List (List Piece)}
    (h : List.Forall₂ Spells lines rows) : ∀ line ∈ lines, ∃ ps, Spells line ps := by
  induction h with
  | nil => simp
  | cons hps _ ih =>
    rw [List.forall_mem_cons]
    exact ⟨⟨_, hps⟩, ih⟩

section Lines

variable {file : Path} {number : Nat} {line : List Char} {rest : List (List Char)}

theorem ofLines_cons_of_ok {lexemes : List Lexeme} (h : ofLine file number line = .ok lexemes)
    (hrest : rest ≠ []) :
    ofLines file number (line :: rest) =
      (lexemes ++ ⟨.newLine, ⟨file, number, 1⟩⟩ :: ·) <$> ofLines file (number + 1) rest := by
  rw [ofLines, h]
  · rfl
  · exact hrest

theorem ofLines_cons_of_error {e : Located CompileError} (h : ofLine file number line = .error e) :
    ofLines file number (line :: rest) = .error e := by
  cases rest with
  | nil =>
    rw [ofLines, h]
    rfl
  | cons next rest =>
    rw [ofLines, h]
    · rfl
    · exact List.cons_ne_nil next rest

end Lines

/-- Lines that are made of pieces, numbered from `number` to `last`. -/
theorem ofLines_of_spells {lines : List (List Char)} {rows : List (List Piece)}
    (h : List.Forall₂ Spells lines rows) (hne : lines ≠ []) (file : Path) (number last : Nat)
    (hlast : number + rows.length = last + 1) :
    ofLines file number lines =
      .ok (((rows.zipIdx number).flatMap fun (ps, n) =>
          ofPieces file n ps ++ lineEnd file n last) ++
        [⟨.endOfFile, ⟨file, last, (lines.getLastD []).length⟩⟩]) := by
  induction h generalizing number with
  | nil => exact absurd rfl hne
  | @cons line ps lines rows hps hrows ih =>
    have hline := hps.ofLine_eq file number
    cases hrows with
    | nil =>
      obtain rfl : number = last := by simpa using hlast
      rw [ofLines, hline]
      simp [lineEnd, List.zipIdx_cons]
    | @cons next qs lines rows hqs hrows =>
      simp only [List.length_cons] at hlast ih
      have hmore : next :: lines ≠ [] := List.cons_ne_nil next lines
      have hend : lineEnd file number last = [⟨.newLine, ⟨file, number, 1⟩⟩] :=
        if_pos (by omega)
      rw [ofLines_cons_of_ok hline hmore, ih hmore (number + 1) (by omega)]
      simp [List.zipIdx_cons, hend]

/-- Lines of which one is the first that something offends in. -/
theorem ofLines_of_firstOffence {before after : List (List Char)} {line : List Char} {i : Nat}
    {c : Char} (hbefore : ∀ l ∈ before, ∀ j d, ¬ Offends l j d) (h : FirstOffence line i c)
    (file : Path) (number : Nat) :
    ofLines file number (before ++ line :: after) =
      .error ⟨⟨file, number + before.length, i + 1⟩, .unknownCharacter c⟩ := by
  induction before generalizing number with
  | nil => exact ofLines_cons_of_error (h.ofLine_eq file number)
  | cons first before ih =>
    rw [List.forall_mem_cons] at hbefore
    obtain ⟨ps, hps⟩ := exists_spells_of_forall_not_offends hbefore.1
    rw [List.cons_append, ofLines_cons_of_ok (hps.ofLine_eq file number) (by simp),
      ih hbefore.2 (number + 1), List.length_cons, Nat.add_assoc, Nat.add_comm 1]
    rfl

/-! ### Texts -/

section Text

variable {text : String}

theorem ofText_of_spells {rows : List (List Piece)} (h : List.Forall₂ Spells (lines text) rows)
    (file : Path) :
    ofText file text = .ok (ofPage file rows ((lines text).getLastD []).length) :=
  ofLines_of_spells h (lines_ne_nil text) file 1 rows.length (Nat.add_comm _ _)

theorem ofText_of_firstOffenceIn {number i : Nat} {c : Char}
    (h : FirstOffenceIn (lines text) number i c) (file : Path) :
    ofText file text = .error ⟨⟨file, number, i + 1⟩, .unknownCharacter c⟩ := by
  obtain ⟨before, line, after, hlines, rfl, hbefore, hline⟩ := h
  rw [ofText, hlines, ofLines_of_firstOffence hbefore hline, Nat.add_comm]

end Text

/-- **A text is accepted exactly if its lines are made of pieces**, and its lexemes are those of
the pieces, line by line and each in its place. Otherwise the first character that offends is
reported. -/
theorem ofText_eq_iff (file : Path) (text : String) :
    AreLines text.toList (lines text) ∧
      (∀ lexemes, ofText file text = .ok lexemes ↔
        ∃ rows, List.Forall₂ Spells (lines text) rows ∧
          lexemes = ofPage file rows ((lines text).getLastD []).length) ∧
      ((∃ lexemes, ofText file text = .ok lexemes) ↔ ∀ line ∈ lines text, ∃ ps, Spells line ps) ∧
      ∀ error, ofText file text = .error error ↔
        ∃ number i c, FirstOffenceIn (lines text) number i c ∧
          error = ⟨⟨file, number, i + 1⟩, .unknownCharacter c⟩ := by
  refine ⟨areLines_lines text, ?_, ?_, ?_⟩
  · intro lexemes
    constructor
    · intro hok
      rcases lines_cases (lines text) with ⟨rows, hrows⟩ | ⟨number, i, c, h⟩
      · rw [ofText_of_spells hrows file] at hok
        cases hok
        exact ⟨rows, hrows, rfl⟩
      · cases (ofText_of_firstOffenceIn h file).symm.trans hok
    · rintro ⟨rows, hrows, rfl⟩
      exact ofText_of_spells hrows file
  · constructor
    · rintro ⟨lexemes, hok⟩ line hline
      rcases lines_cases (lines text) with ⟨rows, hrows⟩ | ⟨number, i, c, h⟩
      · exact exists_spells_of_mem hrows line hline
      · cases (ofText_of_firstOffenceIn h file).symm.trans hok
    · intro h
      rcases lines_cases (lines text) with ⟨rows, hrows⟩ | ⟨number, i, c, hfirst⟩
      · exact ⟨_, ofText_of_spells hrows file⟩
      · obtain ⟨before, line, after, hlines, -, -, hline⟩ := hfirst
        obtain ⟨ps, hps⟩ := h line (by simp [hlines])
        exact absurd hline.offends (hps.not_offends i c)
  · intro error
    constructor
    · intro herror
      rcases lines_cases (lines text) with ⟨rows, hrows⟩ | ⟨number, i, c, h⟩
      · cases (ofText_of_spells hrows file).symm.trans herror
      · rw [ofText_of_firstOffenceIn h file] at herror
        cases herror
        exact ⟨number, i, c, h, rfl⟩
    · rintro ⟨number, i, c, h, rfl⟩
      exact ofText_of_firstOffenceIn h file

theorem ofText_eq_iff_commented :
    (∃ rows, List.Forall₂ Spells (lines "S=>a // §\r\n\tεB/////") rows ∧
        [⟨.start, ⟨⟨"a.lang"⟩, 1, 1⟩⟩, ⟨.assign, ⟨⟨"a.lang"⟩, 1, 3⟩⟩,
            ⟨.terminal 'a', ⟨⟨"a.lang"⟩, 1, 4⟩⟩, ⟨.newLine, ⟨⟨"a.lang"⟩, 1, 1⟩⟩,
            ⟨.epsilon, ⟨⟨"a.lang"⟩, 2, 2⟩⟩, ⟨.nonterminal 'B', ⟨⟨"a.lang"⟩, 2, 3⟩⟩,
            ⟨.endOfFile, ⟨⟨"a.lang"⟩, 2, 8⟩⟩] =
          ofPage ⟨"a.lang"⟩ rows 8) ∧
      FirstOffenceIn (lines "S=>a // §\n=>>") 2 2 '>' := by
  constructor
  · have hlines : ((lines "S=>a // §\r\n\tεB/////").getLastD []).length = 8 := by decide
    rw [← hlines]
    exact ((ofText_eq_iff ⟨"a.lang"⟩ "S=>a // §\r\n\tεB/////").2.1 _).1 rfl
  · obtain ⟨number, i, c, h, heq⟩ :=
      ((ofText_eq_iff ⟨"a.lang"⟩ "S=>a // §\n=>>").2.2.2 ⟨⟨⟨"a.lang"⟩, 2, 3⟩, _⟩).1 rfl
    cases heq
    exact h

end PhraseGrammar.Lexeme
