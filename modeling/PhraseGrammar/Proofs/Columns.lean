import PhraseGrammar.Grammar.Reading
import PhraseGrammar.Proofs.Lexing

/-!
# Reading without columns

Columns are carried along from the characters to the errors, but nothing is decided by them.

* `Lexeme.unplaced`: what scanning a line comes to, without the columns. It does not depend on the
  column that the line begins in (`unplaced_scan`);
* `Lexeme.atLine`, `Located.atLine`: a lexeme and an error with the line alone for their place;
* `byLine`: what reading a text comes to, if only the line of an error is looked at. It is known
  from what scanning the lines comes to without the columns (`byLine_ofText_congr`);
* `ofText_congr`: with the columns, and the length of the last line, everything is known.
-/

namespace PhraseGrammar

namespace Lexeme

/-- What scanning comes to, without the columns. -/
def unplaced (scanned : Except (Char × Nat) (List (Token × Nat))) : Except Char (List Token) :=
  (scanned.map (List.map Prod.fst)).mapError Prod.fst

theorem unplaced_map (tokens : List (Token × Nat))
    (scanned : Except (Char × Nat) (List (Token × Nat))) :
    unplaced ((tokens ++ ·) <$> scanned) = ((tokens.map Prod.fst) ++ ·) <$> unplaced scanned := by
  cases scanned with
  | error offence => rfl
  | ok more => simp [unplaced, Except.map, Except.mapError]

/-- The column that a line begins in does not matter for anything but columns. -/
theorem unplaced_scan (line : List Char) (before before' : Nat) :
    unplaced (scan (before + 1) line) = unplaced (scan (before' + 1) line) := by
  induction line using line_induction generalizing before before' with
  | nil => rfl
  | comment rest => simp [scan]
  | piece p rest ih =>
    rw [scan_piece, scan_piece, unplaced_map, unplaced_map,
      ih (before + p.spelling.length) (before' + p.spelling.length)]
    cases p.token? <;> rfl
  | offence c rest h => rw [scan_of_offends h, scan_of_offends h]; rfl

end Lexeme

/-! ### Places without columns -/

/-- The line of a place. -/
def Location.atLine (l : Location) : Location := ⟨l.file, l.line, 0⟩

/-- A lexeme in its line. -/
def Lexeme.atLine (x : Lexeme) : Lexeme := ⟨x.token, x.location.atLine⟩

/-- An error in its line. -/
def Located.atLine {ε : Type} (e : Located ε) : Located ε := ⟨e.location.atLine, e.error⟩

/-- A result, if only the line of an error is looked at. -/
def byLine {α : Type} (result : Except (Located CompileError) α) :
    Except (Located CompileError) α :=
  result.mapError Located.atLine

/-- Reading decides nothing by columns. -/
theorem Reading.byLine_rules (state : Reading) (last : Location) (lexemes : List Lexeme) :
    byLine (state.rules last lexemes) = state.rules last.atLine (lexemes.map Lexeme.atLine) := by
  induction lexemes generalizing state last with
  | nil => rfl
  | cons lexeme rest ih =>
    rw [List.map_cons, rules, rules, Lexeme.atLine]
    cases state.next lexeme.token with
    | error cause => rfl
    | ok outcome =>
      obtain ⟨next, finished⟩ := outcome
      cases next with
      | complete => rfl
      | _ =>
        dsimp only
        rw [← ih]
        generalize rules _ _ rest = result
        cases result <;> rfl

theorem Grammar.byLine_ofLexemes (lexemes : List Lexeme) :
    byLine (ofLexemes lexemes) = ofLexemes (lexemes.map Lexeme.atLine) := by
  have hrules : byLine (Reading.beginning.rules .unknown lexemes) =
      Reading.beginning.rules .unknown (lexemes.map Lexeme.atLine) :=
    Reading.byLine_rules _ _ _
  unfold ofLexemes
  rw [← hrules]
  generalize Reading.beginning.rules .unknown lexemes = result
  cases result <;> rfl

namespace Lexeme

/-! ### Lines without columns -/

/-- Lexemes in their lines, or an error in its line. -/
def flat (result : Except (Located CompileError) (List Lexeme)) :
    Except (Located CompileError) (List Lexeme) :=
  byLine (result.map (List.map atLine))

variable {file : Path} {number : Nat}

theorem flat_ofLine (line : List Char) :
    flat (ofLine file number line) =
      match unplaced (scan 1 line) with
      | .ok tokens => .ok (tokens.map fun token => ⟨token, ⟨file, number, 0⟩⟩)
      | .error c => .error ⟨⟨file, number, 0⟩, .unknownCharacter c⟩ := by
  unfold ofLine
  cases scan 1 line with
  | error offence => rfl
  | ok tokens => simp [flat, byLine, unplaced, Except.map, Except.mapError, atLine, Location.atLine]

theorem flat_ofLines_last (line : List Char) :
    flat (ofLines file number [line]) =
      (· ++ [⟨.endOfFile, ⟨file, number, 0⟩⟩]) <$> flat (ofLine file number line) := by
  rw [ofLines]
  cases ofLine file number line with
  | error e => rfl
  | ok lexemes =>
    simp [flat, byLine, Except.map, Except.mapError, bind, Except.bind, pure, Except.pure, atLine,
      Location.atLine]

theorem flat_ofLines_cons (line : List Char) {rest : List (List Char)} (hrest : rest ≠ []) :
    flat (ofLines file number (line :: rest)) =
      flat (ofLine file number line) >>= fun lexemes =>
        (lexemes ++ ⟨.newLine, ⟨file, number, 0⟩⟩ :: ·) <$>
          flat (ofLines file (number + 1) rest) := by
  cases hline : ofLine file number line with
  | error e =>
    rw [ofLines_cons_of_error hline]
    rfl
  | ok lexemes =>
    rw [ofLines_cons_of_ok hline hrest]
    cases ofLines file (number + 1) rest with
    | error e => rfl
    | ok more =>
      simp [flat, byLine, Except.map, Except.mapError, bind, Except.bind, atLine, Location.atLine]

/-- Lines of which the same is scanned, but for the columns. -/
def Alike (line line' : List Char) : Prop := unplaced (scan 1 line) = unplaced (scan 1 line')

theorem Alike.flat_ofLine {line line' : List Char} (h : Alike line line') :
    flat (ofLine file number line) = flat (ofLine file number line') := by
  rw [Alike] at h
  rw [Lexeme.flat_ofLine, Lexeme.flat_ofLine, h]

theorem flat_ofLines_congr {lines lines' : List (List Char)}
    (h : List.Forall₂ Alike lines lines') :
    flat (ofLines file number lines) = flat (ofLines file number lines') := by
  induction h generalizing number with
  | nil => rfl
  | @cons line line' rest rest' hline hrest ih =>
    cases hrest with
    | nil => rw [flat_ofLines_last, flat_ofLines_last, hline.flat_ofLine]
    | cons hnext hmore =>
      rw [flat_ofLines_cons line (List.cons_ne_nil _ _),
        flat_ofLines_cons line' (List.cons_ne_nil _ _), hline.flat_ofLine, ih]

/-- Lines of which the same is scanned, and that are equally long. -/
def Same (line line' : List Char) : Prop :=
  scan 1 line = scan 1 line' ∧ line.length = line'.length

theorem ofLines_congr {lines lines' : List (List Char)} (h : List.Forall₂ Same lines lines') :
    ofLines file number lines = ofLines file number lines' := by
  induction h generalizing number with
  | nil => rfl
  | @cons line line' rest rest' hline hrest ih =>
    have hsame : ofLine file number line = ofLine file number line' := by
      rw [ofLine, ofLine, hline.1]
    cases hrest with
    | nil => rw [ofLines, ofLines, hsame, hline.2]
    | cons hnext hmore =>
      cases hright : ofLine file number line' with
      | error e => rw [ofLines_cons_of_error (hsame.trans hright), ofLines_cons_of_error hright]
      | ok lexemes =>
        rw [ofLines_cons_of_ok (hsame.trans hright) (List.cons_ne_nil _ _),
          ofLines_cons_of_ok hright (List.cons_ne_nil _ _), ih]

end Lexeme

/-! ### Texts -/

namespace Grammar

open Lexeme

theorem byLine_ofText (file : Path) (text : String) :
    byLine (ofText file text) = flat (Lexeme.ofText file text) >>= ofLexemes := by
  unfold ofText
  cases Lexeme.ofText file text with
  | error e => rfl
  | ok lexemes => exact byLine_ofLexemes lexemes

/-- Texts with lines of which the same is scanned, but for the columns. -/
theorem byLine_ofText_congr (file : Path) {text text' : String}
    (h : List.Forall₂ Alike (lines text) (lines text')) :
    byLine (ofText file text) = byLine (ofText file text') := by
  rw [byLine_ofText, byLine_ofText, Lexeme.ofText, Lexeme.ofText, flat_ofLines_congr h]

theorem ofText_congr (file : Path) {text text' : String}
    (h : List.Forall₂ Same (lines text) (lines text')) : ofText file text = ofText file text' := by
  rw [ofText, ofText, Lexeme.ofText, Lexeme.ofText, ofLines_congr h]

end Grammar

end PhraseGrammar
