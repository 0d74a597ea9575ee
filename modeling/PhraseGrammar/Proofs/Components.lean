import PhraseGrammar.Path
import PhraseGrammar.Proofs.Lexing

/-!
# Components of paths

What a path consists of: where it begins, and the steps it takes from there. Slashes in a row, a
slash at the end and a `.` behind the beginning make no difference; `..` is a step of its own, and
so is a `.` that a path begins with.

* `Path.Component`, `Path.components`: the components of a path, read off its pieces;
* `Path.components_eq`: the component that the path begins with, if there is one, and then one for
  each of its names. Where the path begins can be told from them (`root_mem_components`,
  `here_mem_components`), and so can its names (`Component.ofName_injective`).

Main statement: `Path.beq_iff_components`.
-/

namespace PhraseGrammar

namespace Path

/-- What a path is made of. -/
inductive Component
  | root
  | here
  | parent
  | name (letters : List Char)
  deriving DecidableEq

namespace Component

/-- The component that a piece behind the beginning of a path is. -/
def ofPiece? : List Char → Option Component
  | [] => none
  | ['.'] => none
  | ['.', '.'] => some .parent
  | letters => some (.name letters)

/-- The component that a name is. -/
def ofName (letters : List Char) : Component :=
  if letters = ['.', '.'] then .parent else .name letters

end Component

/-- The components of a path. A path with a slash in front begins at the root, and a `.` is a
component only as the first piece. -/
def components (p : Path) : List Component :=
  match p.pieces with
  | [] :: next :: rest => .root :: (next :: rest).filterMap Component.ofPiece?
  | ['.'] :: rest => .here :: rest.filterMap Component.ofPiece?
  | pieces => pieces.filterMap Component.ofPiece?

/-! ### Names -/

namespace Component

theorem ofPiece?_eq (letters : List Char) :
    ofPiece? letters = if isName letters then some (ofName letters) else none := by
  unfold ofPiece?
  split <;> simp_all [isName, ofName]

theorem filterMap_ofPiece? (pieces : List (List Char)) :
    pieces.filterMap ofPiece? = (pieces.filter isName).map ofName := by
  rw [← List.filterMap_eq_map, List.filterMap_filter, funext ofPiece?_eq]
  rfl

theorem ofName_injective : Function.Injective ofName := by
  intro a b h
  unfold ofName at h
  split_ifs at h with ha hb
  · rw [ha, hb]
  · exact name.inj h

/-- No name is a component that tells where a path begins. -/
theorem ne_of_mem_map_ofName {c : Component} {names : List (List Char)}
    (h : c ∈ names.map ofName) : c ≠ .root ∧ c ≠ .here := by
  obtain ⟨letters, -, rfl⟩ := List.mem_map.1 h
  unfold ofName
  split_ifs <;> simp

end Component

/-! ### Where a path begins -/

theorem isAbsolute_iff {p : Path} :
    p.isAbsolute = true ↔ ∃ next rest, p.pieces = [] :: next :: rest := by
  rw [isAbsolute, pieces]
  cases p.text.toList with
  | nil => simp
  | cons c chars =>
    obtain ⟨next, rest, hrest⟩ := List.exists_cons_of_ne_nil (List.splitOn_ne_nil '/' chars)
    by_cases hc : c = '/'
    · subst hc
      rw [Lexeme.splitOn_cons_self, hrest]
      simp
    · rw [List.splitOn_cons_eq_if_modifyHead, if_neg (by simpa using hc), hrest]
      simp [hc]

theorem startsHere_iff {p : Path} : p.startsHere = true ↔ ∃ rest, p.pieces = ['.'] :: rest := by
  simp [startsHere, List.head?_eq_some_iff]

theorem startsHere_eq_false_of_isAbsolute {p : Path} (h : p.isAbsolute = true) :
    p.startsHere = false := by
  obtain ⟨next, rest, hpieces⟩ := isAbsolute_iff.1 h
  rw [startsHere, hpieces]
  rfl

/-- The component that tells where a path begins. -/
def opening (p : Path) : List Component :=
  if p.isAbsolute then [.root] else if p.startsHere then [.here] else []

theorem components_eq (p : Path) :
    p.components = p.opening ++ p.names.map Component.ofName := by
  rw [names, ← Component.filterMap_ofPiece?, components]
  split
  · -- at the root
    rename_i next rest hpieces
    rw [opening, if_pos (isAbsolute_iff.2 ⟨next, rest, hpieces⟩), hpieces]
    rfl
  · -- at a `.`
    rename_i rest hpieces
    have habsolute : ¬ p.isAbsolute = true := by
      rw [isAbsolute_iff, hpieces]
      simp
    rw [opening, if_neg habsolute, if_pos (startsHere_iff.2 ⟨rest, hpieces⟩), hpieces]
    rfl
  · -- at a name, or nowhere
    rename_i hroot hhere
    have habsolute : ¬ p.isAbsolute = true := by
      rw [isAbsolute_iff]
      rintro ⟨next, rest, hpieces⟩
      exact hroot next rest hpieces
    have hstarts : ¬ p.startsHere = true := by
      rw [startsHere_iff]
      rintro ⟨rest, hpieces⟩
      exact hhere rest hpieces
    rw [opening, if_neg habsolute, if_neg hstarts, List.nil_append]

theorem root_mem_components {p : Path} : .root ∈ p.components ↔ p.isAbsolute = true := by
  have hnames : .root ∉ p.names.map Component.ofName := fun h =>
    (Component.ne_of_mem_map_ofName h).1 rfl
  rw [components_eq, List.mem_append, or_iff_left hnames, opening]
  split_ifs <;> simp_all

theorem here_mem_components {p : Path} : .here ∈ p.components ↔ p.startsHere = true := by
  have hnames : .here ∉ p.names.map Component.ofName := fun h =>
    (Component.ne_of_mem_map_ofName h).2 rfl
  rw [components_eq, List.mem_append, or_iff_left hnames, opening]
  split_ifs with habsolute hhere
  · simp [startsHere_eq_false_of_isAbsolute habsolute]
  · simp [hhere]
  · simp [hhere]

theorem beq_iff {p q : Path} :
    p == q ↔ p.isAbsolute = q.isAbsolute ∧ p.startsHere = q.startsHere ∧ p.names = q.names := by
  show (p.isAbsolute == q.isAbsolute && p.startsHere == q.startsHere && p.names == q.names) ↔ _
  simp [and_assoc]

/-- **Paths are equal exactly if their components are.** -/
theorem beq_iff_components {p q : Path} : p == q ↔ p.components = q.components := by
  rw [beq_iff]
  constructor
  · rintro ⟨habsolute, hhere, hnames⟩
    rw [components_eq, components_eq, opening, opening, habsolute, hhere, hnames]
  · intro h
    have habsolute : p.isAbsolute = q.isAbsolute := by
      rw [Bool.eq_iff_iff, ← root_mem_components, ← root_mem_components, h]
    have hhere : p.startsHere = q.startsHere := by
      rw [Bool.eq_iff_iff, ← here_mem_components, ← here_mem_components, h]
    -- both begin alike, so what is left are the names
    have hopening : p.opening = q.opening := by rw [opening, opening, habsolute, hhere]
    rw [components_eq, components_eq, hopening] at h
    have hnames := List.map_injective_iff.2 Component.ofName_injective (List.append_cancel_left h)
    exact ⟨habsolute, hhere, hnames⟩

end Path

end PhraseGrammar
