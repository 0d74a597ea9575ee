import PhraseGrammar.FileTree
import PhraseGrammar.Proofs.Lexing

/-!
# Resolved paths

A path is resolved in three views of it: its text, which gets the ending; its pieces, of which the
names are kept; and the text that the names make. A name has no slash in it, so nothing is lost
between pieces and text (`pieces_ofNames`).

* `Path.IsResolved`: what is to be seen of a resolved path in its text and its pieces;
* `Path.IsCanonical`: such a path by its root and its names. Adding the ending and taking the path
  from the root leads there (`isCanonical_absolute`), and leaves a canonical path as it is
  (`IsCanonical.absolute_withExtension`).

Main statement: `resolve_normal`.
-/

namespace PhraseGrammar

namespace Path

/-- What a resolved path looks like: it begins at the root, its last name has the ending of grammar
files, no piece of it is `.`, and two slashes stand in a row only at its beginning, where there is
no third one. -/
structure IsResolved (q : Path) : Prop where
  isAbsolute : q.isAbsolute = true
  ending : ∃ names last, q.names = names ++ [last] ∧ extension <:+ last
  here_not_mem : ['.'] ∉ q.pieces
  slashes : ∀ before after, q.text.toList = before ++ ['/', '/'] ++ after →
    before = [] ∧ after.head? ≠ some '/'

/-- A piece that names something, without slashes. -/
structure IsPlain (name : List Char) : Prop where
  isName : isName name = true
  slash_not_mem : '/' ∉ name

/-- A path that is put together from a root of one or two slashes and from plain names, the last of
which has the ending. -/
def IsCanonical (q : Path) : Prop :=
  ∃ root names last, (root = ['/'] ∨ root = ['/', '/']) ∧
    (∀ name ∈ names ++ [last], IsPlain name) ∧ extension <:+ last ∧
    q = ofNames root (names ++ [last])

/-! ### Pieces and names -/

theorem isPlain_of_mem_names {p : Path} {name : List Char} (h : name ∈ p.names) : IsPlain name := by
  obtain ⟨hmem, hname⟩ := List.mem_filter.1 h
  exact ⟨hname, Lexeme.not_mem_of_mem_splitOn '/' p.text.toList name hmem⟩

theorem IsPlain.ne_nil {name : List Char} (h : IsPlain name) : name ≠ [] := by
  rintro rfl
  exact absurd h.isName (by decide)

theorem IsPlain.ne_here {name : List Char} (h : IsPlain name) : name ≠ ['.'] := by
  rintro rfl
  exact absurd h.isName (by decide)

theorem root_cases (p : Path) : p.root = ['/'] ∨ p.root = ['/', '/'] := by
  unfold root
  split
  · exact .inr rfl
  · split_ifs
    · exact .inl rfl
    · exact .inr rfl
  · exact .inl rfl

theorem isAbsolute_ofNames {root : List Char} (hroot : root = ['/'] ∨ root = ['/', '/'])
    (names : List (List Char)) : (ofNames root names).isAbsolute = true := by
  rcases hroot with rfl | rfl <;> simp [isAbsolute, ofNames]

/-- Between two slashes in a row there is an empty piece. -/
theorem exists_pieces_of_slashes {p : Path} {before after : List Char}
    (h : p.text.toList = before ++ ['/', '/'] ++ after) :
    ∃ front piece, before.splitOn '/' = front ++ [piece] ∧
      p.pieces = front ++ piece :: [] :: after.splitOn '/' := by
  obtain ⟨front, piece, hbefore⟩ :=
    (List.eq_nil_or_concat' (before.splitOn '/')).resolve_left (List.splitOn_ne_nil _ _)
  have hafter : ('/' :: '/' :: after).splitOn '/' = [] :: [] :: after.splitOn '/' := by
    rw [Lexeme.splitOn_cons_self, Lexeme.splitOn_cons_self]
  refine ⟨front, piece, hbefore, ?_⟩
  rw [pieces, h, List.append_assoc]
  exact (Lexeme.splitOn_append hbefore hafter).trans (by rw [List.append_nil])

section

variable {root : List Char} {names : List (List Char)} (hroot : root = ['/'] ∨ root = ['/', '/'])
  (hnames : ∀ name ∈ names, IsPlain name) (hne : names ≠ [])

include hnames hne

/-- In front of the names there is an empty piece for each slash of the root. -/
theorem pieces_ofNames : (ofNames ['/'] names).pieces = [] :: names ∧
    (ofNames ['/', '/'] names).pieces = [] :: [] :: names := by
  have hsplit : (['/'].intercalate names).splitOn '/' = names :=
    List.splitOn_intercalate '/' (fun name hname => (hnames name hname).slash_not_mem) hne
  simp [pieces, ofNames, Lexeme.splitOn_cons_self, hsplit]

/-- What stands behind the root does not begin with a slash. -/
theorem exists_intercalate_eq_cons : ∃ c rest, ['/'].intercalate names = c :: rest ∧ c ≠ '/' := by
  rcases names with _ | ⟨first, others⟩
  · exact absurd rfl hne
  have hfirst := hnames first List.mem_cons_self
  obtain ⟨c, chars, rfl⟩ := List.exists_cons_of_ne_nil hfirst.ne_nil
  have hc : c ≠ '/' := fun h => hfirst.slash_not_mem (h ▸ List.mem_cons_self)
  rcases others with _ | ⟨second, others⟩
  · exact ⟨c, chars, by simp, hc⟩
  · rw [List.intercalate_cons_of_ne_nil (List.cons_ne_nil second others)]
    exact ⟨c, _, rfl, hc⟩

include hroot

theorem names_ofNames : (ofNames root names).names = names := by
  have hfilter : names.filter isName = names :=
    List.filter_eq_self.2 fun name hname => (hnames name hname).isName
  obtain ⟨hone, htwo⟩ := pieces_ofNames hnames hne
  unfold Path.names
  rcases hroot with rfl | rfl
  · rw [hone, List.filter_cons_of_neg (by decide), hfilter]
  · rw [htwo, List.filter_cons_of_neg (by decide), List.filter_cons_of_neg (by decide), hfilter]

theorem root_ofNames : (ofNames root names).root = root := by
  obtain ⟨c, rest, hnext, hc⟩ := exists_intercalate_eq_cons hnames hne
  rcases hroot with rfl | rfl <;> simp [Path.root, ofNames, hnext, hc]

/-- A path from the root that has no more than its names stays as it is. -/
theorem absolute_ofNames (here : Path) :
    absolute here (ofNames root names) = ofNames root names := by
  rw [absolute, if_pos (isAbsolute_ofNames hroot names), root_ofNames hroot hnames hne,
    names_ofNames hroot hnames hne]

/-- Two slashes in a row make an empty piece, and there is none behind the root. -/
theorem eq_nil_of_slashes {before after : List Char}
    (h : (ofNames root names).text.toList = before ++ ['/', '/'] ++ after) :
    before = [] ∧ after.head? ≠ some '/' := by
  have hempty : [] ∉ names := fun hmem => (hnames [] hmem).ne_nil rfl
  obtain ⟨front, piece, hbefore, hpieces⟩ := exists_pieces_of_slashes h
  obtain ⟨hone, htwo⟩ := pieces_ofNames hnames hne
  rcases hroot with rfl | rfl
  · rw [hone] at hpieces
    rcases front with _ | ⟨_, front⟩
    · obtain ⟨-, rfl⟩ := List.cons.inj hpieces
      exact absurd List.mem_cons_self hempty
    · obtain ⟨-, rfl⟩ := List.cons.inj hpieces
      exact absurd (by simp) hempty
  · rw [htwo] at hpieces
    rcases front with _ | ⟨_, _ | ⟨_, front⟩⟩
    · -- both slashes belong to the root
      obtain ⟨rfl, htail⟩ := List.cons.inj hpieces
      obtain ⟨-, rfl⟩ := List.cons.inj htail
      constructor
      · have hjoin : ['/'].intercalate (before.splitOn '/') = before := List.intercalate_splitOn '/'
        rw [← hjoin, hbefore]
        rfl
      · intro hhead
        obtain ⟨rest, rfl⟩ := List.head?_eq_some_iff.1 hhead
        rw [Lexeme.splitOn_cons_self] at hempty
        exact hempty List.mem_cons_self
    · obtain ⟨-, htail⟩ := List.cons.inj hpieces
      obtain ⟨-, rfl⟩ := List.cons.inj htail
      exact absurd List.mem_cons_self hempty
    · obtain ⟨-, htail⟩ := List.cons.inj hpieces
      obtain ⟨-, rfl⟩ := List.cons.inj htail
      exact absurd (by simp) hempty

end

/-! ### The ending -/

variable {p q : Path}

theorem extension_isSuffix_withExtension (p : Path) :
    extension <:+ p.withExtension.text.toList := by
  unfold withExtension
  split_ifs with h
  · exact List.isSuffixOf_iff_suffix.1 h
  · rw [String.toList_append, String.toList_ofList]
    exact List.suffix_append _ _

theorem withExtension_of_isSuffix (h : extension <:+ p.text.toList) : p.withExtension = p :=
  if_pos (List.isSuffixOf_iff_suffix.2 h)

/-- The ending of a text is the ending of its last name: there is no slash in it. -/
theorem exists_names_of_isSuffix (h : extension <:+ p.text.toList) :
    ∃ names last, p.names = names ++ [last] ∧ extension <:+ last := by
  obtain ⟨before, htext⟩ := h
  obtain ⟨front, piece, hbefore⟩ :=
    (List.eq_nil_or_concat' (before.splitOn '/')).resolve_left (List.splitOn_ne_nil _ _)
  have hextension : extension.splitOn '/' = [extension] :=
    Lexeme.splitOn_of_not_mem (by decide)
  have hpieces : p.pieces = front ++ [piece ++ extension] := by
    rw [pieces, ← htext, Lexeme.splitOn_append hbefore hextension]
  have hname : isName (piece ++ extension) = true := by
    simp [isName, extension, List.append_eq_singleton_iff]
  refine ⟨front.filter isName, piece ++ extension, ?_, List.suffix_append _ _⟩
  rw [names, hpieces, List.filter_append, List.filter_cons_of_pos hname, List.filter_nil]

theorem isSuffix_ofNames {root last : List Char} {names : List (List Char)}
    (h : extension <:+ last) : extension <:+ (ofNames root (names ++ [last])).text.toList := by
  have hlast : extension <:+ ['/'].intercalate (names ++ [last]) := by
    induction names with
    | nil => simpa using h
    | cons name names ih =>
      rw [List.cons_append, List.intercalate_cons_of_ne_nil (by simp)]
      exact ih.trans (List.suffix_append _ _)
  rw [ofNames, String.toList_ofList]
  exact hlast.trans (List.suffix_append _ _)

/-! ### Canonical paths -/

/-- Adding the ending and taking the path from the root leads to a canonical path. -/
theorem isCanonical_absolute (here p : Path) : IsCanonical (absolute here p.withExtension) := by
  obtain ⟨names, last, hnames, hlast⟩ :=
    exists_names_of_isSuffix (extension_isSuffix_withExtension p)
  have hplain : ∀ name ∈ names ++ [last], IsPlain name := fun name hname =>
    isPlain_of_mem_names (hnames ▸ hname)
  unfold absolute
  split_ifs
  · exact ⟨_, names, last, root_cases _, hplain, hlast, by rw [hnames]⟩
  · refine ⟨_, here.names ++ names, last, root_cases here, ?_, hlast, ?_⟩
    · rw [List.append_assoc]
      exact List.forall_mem_append.2 ⟨fun _ => isPlain_of_mem_names, hplain⟩
    · rw [hnames, List.append_assoc]

/-- A canonical path stays as it is. -/
theorem IsCanonical.absolute_withExtension (h : IsCanonical q) (here : Path) :
    absolute here q.withExtension = q := by
  obtain ⟨root, names, last, hroot, hplain, hlast, rfl⟩ := h
  rw [withExtension_of_isSuffix (isSuffix_ofNames hlast), absolute_ofNames hroot hplain (by simp)]

theorem IsCanonical.isResolved (h : IsCanonical q) : IsResolved q := by
  obtain ⟨root, names, last, hroot, hplain, hlast, rfl⟩ := h
  have hne : names ++ [last] ≠ [] := by simp
  refine ⟨isAbsolute_ofNames hroot _, ?_, ?_,
    fun before after => eq_nil_of_slashes hroot hplain hne⟩
  · exact ⟨names, last, names_ofNames hroot hplain hne, hlast⟩
  · have hhere : ['.'] ∉ names ++ [last] := fun hmem => (hplain _ hmem).ne_here rfl
    obtain ⟨hone, htwo⟩ := pieces_ofNames hplain hne
    rcases hroot with rfl | rfl
    · rw [hone]
      simpa using hhere
    · rw [htwo]
      simpa using hhere

end Path

namespace Disk

/-- Resolving a path comes down to the question whether there is something at a canonical path,
which is the path that it resolves to itself. -/
theorem exists_isCanonical (d : Disk) (p : Path) :
    ∃ q : Path, q.IsCanonical ∧ d.resolve q = d.resolve p ∧
      d.resolve p = if d.holds q then .ok q else .error ⟨.ofFile q, .missingFile⟩ := by
  have hcanonical := Path.isCanonical_absolute d.here p
  refine ⟨_, hcanonical, ?_, rfl⟩
  unfold resolve
  rw [hcanonical.absolute_withExtension]

/-- **Paths are resolved to a normal form, and once is enough.** A path that a file is found for is
resolved to a normal path at which there is something, and this path is resolved to itself. If there
is nothing, the error names such a path, and this path has the same error. A path without the
ending is resolved as it is with the ending. -/
theorem resolve_normal (d : Disk) (p : Path) :
    (∀ q, d.resolve p = .ok q → q.IsResolved ∧ d.holds q = true ∧ d.resolve q = .ok q) ∧
    (∀ error, d.resolve p = .error error →
      ∃ q : Path, error = ⟨.ofFile q, .missingFile⟩ ∧ q.IsResolved ∧
        d.resolve q = .error error) ∧
    (¬ Path.extension <:+ p.text.toList → d.resolve ⟨p.text ++ ".lang"⟩ = d.resolve p) := by
  obtain ⟨q, hcanonical, hsame, hresolve⟩ := d.exists_isCanonical p
  refine ⟨fun q' hq' => ?_, fun error herror => ?_, fun hending => ?_⟩
  · cases hholds : d.holds q with
    | true =>
      rw [hresolve, if_pos hholds] at hq'
      cases hq'
      exact ⟨hcanonical.isResolved, hholds, by rw [hsame, hresolve, if_pos hholds]⟩
    | false =>
      rw [hresolve, hholds] at hq'
      cases hq'
  · cases hholds : d.holds q with
    | true =>
      rw [hresolve, if_pos hholds] at herror
      cases herror
    | false =>
      refine ⟨q, ?_, hcanonical.isResolved, hsame.trans herror⟩
      rw [hresolve, hholds] at herror
      exact (Except.error.inj herror).symm
  · have hadd : p.withExtension = ⟨p.text ++ ".lang"⟩ := by
      rw [Path.withExtension, if_neg (mt List.isSuffixOf_iff_suffix.1 hending), Path.extension,
        String.ofList_toList]
    have hkeep : Path.withExtension ⟨p.text ++ ".lang"⟩ = ⟨p.text ++ ".lang"⟩ := by
      rw [← hadd]
      exact Path.withExtension_of_isSuffix (Path.extension_isSuffix_withExtension p)
    unfold resolve
    rw [hkeep, hadd]

/-- A directory whose name has the ending, with a file in it whose name is no more than the
ending. -/
def nested : FileTree where
  here := ["home".toList]
  directories := []
  files := [(["home".toList, "x.lang".toList, ".lang".toList], .empty)]

/-- The slash at the end keeps the ending of the directory from counting. Where nothing is found the
two slashes at the beginning stay, and so does the way up. -/
theorem resolve_normal_nested :
    nested.disk.resolve ⟨"x.lang/"⟩ = .ok ⟨"/home/x.lang/.lang"⟩ ∧
      Path.IsResolved ⟨"/home/x.lang/.lang"⟩ ∧
      nested.disk.resolve ⟨"/home/x.lang/.lang"⟩ = .ok ⟨"/home/x.lang/.lang"⟩ ∧
      nested.disk.resolve ⟨"x.lang/.lang"⟩ = nested.disk.resolve ⟨"x.lang/"⟩ ∧
      nested.disk.resolve ⟨"//./a/..//b"⟩ = .error ⟨.ofFile ⟨"//a/../b.lang"⟩, .missingFile⟩ ∧
      Path.IsResolved ⟨"//a/../b.lang"⟩ := by
  obtain ⟨hfound, -, hending⟩ := nested.disk.resolve_normal ⟨"x.lang/"⟩
  obtain ⟨-, hmissing, -⟩ := nested.disk.resolve_normal ⟨"//./a/..//b"⟩
  have hresolve : nested.disk.resolve ⟨"x.lang/"⟩ = .ok ⟨"/home/x.lang/.lang"⟩ := rfl
  have herror : nested.disk.resolve ⟨"//./a/..//b"⟩ =
      .error ⟨.ofFile ⟨"//a/../b.lang"⟩, .missingFile⟩ := rfl
  obtain ⟨hresolved, -, hagain⟩ := hfound _ hresolve
  obtain ⟨q, hq, hnormal, -⟩ := hmissing _ herror
  obtain rfl : ⟨"//a/../b.lang"⟩ = q := congrArg (fun e => e.location.file) hq
  exact ⟨hresolve, hresolved, hagain, hending (by decide), herror, hnormal⟩

end Disk

end PhraseGrammar
