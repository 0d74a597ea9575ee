import Mathlib.Data.List.Nodup
import PhraseGrammar.Proofs.Requests

/-!
# What command lines ask for

When requests are settled one by one, only their meanings count, and not even their order: a draft
is known by the contents that it holds.

* `Draft.Holds`: a draft that holds certain contents, and no others. What has not been named before
  is added (`Holds.add_of_fresh`), and an option that has been named before is refused
  (`Holds.add_of_repeated`);
* `contents`: what has to be asked for to get a configuration;
* `Writes`: requests that ask for a configuration, in whatever order and in whatever way they are
  written. `Writes.parse_eq` is what they are parsed to.

Main statement: `config_exact`.
-/

namespace PhraseGrammar

namespace CommandLine

/-! ### Drafts -/

namespace Draft

variable {d : Draft} {contents : List Content}

/-- The draft holds these contents and no others. -/
structure Holds (d : Draft) (contents : List Content) : Prop where
  file_iff : ∀ name, d.file = some name ↔ .file name ∈ contents
  flag_iff : ∀ f, d.flag f = true ↔ .flag f ∈ contents
  quantity_iff : ∀ q n, d.quantity q = some n ↔ .quantity q n ∈ contents

theorem holds_empty : empty.Holds [] where
  file_iff _ := by simp [empty]
  flag_iff _ := by simp [empty]
  quantity_iff _ _ := by simp [empty]

theorem Holds.add_file (h : d.Holds contents) (name : FileName)
    (hfresh : none ∉ contents.map Content.key) :
    ∃ d', d.setFile name.text = .ok d' ∧ d'.Holds (contents ++ [.file name.text]) := by
  have hnone : ∀ other, .file other ∉ contents := fun other hmem =>
    hfresh (List.mem_map.2 ⟨_, hmem, rfl⟩)
  have hne : name.text.isEmpty = false := by
    obtain ⟨c, rest, htext, -⟩ := name.exists_cons
    rw [← Bool.not_eq_true, String.isEmpty_iff]
    rintro hempty
    rw [hempty] at htext
    cases htext
  refine ⟨{ d with file := some name.text }, by simp [setFile, hne], ?_, ?_, ?_⟩
  · intro other
    simp [hnone other, eq_comm]
  · simpa using h.flag_iff
  · simpa using h.quantity_iff

theorem Holds.add_flag (h : d.Holds contents) (f : Flag)
    (hfresh : some (.flag f) ∉ contents.map Content.key) :
    ∃ d', d.setFlag f = .ok d' ∧ d'.Holds (contents ++ [.flag f]) := by
  have hunset : d.flag f = false := by
    rw [← Bool.not_eq_true, h.flag_iff]
    exact fun hmem => hfresh (List.mem_map.2 ⟨_, hmem, rfl⟩)
  refine ⟨{ d with flag := fun g => g = f || d.flag g }, by simp [setFlag, hunset], ?_, ?_, ?_⟩
  · simpa using h.file_iff
  · intro g
    simp [h.flag_iff, or_comm]
  · simpa using h.quantity_iff

theorem Holds.add_quantity (h : d.Holds contents) (q : Quantity) (v : Value)
    (hfresh : some (.quantity q) ∉ contents.map Content.key) :
    ∃ d', d.setQuantity q v.text.toList = .ok d' ∧
      d'.Holds (contents ++ [.quantity q v.number]) := by
  have hnone : ∀ n, .quantity q n ∉ contents := fun n hmem =>
    hfresh (List.mem_map.2 ⟨_, hmem, rfl⟩)
  have hunset : d.quantity q = none := by
    rw [Option.eq_none_iff_forall_ne_some]
    exact fun n hn => hnone n ((h.quantity_iff q n).1 hn)
  refine ⟨{ d with quantity := fun p => if p = q then some v.number else d.quantity p },
    by simp [setQuantity, hunset, v.word?_eq], ?_, ?_, ?_⟩
  · simpa using h.file_iff
  · simpa using h.flag_iff
  · intro p n
    by_cases hp : p = q
    · subst hp
      simp [hnone n, eq_comm]
    · simp [hp, h.quantity_iff]

/-- What has not been named before is added. -/
theorem Holds.add_of_fresh (h : d.Holds contents) {r : Request}
    (hfresh : r.key ∉ contents.map Content.key) :
    ∃ d', d.add r = .ok d' ∧ d'.Holds (contents ++ [r.content]) := by
  cases r with
  | file name => exact h.add_file name hfresh
  | flag f style => exact h.add_flag f hfresh
  | quantity q v style attached => exact h.add_quantity q v hfresh

/-- An option that has been named before is refused. -/
theorem Holds.add_of_repeated (h : d.Holds contents) {r : Request} {key : Key}
    (hkey : r.key = some key) (hrepeated : some key ∈ contents.map Content.key) :
    d.add r = .error .repeatedArgument := by
  obtain ⟨content, hmem, hcontent⟩ := List.mem_map.1 hrepeated
  rw [← hkey] at hcontent
  cases r with
  | file name => cases hkey
  | flag f style =>
    cases content with
    | file name => cases hcontent
    | flag g =>
      cases hcontent
      simp [add, setFlag, (h.flag_iff f).2 hmem]
    | quantity q n => cases hcontent
  | quantity q v style attached =>
    cases content with
    | file name => cases hcontent
    | flag g => cases hcontent
    | quantity p n =>
      cases hcontent
      simp [add, setQuantity, (h.quantity_iff q n).2 hmem]

/-- Requests that name everything once are settled. -/
theorem Holds.foldlM_add (h : d.Holds contents) {requests : List Request}
    (hnodup : (contents.map Content.key ++ requests.map Request.key).Nodup) :
    ∃ d', requests.foldlM add d = .ok d' ∧
      d'.Holds (contents ++ requests.map Request.content) := by
  induction requests generalizing d contents with
  | nil => exact ⟨d, rfl, by simpa using h⟩
  | cons r requests ih =>
    have hfresh : r.key ∉ contents.map Content.key := by
      intro hmem
      exact (List.nodup_append.1 hnodup).2.2 _ hmem _ List.mem_cons_self rfl
    obtain ⟨d', hadd, hholds⟩ := h.add_of_fresh hfresh
    have hrest : ((contents ++ [r.content]).map Content.key ++ requests.map Request.key).Nodup := by
      rw [List.map_append, List.append_assoc]
      exact hnodup
    obtain ⟨d'', hfold, hholds'⟩ := ih hholds hrest
    refine ⟨d'', ?_, ?_⟩
    · rw [List.foldlM_cons, hadd]
      exact hfold
    · rw [List.append_assoc] at hholds'
      exact hholds'

theorem foldlM_add_empty {requests : List Request} (hnodup : (requests.map Request.key).Nodup) :
    ∃ d, requests.foldlM add .empty = .ok d ∧ d.Holds (requests.map Request.content) := by
  have hnodup' : (([] : List Content).map Content.key ++ requests.map Request.key).Nodup := by
    simpa using hnodup
  simpa using holds_empty.foldlM_add hnodup'

/-- An option that is named again, behind requests that name everything once, is refused. What
follows does not matter. -/
theorem foldlM_add_of_repeated {front rest : List Request} {r : Request} {key : Key}
    (hnodup : (front.map Request.key).Nodup) (hkey : r.key = some key)
    (hrepeated : some key ∈ front.map Request.key) :
    (front ++ r :: rest).foldlM add .empty = .error .repeatedArgument := by
  obtain ⟨d, hfold, hholds⟩ := foldlM_add_empty hnodup
  have hagain : some key ∈ (front.map Request.content).map Content.key := by
    rw [List.map_map]
    exact hrepeated
  rw [List.foldlM_append, hfold]
  show d.add r >>= _ = _
  rw [hholds.add_of_repeated hkey hagain]
  rfl

end Draft

/-! ### Configurations -/

/-- What has to be asked for to get a configuration. -/
def contents (config : Config) : List Content :=
  .file config.file.text ::
    ((if config.random then [.flag .random] else []) ++
      (if config.showGrammar then [.flag .showGrammar] else []) ++
      (config.seed.map (Content.quantity .seed)).toList ++
      (config.maxSteps.map (Content.quantity .maxSteps)).toList)

/-- The requests ask for a configuration, in whatever order and in whatever way they are written. -/
def Writes (requests : List Request) (config : Config) : Prop :=
  (requests.map Request.content).Perm (contents config)

variable {config : Config} {requests before after : List Request}

theorem nodup_key_contents (config : Config) : ((contents config).map Content.key).Nodup := by
  obtain ⟨file, random, seed, maxSteps, showGrammar⟩ := config
  cases random <;> cases showGrammar <;> cases seed <;> cases maxSteps <;>
    simp [contents, Content.key]

theorem Writes.nodup_key (h : Writes requests config) : (requests.map Request.key).Nodup := by
  have hkeys : requests.map Request.key = (requests.map Request.content).map Content.key := by
    rw [List.map_map]
    rfl
  rw [hkeys, (h.map Content.key).nodup_iff]
  exact nodup_key_contents config

/-- What a draft asks for that holds the contents of a configuration. -/
theorem Draft.Holds.config_eq {d : Draft} {held : List Content} (h : d.Holds held)
    (hperm : held.Perm (contents config)) :
    d.config = if config.seed.isSome && !config.random then .error .missingArgument
      else .ok config := by
  have hmem : ∀ c, c ∈ held ↔ c ∈ contents config := fun c => hperm.mem_iff
  have hfile : d.file = some config.file.text := by
    rw [h.file_iff, hmem]
    exact List.mem_cons_self
  have hrandom : d.flag .random = config.random := by
    rw [Bool.eq_iff_iff, h.flag_iff, hmem]
    cases hr : config.random <;> simp [contents, hr]
  have hshow : d.flag .showGrammar = config.showGrammar := by
    rw [Bool.eq_iff_iff, h.flag_iff, hmem]
    cases hs : config.showGrammar <;> simp [contents, hs]
  have hseed : d.quantity .seed = config.seed := by
    ext n
    rw [h.quantity_iff, hmem]
    simp [contents]
  have hmaxSteps : d.quantity .maxSteps = config.maxSteps := by
    ext n
    rw [h.quantity_iff, hmem]
    simp [contents]
  unfold Draft.config
  rw [hfile, hrandom, hshow, hseed, hmaxSteps]

/-- **A command line asks for what its requests mean.** Only a seed without random choices is
refused. -/
theorem Writes.parse_eq (h : Writes requests config) :
    parse (requests.flatMap Request.arguments) =
      if config.seed.isSome && !config.random then .error .missingArgument else .ok config := by
  have hnodup := h.nodup_key
  obtain ⟨d, hfold, hholds⟩ := Draft.foldlM_add_empty hnodup
  rw [parse_arguments (List.nodup_iff_count_le_one.1 hnodup none), hfold]
  exact hholds.config_eq h

/-- Without the request for random choices they are not asked for. -/
theorem Writes.of_removed {r : Request} (h : Writes (before ++ r :: after) config)
    (hr : r.content = .flag .random) :
    Writes (before ++ after) { config with random := false } := by
  have hmem : Content.flag .random ∈ contents config := by
    rw [← h.mem_iff, ← hr]
    exact List.mem_map_of_mem (by simp)
  have hrandom : config.random = true := by
    by_contra hnot
    simp [contents, hnot] at hmem
  have hmove : (contents config).Perm
      (.flag .random :: contents { config with random := false }) := by
    simpa [contents, hrandom] using List.Perm.swap _ _ _
  refine List.Perm.cons_inv (a := .flag .random) ?_
  refine List.Perm.trans ?_ (h.trans hmove)
  rw [List.map_append, List.map_append, List.map_cons, hr]
  exact List.perm_middle.symm

/-- A second request for an option is refused, in front of the first one or behind it. -/
theorem Writes.parse_of_repeated (h : Writes (before ++ after) config) {extra : Request} {key : Key}
    (hkey : extra.key = some key) (hrepeated : some key ∈ (before ++ after).map Request.key) :
    parse ((before ++ extra :: after).flatMap Request.arguments) = .error .repeatedArgument := by
  have hnodup := h.nodup_key
  have hfiles : ((before ++ extra :: after).map Request.key).count none ≤ 1 := by
    rw [(List.perm_middle.map Request.key).count_eq, List.map_cons, hkey,
      List.count_cons_of_ne (by simp)]
    exact List.nodup_iff_count_le_one.1 hnodup none
  have hfold : (before ++ extra :: after).foldlM Draft.add .empty = .error .repeatedArgument := by
    rw [List.map_append] at hrepeated
    rcases List.mem_append.1 hrepeated with hfront | hback
    · rw [List.map_append] at hnodup
      exact Draft.foldlM_add_of_repeated (List.nodup_append.1 hnodup).1 hkey hfront
    · -- the first request for the option comes later, so it is the second one now
      obtain ⟨r, hr, hrkey⟩ := List.mem_map.1 hback
      obtain ⟨middle, rest, rfl⟩ := List.append_of_mem hr
      have hfront : ((before ++ extra :: middle).map Request.key).Nodup := by
        rw [← List.append_assoc, List.map_append, List.map_cons, hrkey, List.nodup_middle,
          ← List.map_append] at hnodup
        rw [List.map_append, List.map_cons, hkey, List.nodup_middle, ← List.map_append]
        exact hnodup.sublist (((List.sublist_append_left _ rest).map Request.key).cons_cons _)
      have hshift : before ++ extra :: (middle ++ r :: rest) =
          (before ++ extra :: middle) ++ r :: rest := by simp
      rw [hshift]
      exact Draft.foldlM_add_of_repeated hfront hrkey (by simp [hkey])
  rw [parse_arguments hfiles, hfold]
  rfl

theorem Draft.random_of_config {d : Draft} (h : d.config = .ok config)
    (hseed : config.seed.isSome = true) : config.random = true := by
  unfold Draft.config at h
  split at h
  · cases h
  · split_ifs at h with hmissing
    cases h
    have hsome : (d.quantity .seed).isSome = true := hseed
    simpa [hsome] using hmissing

/-- What is accepted is what some draft asks for. -/
theorem exists_draft_of_parse {arguments : List String} (h : parse arguments = .ok config) :
    ∃ d : Draft, d.config = .ok config := by
  unfold parse at h
  cases hscan : arguments.foldlM Scan.feed .start with
  | error refusal => rw [hscan] at h; cases h
  | ok scan =>
    rw [hscan] at h
    change scan.settle >>= Draft.config = .ok config at h
    cases hsettle : scan.settle with
    | error refusal => rw [hsettle] at h; cases h
    | ok d =>
      rw [hsettle] at h
      exact ⟨d, h⟩

/-! ### The main statement -/

/-- **A command line means the same however it is written.** If it asks for a configuration, with
the file, the flags and the quantities in any order, with long or short names, and with values of
their own or attached ones, then it is parsed to this configuration, as long as a seed comes with
random choices. Without the request for random choices a seed is refused; and so is a second request
for an option, wherever it stands between the others. No command line is accepted that has a seed
without random choices. -/
theorem config_exact :
    (∀ requests config, Writes requests config →
      (config.seed.isSome = true → config.random = true) →
        parse (requests.flatMap Request.arguments) = .ok config) ∧
    (∀ before r after config, Writes (before ++ r :: after) config → r.content = .flag .random →
      config.seed.isSome = true →
        parse ((before ++ after).flatMap Request.arguments) = .error .missingArgument) ∧
    (∀ before extra after config key, Writes (before ++ after) config → extra.key = some key →
      some key ∈ (before ++ after).map Request.key →
        parse ((before ++ extra :: after).flatMap Request.arguments) = .error .repeatedArgument) ∧
    ∀ arguments config, parse arguments = .ok config → config.seed.isSome = true →
      config.random = true := by
  refine ⟨fun requests config h hseed => ?_, fun before r after config h hr hseed => ?_,
    fun before extra after config key h hkey hrepeated => h.parse_of_repeated hkey hrepeated,
    fun arguments config h hseed => ?_⟩
  · rw [h.parse_eq, if_neg]
    rw [Bool.and_eq_true, Bool.not_eq_true']
    rintro ⟨hsome, hrandom⟩
    rw [hseed hsome] at hrandom
    cases hrandom
  · rw [(h.of_removed hr).parse_eq, if_pos (by simpa using hseed)]
  · obtain ⟨d, hd⟩ := exists_draft_of_parse h
    exact Draft.random_of_config hd hseed

/-- The file `4`. -/
def fileFour : FileName := ⟨"4", '4', [], rfl, by decide⟩

/-- The largest word as a seed, attached to its short name; the file; and 20 steps behind their long
name. -/
def requested : List Request :=
  [.quantity .seed (.ofWord 18446744073709551615) .short true, .file fileFour,
    .quantity .maxSteps (.ofWord 20) .long false]

theorem config_exact_requested :
    parse ["-r", "-s18446744073709551615", "4", "--max-steps", "20"] =
        .ok ⟨⟨"4"⟩, true, some 18446744073709551615, some 20, false⟩ ∧
      parse ["-s18446744073709551615", "4", "--max-steps", "20"] = .error .missingArgument ∧
      parse ["-r", "-s18446744073709551615", "4", "--random", "--max-steps", "20"] =
        .error .repeatedArgument := by
  obtain ⟨hparse, hmissing, hrepeated, -⟩ := config_exact
  have hwrites : Writes ([] ++ .flag .random .short :: requested)
      ⟨⟨"4"⟩, true, some 18446744073709551615, some 20, false⟩ := by
    show List.Perm _ _
    decide
  refine ⟨hparse _ _ hwrites (by decide), hmissing _ _ _ _ hwrites rfl rfl, ?_⟩
  exact hrepeated _ (.flag .random .long) _ _ (.flag .random) hwrites rfl (by decide)

end CommandLine

end PhraseGrammar
