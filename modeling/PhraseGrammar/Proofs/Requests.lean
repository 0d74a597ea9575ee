import PhraseGrammar.CommandLine
import PhraseGrammar.Proofs.Numerals

/-!
# Requests on a command line

A command line is a row of requests, each with a meaning and a way to write it. The arguments are
taken one by one, and what was named last stays pending for a while; but at the end they come to
what the requests come to when they are settled one after another.

* `Value`, `FileName`: what may follow an option, and what may be given as the file;
* `Request`, `Request.arguments`, `Request.content`: a request, its arguments and its meaning;
* `Scan.IsBetween`: no value is awaited, so the next request may begin. `foldlM_feed` says what a
  request does then, whichever way it is written;
* `Draft.add`: settles a request. `parse_arguments` ties it to the arguments.
-/

namespace PhraseGrammar

namespace CommandLine

/-! ### Requests -/

/-- A numeral that stands for a 64-bit word. -/
structure Value where
  text : String
  number : Nat
  word?_eq : Numeral.word? text.toList = some number

/-- A file name: it is not empty, and does not begin with a dash. -/
structure FileName where
  text : String
  exists_cons : ∃ c rest, text.toList = c :: rest ∧ c ≠ '-'

/-- An option is written with its long or its short name. -/
inductive Style
  | long
  | short

/-- What is asked for in one place of a command line, and how it is written. The value of a quantity
follows as an argument of its own, or it is attached. -/
inductive Request
  | file (name : FileName)
  | flag (f : Flag) (style : Style)
  | quantity (q : Quantity) (value : Value) (style : Style) (attached : Bool)

/-- The long name of a flag. -/
def Flag.long : Flag → List Char
  | .random => "random".toList
  | .showGrammar => "show-grammar".toList

/-- The short name of a flag. -/
def Flag.short : Flag → Char
  | .random => 'r'
  | .showGrammar => 'g'

/-- The long name of a quantity. -/
def Quantity.long : Quantity → List Char
  | .seed => "seed".toList
  | .maxSteps => "max-steps".toList

/-- The short name of a quantity. -/
def Quantity.short : Quantity → Char
  | .seed => 's'
  | .maxSteps => 'm'

/-- What a request means, without the way it is written. -/
inductive Content
  | file (name : String)
  | flag (f : Flag)
  | quantity (q : Quantity) (number : Nat)
  deriving DecidableEq

/-- The option that is named, or none if it is the file. -/
def Content.key : Content → Option Key
  | file _ => none
  | flag f => some (.flag f)
  | quantity q _ => some (.quantity q)

namespace Request

/-- The arguments that a request is written as. -/
def arguments : Request → List String
  | file name => [name.text]
  | flag f .long => [String.ofList ('-' :: '-' :: f.long)]
  | flag f .short => [String.ofList ['-', f.short]]
  | quantity q v .long false => [String.ofList ('-' :: '-' :: q.long), v.text]
  | quantity q v .long true => [String.ofList ('-' :: '-' :: (q.long ++ '=' :: v.text.toList))]
  | quantity q v .short false => [String.ofList ['-', q.short], v.text]
  | quantity q v .short true => [String.ofList ('-' :: q.short :: v.text.toList)]

/-- The meaning of a request. -/
def content : Request → Content
  | file name => .file name.text
  | flag f _ => .flag f
  | quantity q v _ _ => .quantity q v.number

/-- The option that a request names, or none if it is the file. -/
def key (r : Request) : Option Key := r.content.key

end Request

/-- The numeral of a 64-bit word, without sign and leading zeros. -/
def Value.ofWord (n : UInt64) : Value where
  text := n.toNat.repr
  number := n.toNat
  word?_eq := Numeral.word?_eq_some_iff.2
    ⟨Numeral.denotes_repr n.toNat, n.toNat_lt_size⟩

/-- A numeral begins neither like an option nor like an attached value. -/
theorem Value.exists_cons (v : Value) :
    ∃ c rest, v.text.toList = c :: rest ∧ c ≠ '-' ∧ c ≠ '=' := by
  obtain ⟨⟨sign, ds, htext, hsign, hne, hdigits, -⟩, -⟩ :=
    Numeral.word?_eq_some_iff.1 v.word?_eq
  rcases hsign with rfl | rfl
  · obtain ⟨c, rest, rfl⟩ := List.exists_cons_of_ne_nil hne
    have hc := hdigits c List.mem_cons_self
    refine ⟨c, rest, htext, ?_, ?_⟩ <;> rintro rfl <;> cases hc
  · exact ⟨'+', ds, htext, by decide, by decide⟩

/-! ### Scanning -/

/-- Settles a request. -/
def Draft.add (d : Draft) : Request → Except Refusal Draft
  | .file name => d.setFile name.text
  | .flag f _ => d.setFlag f
  | .quantity q v _ _ => d.setQuantity q v.text.toList

/-- The scan when nothing is pending. -/
def Scan.settled (d : Draft) : Scan := ⟨d, .nothing, false⟩

/-- The scan after a request, when what was pending before it has been settled. Its own file or
value stays pending if it stands alone. -/
def Request.scan (r : Request) (d : Draft) : Except Refusal Scan :=
  match r with
  | .file name => .ok ⟨d, .file name.text, false⟩
  | .flag f _ => (d.setFlag f).map .settled
  | .quantity q v _ false => .ok ⟨d, .given q v.text, false⟩
  | .quantity q v _ true => (d.setQuantity q v.text.toList).map .settled

namespace Scan

variable {s t : Scan} {d : Draft}

/-- A request may begin here: options are understood, and no value is awaited. -/
structure IsBetween (s : Scan) : Prop where
  filesOnly_eq : s.filesOnly = false
  pending_ne : ∀ q, s.pending ≠ .awaited q

theorem isBetween_start : start.IsBetween := ⟨rfl, fun _ => nofun⟩

theorem file_of_setQuantity {q : Quantity} {value : List Char} {d' : Draft}
    (h : d.setQuantity q value = .ok d') : d'.file = d.file := by
  unfold Draft.setQuantity at h
  split_ifs at h
  split at h
  · cases h
  · cases h
    rfl

theorem file_of_setFlag {f : Flag} {d' : Draft} (h : d.setFlag f = .ok d') : d'.file = d.file := by
  unfold Draft.setFlag at h
  split_ifs at h
  cases h
  rfl

/-- The file has been named if it is there when all is settled. -/
theorem hasFile_of_settle (h : s.settle = .ok d) : s.hasFile = d.file.isSome := by
  obtain ⟨draft, pending, filesOnly⟩ := s
  cases pending with
  | nothing =>
    cases h
    exact Bool.or_false _
  | file name =>
    unfold settle Draft.setFile at h
    dsimp only at h
    split_ifs at h
    cases h
    exact Bool.or_true _
  | awaited q => cases h
  | given q value =>
    have hfile := file_of_setQuantity h
    rw [hfile]
    exact Bool.or_false _

/-! ### Single arguments -/

theorem feed_long (h : s.filesOnly = false) {text : List Char} (hne : text ≠ []) :
    s.feed (String.ofList ('-' :: '-' :: text)) = s.takeLong text := by
  obtain ⟨c, rest, rfl⟩ := List.exists_cons_of_ne_nil hne
  unfold feed
  rw [h, String.toList_ofList]
  rfl

theorem feed_short (h : s.filesOnly = false) {c : Char} (hc : c ≠ '-') (rest : List Char) :
    s.feed (String.ofList ('-' :: c :: rest)) = s.takeShort (c :: rest) := by
  unfold feed
  rw [h, String.toList_ofList]
  simp [hc]

theorem feed_file (h : s.IsBetween) (name : FileName) :
    s.feed name.text = s.takeFile name.text := by
  obtain ⟨c, rest, htext, hc⟩ := name.exists_cons
  unfold feed
  rw [h.filesOnly_eq, htext]
  cases hpending : s.pending with
  | awaited q => exact absurd hpending (h.pending_ne q)
  | nothing => simp [hc]
  | file name => simp [hc]
  | given q value => simp [hc]

theorem feed_value (q : Quantity) (v : Value) :
    feed ⟨d, .awaited q, false⟩ v.text = .ok ⟨d, .given q v.text, false⟩ := by
  obtain ⟨c, rest, htext, hc, -⟩ := v.exists_cons
  unfold feed
  rw [htext]
  simp [hc]

theorem takeLong_flag (s : Scan) (f : Flag) : s.takeLong f.long = s.takeKey (.flag f) := by
  cases f <;> rfl

theorem takeLong_quantity (s : Scan) (q : Quantity) :
    s.takeLong q.long = s.takeKey (.quantity q) := by
  cases q <;> rfl

theorem takeLong_attached (s : Scan) (q : Quantity) (value : List Char) :
    s.takeLong (q.long ++ '=' :: value) = s.takeAttached q value := by
  cases q <;> rfl

theorem takeShort_flag (s : Scan) (f : Flag) : s.takeShort [f.short] = s.takeKey (.flag f) := by
  cases f <;> exact bind_pure _

theorem takeShort_quantity (s : Scan) (q : Quantity) :
    s.takeShort [q.short] = s.takeKey (.quantity q) := by
  cases q <;> exact bind_pure _

theorem takeShort_attached (s : Scan) (q : Quantity) {c : Char} (hc : c ≠ '=') (rest : List Char) :
    s.takeShort (q.short :: c :: rest) = s.takeAttached q (c :: rest) := by
  cases q <;> simp [takeShort, Quantity.short, Key.ofShort?]

/-! ### Requests -/

theorem takeKey_flag (h : s.filesOnly = false) (f : Flag) :
    s.takeKey (.flag f) =
      s.settle >>= fun d => (d.setFlag f).map settled := by
  unfold takeKey resume
  rw [h]
  cases s.settle with
  | error refusal => rfl
  | ok d => cases d.setFlag f <;> rfl

theorem takeAttached_eq (h : s.filesOnly = false) (q : Quantity) (value : List Char) :
    s.takeAttached q value =
      s.settle >>= fun d => (d.setQuantity q value).map settled := by
  unfold takeAttached resume
  rw [h]
  cases s.settle with
  | error refusal => rfl
  | ok d => cases d.setQuantity q value <;> rfl

/-- A quantity whose value stands alone: the name leaves the value awaited, and the value comes. -/
theorem takeKey_quantity_bind (h : s.filesOnly = false) (q : Quantity) (v : Value) :
    (s.takeKey (.quantity q) >>= fun t => t.feed v.text) =
      s.settle >>= fun d => .ok ⟨d, .given q v.text, false⟩ := by
  unfold takeKey
  rw [h]
  cases s.settle with
  | error refusal => rfl
  | ok d => exact feed_value q v

theorem foldlM_feed_file (h : s.IsBetween) (name : FileName) (hfile : s.hasFile = false) :
    (Request.file name).arguments.foldlM feed s = s.settle >>= (Request.file name).scan := by
  have hname : s.takeFile name.text = s.settle >>= fun d => .ok ⟨d, .file name.text, false⟩ := by
    unfold takeFile
    rw [hfile, h.filesOnly_eq]
    rfl
  simp only [Request.arguments, List.foldlM_cons, List.foldlM_nil, bind_pure, feed_file h, hname]
  rfl

theorem foldlM_feed_flag (h : s.filesOnly = false) (f : Flag) (style : Style) :
    (Request.flag f style).arguments.foldlM feed s =
      s.settle >>= (Request.flag f style).scan := by
  cases style with
  | long =>
    have hne : f.long ≠ [] := by cases f <;> decide
    simp only [Request.arguments, List.foldlM_cons, List.foldlM_nil, bind_pure, feed_long h hne,
      takeLong_flag, takeKey_flag h]
    rfl
  | short =>
    have hc : f.short ≠ '-' := by cases f <;> decide
    simp only [Request.arguments, List.foldlM_cons, List.foldlM_nil, bind_pure, feed_short h hc,
      takeShort_flag, takeKey_flag h]
    rfl

theorem foldlM_feed_quantity (h : s.filesOnly = false) (q : Quantity) (v : Value) (style : Style)
    (attached : Bool) :
    (Request.quantity q v style attached).arguments.foldlM feed s =
      s.settle >>= (Request.quantity q v style attached).scan := by
  have hlong : q.long ≠ [] := by cases q <;> decide
  have hshort : q.short ≠ '-' := by cases q <;> decide
  rcases style with _ | _ <;> rcases attached with _ | _
  · simp only [Request.arguments, List.foldlM_cons, List.foldlM_nil, bind_pure, feed_long h hlong,
      takeLong_quantity, takeKey_quantity_bind h]
    rfl
  · simp only [Request.arguments, List.foldlM_cons, List.foldlM_nil, bind_pure,
      feed_long h (List.append_ne_nil_of_left_ne_nil hlong _), takeLong_attached,
      takeAttached_eq h]
    rfl
  · simp only [Request.arguments, List.foldlM_cons, List.foldlM_nil, bind_pure,
      feed_short h hshort, takeShort_quantity, takeKey_quantity_bind h]
    rfl
  · obtain ⟨c, rest, htext, -, hc⟩ := v.exists_cons
    simp only [Request.arguments, List.foldlM_cons, List.foldlM_nil, bind_pure,
      feed_short h hshort, htext, takeShort_attached s q hc, takeAttached_eq h]
    rw [← htext]
    rfl

/-- **What a request does**, when it may begin and there is no other file: what is pending is
settled, and then the request is taken. -/
theorem foldlM_feed (h : s.IsBetween) (r : Request) (hfile : r.key = none → s.hasFile = false) :
    r.arguments.foldlM feed s = s.settle >>= r.scan := by
  cases r with
  | file name => exact foldlM_feed_file h name (hfile rfl)
  | flag f style => exact foldlM_feed_flag h.filesOnly_eq f style
  | quantity q v style attached => exact foldlM_feed_quantity h.filesOnly_eq q v style attached

/-- What a request leaves pending is settled as the request. -/
theorem settle_scan (r : Request) (d : Draft) : r.scan d >>= settle = d.add r := by
  have hsettled : ∀ drafted : Except Refusal Draft, drafted.map settled >>= settle = drafted := by
    rintro (refusal | d) <;> rfl
  rcases r with name | ⟨f, style⟩ | ⟨q, v, style, _ | _⟩
  · rfl
  · exact hsettled _
  · rfl
  · exact hsettled _

theorem exists_of_map_settled {drafted : Except Refusal Draft} (h : drafted.map settled = .ok t) :
    ∃ d, drafted = .ok d ∧ t = settled d := by
  cases drafted with
  | error refusal => cases h
  | ok d =>
    cases h
    exact ⟨d, rfl, rfl⟩

/-- After a request the next one may begin, and if the file has been named then before it or by
it. -/
theorem isBetween_of_scan {r : Request} (h : r.scan d = .ok t) :
    t.IsBetween ∧ (t.hasFile = true → d.file.isSome = true ∨ r.key = none) := by
  rcases r with name | ⟨f, style⟩ | ⟨q, v, style, _ | _⟩
  · cases h
    exact ⟨⟨rfl, fun _ => nofun⟩, fun _ => .inr rfl⟩
  · obtain ⟨d', hd', rfl⟩ := exists_of_map_settled h
    rw [← file_of_setFlag hd']
    exact ⟨⟨rfl, fun _ => nofun⟩, fun hfile => .inl (by simpa [settled, hasFile] using hfile)⟩
  · cases h
    exact ⟨⟨rfl, fun _ => nofun⟩, fun hfile => .inl (by simpa [hasFile] using hfile)⟩
  · obtain ⟨d', hd', rfl⟩ := exists_of_map_settled h
    rw [← file_of_setQuantity hd']
    exact ⟨⟨rfl, fun _ => nofun⟩, fun hfile => .inl (by simpa [settled, hasFile] using hfile)⟩

/-- Scanning requests and then settling what is pending comes to the same as settling what is
pending and then the requests one by one. -/
theorem foldlM_feed_settle {requests : List Request} (h : s.IsBetween)
    (hfiles : (requests.map Request.key).count none ≤ if s.hasFile then 0 else 1) :
    (requests.flatMap Request.arguments).foldlM feed s >>= settle =
      s.settle >>= requests.foldlM Draft.add := by
  induction requests generalizing s with
  | nil => exact (bind_pure _).symm
  | cons r requests ih =>
    rw [List.map_cons, List.count_cons] at hfiles
    have hfile : r.key = none → s.hasFile = false := by
      intro hr
      by_contra hs
      rw [Bool.not_eq_false] at hs
      simp [hr, hs] at hfiles
    rw [List.flatMap_cons, List.foldlM_append, foldlM_feed h r hfile]
    cases hsettle : s.settle with
    | error refusal => rfl
    | ok d =>
      have hadd : (Except.ok d >>= (r :: requests).foldlM Draft.add) =
          r.scan d >>= settle >>= requests.foldlM Draft.add := by
        rw [settle_scan]
        rfl
      rw [hadd]
      cases hscan : r.scan d with
      | error refusal =>
        show (r.scan d >>= _) >>= _ = _
        rw [hscan]
        rfl
      | ok t =>
        show (r.scan d >>= _) >>= _ = _
        rw [hscan]
        obtain ⟨hbetween, hnamed⟩ := isBetween_of_scan hscan
        refine ih hbetween ?_
        rw [hasFile_of_settle hsettle] at hfiles
        by_cases hnow : t.hasFile = true
        · rw [if_pos hnow]
          rcases hnamed hnow with hbefore | hr
          · rw [if_pos hbefore] at hfiles
            omega
          · rw [if_pos (by simp [hr])] at hfiles
            split_ifs at hfiles <;> omega
        · rw [if_neg hnow]
          split_ifs at hfiles <;> omega

end Scan

/-- **What a command line comes to** is what its requests come to when they are settled one by one,
as long as there is at most one file. -/
theorem parse_arguments {requests : List Request}
    (hfiles : (requests.map Request.key).count none ≤ 1) :
    parse (requests.flatMap Request.arguments) =
      requests.foldlM Draft.add .empty >>= Draft.config := by
  have hsettle : (requests.flatMap Request.arguments).foldlM Scan.feed .start >>= Scan.settle =
      Scan.start.settle >>= requests.foldlM Draft.add :=
    Scan.foldlM_feed_settle Scan.isBetween_start hfiles
  calc parse (requests.flatMap Request.arguments)
      = (requests.flatMap Request.arguments).foldlM Scan.feed .start >>= Scan.settle >>=
          Draft.config := (bind_assoc _ _ _).symm
    _ = requests.foldlM Draft.add .empty >>= Draft.config := by
        rw [hsettle]
        rfl

end CommandLine

end PhraseGrammar
