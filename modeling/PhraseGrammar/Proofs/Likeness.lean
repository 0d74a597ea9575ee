import PhraseGrammar.Proofs.Choosers
import PhraseGrammar.Proofs.Mirroring
import PhraseGrammar.Proofs.Renaming

/-!
# Sessions that are alike

A run of a renamed grammar writes other texts than the run of the grammar itself, and it asks about
other alternatives. Its session has to take the one and to answer the other alike.

* `Renaming.Texts`: the texts that a run writes itself, with the texts of the renamed run;
* `Engine.Likened`: both sessions take these texts alike, and both choosers are asked alike;
* `Chooser.Alike`: two choosers give the same answers. A chooser that looks at nothing but the
  number of alternatives answers like itself (`Chooser.Counts.alike`);
* `Stream.TakeAlike`: two outputs take two texts alike. This is so for outputs that take all bytes
  (`takeAlike_of_unlimited`), and for outputs with the same room if both texts have the same number
  of bytes (`takeAlike_of_size`).

`Engine.likened_of_unlimited` and `Engine.likened_of_room` put these together.
-/

namespace PhraseGrammar

variable {σ τ : Type}

/-! ### What is written -/

/-- A text that is written about forms with new letters, and the text about the forms themselves. -/
inductive Renaming.Texts (ρ : Renaming) : String → String → Prop
  | form (f : Form) : Texts ρ (Trace.form (Form.rename ρ f)) (Trace.form f)
  | heading (f : Form) (start length : Nat) :
      Texts ρ (Trace.heading (Form.rename ρ f) start length) (Trace.heading f start length)
  | choice (start length : Nat) (chosen : Form) :
      Texts ρ (Trace.choice start length (Form.rename ρ chosen)) (Trace.choice start length chosen)
  | final (f : Form) : Texts ρ (Trace.final (Form.rename ρ f)) (Trace.final f)

theorem Trace.Line.texts {line : Form → String} (h : Line line) (ρ : Renaming) (f : Form) :
    ρ.Texts (line (Form.rename ρ f)) (line f) := by
  cases h with
  | form => exact .form f
  | heading start length => exact .heading f start length
  | choice start length => exact .choice start length f
  | final => exact .final f

namespace Engine

open PhraseGrammar.Action

/-- The two runs write alike and get the same answers: `c` when it is asked about the alternatives
of the grammar with new letters, and `c'` when it is asked about the alternatives themselves. -/
structure Likened (ρ : Renaming) (g : Grammar) (R : Session τ → Session σ → Prop) (c : Chooser τ)
    (c' : Chooser σ) : Prop where
  write {text text' : String} (h : ρ.Texts text text') :
    Mirrors R (Action.write text) (Action.write text')
  pick {r : Rule} (hr : r ∈ g.rules) :
    Mirrors R (c.pick (r.alternatives.map (Form.rename ρ))) (c'.pick r.alternatives)

end Engine

/-! ### Choosers and outputs -/

/-- Asked about the alternatives of a rule, with the new letters and with the old ones, the two
choosers give the same answer. -/
def Chooser.Alike (ρ : Renaming) (g : Grammar) (A : τ → σ → Prop) (c : Chooser τ)
    (c' : Chooser σ) : Prop :=
  ∀ r ∈ g.rules, ∀ x y, A x y →
    Option.Rel (fun p q => p.1 = q.1 ∧ A p.2 q.2)
      (c.answer (r.alternatives.map (Form.rename ρ)) x) (c'.answer r.alternatives y)

/-- The answer depends on the number of alternatives only. -/
def Chooser.Counts (c : Chooser σ) : Prop :=
  ∀ a b : List Form, a.length = b.length → c.answer a = c.answer b

namespace Chooser

theorem Counts.alike {c : Chooser σ} (h : c.Counts) (ρ : Renaming) (g : Grammar) :
    Alike ρ g Eq c c := by
  rintro r - x _ rfl
  rw [h _ r.alternatives (List.length_map _)]
  cases c.answer r.alternatives x with
  | none => exact .none
  | some p => exact .some ⟨rfl, rfl⟩

theorem counts_script : script.Counts := fun _ _ _ => rfl

theorem counts_console : console.Counts := by
  intro a b h
  funext input
  rw [answer_console, answer_console, h]

theorem counts_random (w : WordStream) : (random w).Counts := by
  intro a b h
  have hempty : a.isEmpty = b.isEmpty := by
    rw [Bool.eq_iff_iff, List.isEmpty_iff_length_eq_zero, List.isEmpty_iff_length_eq_zero, h]
  funext position
  simp only [random, hempty, h]

end Chooser

/-- Two texts are taken alike by related outputs, which are related afterwards. -/
def Stream.TakeAlike (O : Stream → Stream → Prop) (text text' : String) : Prop :=
  ∀ x y, O x y → (x.write text).1 = (y.write text').1 ∧ O (x.write text).2 (y.write text').2

/-- Both outputs have had room for so many bytes and have taken the same number of them. -/
structure Stream.SameRoom (room : Option Nat) (x y : Stream) : Prop where
  taken_eq : x.taken = y.taken
  refusal_eq : x.refusal = limit room
  refusal_eq' : y.refusal = limit room

/-- The states of the choosers are related, and the outputs are. -/
structure Session.Alike (A : τ → σ → Prop) (O : Stream → Stream → Prop) (s : Session τ)
    (t : Session σ) : Prop where
  chooser : A s.chooser t.chooser
  output : O s.output t.output

namespace Stream

theorem takeAlike_of_unlimited (text text' : String) :
    TakeAlike (fun x y => x.Unlimited ∧ y.Unlimited) text text' := by
  rintro x y ⟨hx, hy⟩
  refine ⟨by rw [hx.write_eq_ok, hy.write_eq_ok], ?_, ?_⟩
  · exact hx.of_extends (x.extends_write text)
  · exact hy.of_extends (y.extends_write text')

theorem limit_congr {b b' : ByteArray} (h : b.size = b'.size) (room : Option Nat) (taken : Nat) :
    limit room taken b = limit room taken b' := by
  cases room with
  | none => rfl
  | some room => simp only [limit, h]

theorem takeAlike_of_size {text text' : String} (h : text.utf8ByteSize = text'.utf8ByteSize)
    (room : Option Nat) : TakeAlike (SameRoom room) text text' := by
  rintro x y ⟨htaken, hx, hy⟩
  have hsize : text.toUTF8.size = text'.toUTF8.size := h
  have hempty : text.toUTF8.isEmpty = text'.toUTF8.isEmpty := congrArg (· == 0) hsize
  have hrefusal : x.refusal x.taken text.toUTF8 = y.refusal y.taken text'.toUTF8 := by
    rw [hx, hy, htaken, limit_congr hsize]
  unfold write writeBytes
  rw [hempty, hrefusal]
  split
  · exact ⟨rfl, congrArg₂ (· + ·) htaken hsize, hx, hy⟩
  · refine ⟨rfl, ?_, hx, hy⟩
    show x.taken + min _ _ = y.taken + min _ _
    rw [htaken, hsize]

end Stream

/-- A form takes as many bytes as before if its letters do. -/
theorem Form.utf8ByteSize_rename {ρ : Renaming}
    (hwidth : ∀ x : Symbol, (x.rename ρ).glyph.utf8Size = x.glyph.utf8Size) (f : Form) :
    (text (rename ρ f)).utf8ByteSize = (text f).utf8ByteSize := by
  induction f with
  | nil => rfl
  | cons x f ih =>
    have hcons : ∀ (y : Symbol) (f' : Form),
        (text (y :: f')).utf8ByteSize = y.glyph.utf8Size + (text f').utf8ByteSize := by
      intro y f'
      simp [text, spelling, String.ofList_cons]
    rw [rename_cons, hcons, hcons, ih, hwidth]

theorem Renaming.Texts.utf8ByteSize_eq {ρ : Renaming} {text text' : String}
    (h : ρ.Texts text text')
    (hwidth : ∀ x : Symbol, (x.rename ρ).glyph.utf8Size = x.glyph.utf8Size) :
    text.utf8ByteSize = text'.utf8ByteSize := by
  have hform := Form.utf8ByteSize_rename hwidth
  cases h with
  | form f => simp only [Trace.form, String.utf8ByteSize_append, hform]
  | heading f start length =>
    simp only [Trace.heading, Trace.form, String.utf8ByteSize_append, hform]
  | choice start length chosen => simp only [Trace.choice, String.utf8ByteSize_append, hform]
  | final f =>
    unfold Trace.final
    simp only [String.utf8ByteSize_append, hform]

/-! ### Sessions -/

namespace Engine

open PhraseGrammar.Action

variable {ρ : Renaming} {g : Grammar} {A : τ → σ → Prop} {O : Stream → Stream → Prop}
  {c : Chooser τ} {c' : Chooser σ}

theorem mirrors_write_of_takeAlike {text text' : String} (h : Stream.TakeAlike O text text') :
    Mirrors (Session.Alike A O) (Action.write text) (Action.write text') := by
  rintro s t ⟨hchooser, houtput⟩
  obtain ⟨hresult, hafter⟩ := h _ _ houtput
  simp only [Action.write, hresult]
  exact .done ⟨hchooser, hafter⟩

/-- Sessions are alike if their choosers and their outputs are. -/
theorem likened_of_alike (hanswer : Chooser.Alike ρ g A c c')
    (htext : ∀ text text', ρ.Texts text text' → Stream.TakeAlike O text text')
    (hprompt : ∀ r ∈ g.rules, Stream.TakeAlike O
      (c.prompt (r.alternatives.map (Form.rename ρ))) (c'.prompt r.alternatives)) :
    Likened ρ g (Session.Alike A O) c c' where
  write h := mirrors_write_of_takeAlike (htext _ _ h)
  pick {r} hr := by
    refine (mirrors_write_of_takeAlike (hprompt r hr)).bind fun _ => ?_
    rintro s t ⟨hchooser, houtput⟩
    have hrel := hanswer r hr _ _ hchooser
    unfold Action.ask
    generalize c.answer (r.alternatives.map (Form.rename ρ)) s.chooser = answer,
      c'.answer r.alternatives t.chooser = answer' at hrel
    cases hrel with
    | none => exact .waiting
    | @some p q h =>
      obtain ⟨result, after⟩ := p
      obtain ⟨_, after'⟩ := q
      obtain ⟨⟨⟩, hafter⟩ := h
      exact .done ⟨hafter, houtput⟩

/-- On outputs that take all bytes it does not matter what is written. -/
theorem likened_of_unlimited (hanswer : Chooser.Alike ρ g A c c') :
    Likened ρ g (Session.Alike A fun x y => x.Unlimited ∧ y.Unlimited) c c' :=
  likened_of_alike hanswer (fun text text' _ => Stream.takeAlike_of_unlimited text text')
    fun _ _ => Stream.takeAlike_of_unlimited _ _

/-- Outputs with the same room fail at the same time if every letter takes as many bytes as
before. -/
theorem likened_of_room (hanswer : Chooser.Alike ρ g A c c')
    (hwidth : ∀ x : Symbol, (x.rename ρ).glyph.utf8Size = x.glyph.utf8Size)
    (hprompt : ∀ r ∈ g.rules, (c.prompt (r.alternatives.map (Form.rename ρ))).utf8ByteSize =
      (c'.prompt r.alternatives).utf8ByteSize) (room : Option Nat) :
    Likened ρ g (Session.Alike A (Stream.SameRoom room)) c c' :=
  likened_of_alike hanswer
    (fun _ _ h => Stream.takeAlike_of_size (h.utf8ByteSize_eq hwidth) room)
    fun r hr => Stream.takeAlike_of_size (hprompt r hr) room

end Engine

end PhraseGrammar
