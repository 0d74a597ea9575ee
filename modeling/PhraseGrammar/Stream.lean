import PhraseGrammar.Fault

/-!
# Output

* `Stream`: an output, with the bytes that have been written to it. It need not take every byte
  that is offered, and may fail at any time and with any fault;
* `Stream.limit`, `Stream.empty`: an output with room for any number of bytes, or for so many. What
  does not fit is cut off at the last byte that does, and the output is full from then on;
* `Stream.write`: writes text;
* `Stream.drain`: takes the written bytes out. What the output takes is the same as before.
-/

namespace PhraseGrammar

/-- An output. The bytes that it has taken stay in `written` until they are drained, and `taken`
counts them all. When so many have been taken and certain bytes are offered, `refusal` says whether
the output fails: how many of these bytes it takes even so, and the fault. -/
structure Stream where
  written : ByteArray
  taken : Nat
  refusal : Nat → ByteArray → Option (Nat × Fault)

namespace Stream

/-- When an output refuses bytes that has room for so many, or for any number. -/
def limit : Option Nat → Nat → ByteArray → Option (Nat × Fault)
  | none, _, _ => none
  | some room, taken, bytes =>
    if taken + bytes.size ≤ room then none else some (room - taken, .outputFull)

/-- An output that nothing has been written to. -/
def empty (room : Option Nat) : Stream := ⟨.empty, 0, limit room⟩

/-- Writes bytes. Writing nothing never fails. -/
def writeBytes (s : Stream) (bytes : ByteArray) : Except Fault Unit × Stream :=
  match if bytes.isEmpty then none else s.refusal s.taken bytes with
  | none => (.ok (), ⟨s.written ++ bytes, s.taken + bytes.size, s.refusal⟩)
  | some (n, fault) =>
    (.error fault, ⟨s.written ++ bytes.extract 0 n, s.taken + min n bytes.size, s.refusal⟩)

/-- Writes text. -/
def write (s : Stream) (text : String) : Except Fault Unit × Stream := s.writeBytes text.toUTF8

/-- The bytes written so far, and the output without them. -/
def drain (s : Stream) : ByteArray × Stream := (s.written, { s with written := .empty })

end Stream

end PhraseGrammar
