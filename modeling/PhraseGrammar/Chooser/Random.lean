import PhraseGrammar.Chooser
import PhraseGrammar.Random.Uniform

/-!
# Choosing at random

* `Chooser.random`: draws the index from a stream of words. The state is the position of the next
  word.
-/

namespace PhraseGrammar

/-- Draws an index with words of a stream. Without alternatives there is nothing to draw, and no
word is taken. -/
def Chooser.random (w : WordStream) : Chooser Nat where
  prompt _ := ""
  answer alternatives position :=
    if alternatives.isEmpty then some (.error .emptyAlternatives, position)
    else (w.draw alternatives.length position).map fun (index, next) => (.ok index, next)

end PhraseGrammar
