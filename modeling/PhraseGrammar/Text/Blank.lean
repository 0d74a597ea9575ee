/-!
# Blank characters

The characters that Unicode calls white space, and the trimming of text by them.

* `Blank.codes`: the white space characters by code point;
* `isBlank`, `trim`.
-/

namespace PhraseGrammar

/-- The code points with the Unicode property `White_Space`. -/
def Blank.codes : List Nat :=
  [0x9, 0xA, 0xB, 0xC, 0xD, 0x20, 0x85, 0xA0, 0x1680, 0x2000, 0x2001, 0x2002, 0x2003, 0x2004,
    0x2005, 0x2006, 0x2007, 0x2008, 0x2009, 0x200A, 0x2028, 0x2029, 0x202F, 0x205F, 0x3000]

/-- Whether a character is white space. -/
def isBlank (c : Char) : Bool := Blank.codes.contains c.toNat

/-- Text without the white space at its two ends. -/
def trim (text : List Char) : List Char :=
  ((text.dropWhile isBlank).reverse.dropWhile isBlank).reverse

@[simp] theorem trim_nil : trim [] = [] := rfl

end PhraseGrammar
