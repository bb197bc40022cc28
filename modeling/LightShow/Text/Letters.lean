/-
  Letters, digits and word characters of scripts.

  Scripts are written in ASCII outside strings and comments,
  so every class here is an ASCII class: a letter with an
  accent is no word character, and lowering leaves it alone.

  Key definitions include:
    * `LightShow.Text.lower`
    * `LightShow.Text.isWordStart`
    * `LightShow.Text.isWordChar`
    * `LightShow.Text.digitsValue`
-/

namespace LightShow

namespace Text

------------------------------------------------------------
-- Character Classes
------------------------------------------------------------

/- The characters that may start a word. -/
def isWordStart (c : Char) : Bool :=
  c.isAlpha || c == '_'

/- The characters that may continue a word. -/
def isWordChar (c : Char) : Bool :=
  c.isAlphanum || c == '_'

/- The horizontal blanks between the tokens of a line. -/
def isGap (c : Char) : Bool :=
  c == ' ' || c == '\t' || c == '\r'

------------------------------------------------------------
-- Lowering And Numerals
------------------------------------------------------------

/- Replace the ASCII capitals of a text by small letters. -/
def lower (s : String) : String :=
  String.ofList (s.toList.map Char.toLower)

/- The value of a run of decimal digits, first digit first. -/
def digitsValue (ds : List Char) : Nat :=
  ds.foldl (fun n d => 10 * n + (d.toNat - '0'.toNat)) 0

/- A text that is put into another one. -/
theorem toString_eq_self
    (s : String) :
    toString s = s :=
  rfl

end Text

end LightShow
