/-
  White space as Unicode defines it, and trimming.

  The values of device settings may be surrounded by any
  character with the Unicode property White_Space; the table
  below lists its twenty-five code points.

  Key definitions include:
    * `LightShow.Text.isBlank`
    * `LightShow.Text.trim`
    * `LightShow.Text.trimEnd`
-/

namespace LightShow

namespace Text

------------------------------------------------------------
-- The White Space Table
------------------------------------------------------------

/- The closed code point ranges of White_Space. -/
def blankRanges : List (Nat × Nat) :=
  [(0x09, 0x0D), (0x20, 0x20), (0x85, 0x85),
   (0xA0, 0xA0), (0x1680, 0x1680), (0x2000, 0x200A),
   (0x2028, 0x2029), (0x202F, 0x202F), (0x205F, 0x205F),
   (0x3000, 0x3000)]

/- The table has twenty-five code points. -/
example :
    (blankRanges.map fun r => r.2 + 1 - r.1).sum = 25 := by
  decide

/- Whether a character is white space. -/
def isBlank (c : Char) : Bool :=
  blankRanges.any fun (lo, hi) =>
    lo ≤ c.toNat && c.toNat ≤ hi

------------------------------------------------------------
-- Trimming
------------------------------------------------------------

/- Drop the white space at the end of a character list. -/
def dropBlankEnd (cs : List Char) : List Char :=
  (cs.reverse.dropWhile isBlank).reverse

/- Drop the white space at the end of a text. -/
def trimEnd (s : String) : String :=
  String.ofList (dropBlankEnd s.toList)

/- Drop the white space at both ends of a text. -/
def trim (s : String) : String :=
  String.ofList (dropBlankEnd (s.toList.dropWhile isBlank))

end Text

end LightShow
