/-
  Ranges of LED numbers.

  An LED list is a sequence of ranges that may overlap. It
  names each number once, in order of first mention.

  Key definitions include:
    * `LightShow.LedRange`
    * `LightShow.LedRange.numbers`
-/

namespace LightShow

/- One item of an LED list: all numbers from first to last. -/
structure LedRange where
  first : Nat
  last : Nat
deriving DecidableEq, Repr

namespace LedRange

/- Whether an item covers an LED. -/
def covers (r : LedRange) (led : Nat) : Bool :=
  r.first ≤ led && led ≤ r.last

/- The numbers of an item, ascending. -/
def toList (r : LedRange) : List Nat :=
  List.range' r.first (r.last + 1 - r.first)

/-
  The numbers that a list of items covers, each once, in
  order of first mention. `earlier` are the items before.
-/
def numbersAfter (earlier : List LedRange) :
    List LedRange → List Nat
  | [] => []
  | r :: rs =>
      (r.toList.filter fun n => !earlier.any (·.covers n)) ++
        numbersAfter (r :: earlier) rs

/- The numbers that a list of items covers. -/
def numbers (rs : List LedRange) : List Nat :=
  numbersAfter [] rs

end LedRange

end LightShow
