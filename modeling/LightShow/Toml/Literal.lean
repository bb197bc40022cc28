import LightShow.Text.Hex
import LightShow.Text.Letters
import LightShow.Text.Split
import LightShow.Toml.Value

/-
  TOML values that are written without quotes or brackets:
  truth values, integers, floats, dates and times.

  Digits may be grouped by single underscores, and a decimal
  number has no leading zero. Which numbers are too large is
  said apart from how they are written. Dates are checked
  against the calendar.

  Key definitions include:
    * `LightShow.Toml.Literal.integer?`
    * `LightShow.Toml.Literal.isFloat`
    * `LightShow.Toml.Literal.isInRange`
    * `LightShow.Toml.Literal.isDatetime`
    * `LightShow.Toml.Literal.value?`
-/

namespace LightShow

namespace Toml

namespace Literal

------------------------------------------------------------
-- Digits
------------------------------------------------------------

/-
  Drop the underscores of grouped digits. Every group has a
  digit, and nothing but digits.
-/
def ungroup?
    (isDigit : Char → Bool)
    (cs : List Char) : Option (List Char) :=
  let groups := Text.split '_' cs
  if groups.all fun g => !g.isEmpty && g.all isDigit then
    some groups.flatten
  else none

/- The digits of a whole number without leading zeros. -/
def whole? (cs : List Char) : Option (List Char) :=
  match ungroup? Char.isDigit cs with
  | some ('0' :: _ :: _) => none
  | other => other

/- A sign in front, true for minus, and what follows it. -/
def sign : List Char → Bool × List Char
  | '-' :: cs => (true, cs)
  | '+' :: cs => (false, cs)
  | cs => (false, cs)

/- A natural with its sign. -/
def withSign (negative : Bool) (n : Nat) : Int :=
  if negative then -(n : Int) else n

------------------------------------------------------------
-- Integers
------------------------------------------------------------

/- The integers of sixty-four bits with a sign. -/
def fits (n : Int) : Bool :=
  -9223372036854775808 ≤ n && n < 9223372036854775808

/- A decimal integer. -/
def decimal? (cs : List Char) : Option Int :=
  let (negative, body) := sign cs
  (whole? body).map fun ds =>
    withSign negative (Text.digitsValue ds)

/- Whether a character is a digit of a base up to sixteen. -/
def isDigitOf (base : Nat) (c : Char) : Bool :=
  (Text.hexValue? c).any (· < base)

/- The value of digits in a base, first digit first. -/
def valueIn (base : Nat) (ds : List Char) : Nat :=
  ds.foldl
    (fun n d => base * n + (Text.hexValue? d).getD 0) 0

/- An integer of a given base, after its marker. -/
def based? (base : Nat) (cs : List Char) : Option Int :=
  (ungroup? (isDigitOf base) cs).map fun ds =>
    (valueIn base ds : Int)

/- An integer, decimal or with the marker of a base. -/
def integer? (cs : List Char) : Option Int :=
  match cs with
  | '0' :: 'x' :: body => based? 16 body
  | '0' :: 'o' :: body => based? 8 body
  | '0' :: 'b' :: body => based? 2 body
  | _ => decimal? cs

------------------------------------------------------------
-- Floats
------------------------------------------------------------

/- The characters of grouped digits. -/
def isGroupChar (c : Char) : Bool :=
  c.isDigit || c == '_'

/-
  Whether `digits * 10 ^ exponent` is nearest to a double:
  it lies below the middle between the largest double and
  the power of two that follows it.
-/
def isFinite (digits : Nat) (exponent : Int) : Bool :=
  let order : Int := (Nat.toDigits 10 digits).length + exponent
  digits == 0 || order ≤ 308 ||
    order ≤ 309 &&
      digits * Nat.pow 10 exponent.toNat <
        (Nat.pow 2 1024 - Nat.pow 2 970) *
          Nat.pow 10 (-exponent).toNat

/- The fraction, if there is one, and what follows it. -/
def fraction? :
    List Char → Option (List Char × List Char)
  | '.' :: cs =>
      (ungroup? Char.isDigit (cs.takeWhile isGroupChar)).map
        fun ds => (ds, cs.dropWhile isGroupChar)
  | cs => some ([], cs)

/- The exponent at the end, zero where there is none. -/
def exponent? : List Char → Option Int
  | [] => some 0
  | c :: cs =>
      if c = 'e' ∨ c = 'E' then
        let (negative, body) := sign cs
        (ungroup? Char.isDigit body).map fun ds =>
          withSign negative (Text.digitsValue ds)
      else none

/- A number with a fraction or exponent, without sign: its
   digits and the power of ten that they count. -/
def scientific? (cs : List Char) : Option (Nat × Int) := do
  let tail := cs.dropWhile isGroupChar
  let whole ← whole? (cs.takeWhile isGroupChar)
  let (fraction, rest) ← fraction? tail
  let exponent ← exponent? rest
  if tail.isEmpty then none
  else
    some (Text.digitsValue (whole ++ fraction),
      exponent - fraction.length)

/- Whether a literal stands for no number of its own. -/
def isSpecial (cs : List Char) : Bool :=
  cs == ['i', 'n', 'f'] || cs == ['n', 'a', 'n']

/- Whether a literal is a float. -/
def isFloat (cs : List Char) : Bool :=
  let body := (sign cs).2
  isSpecial body || (scientific? body).isSome

/- Whether a float is not too large for double precision. -/
def isInRange (cs : List Char) : Bool :=
  let body := (sign cs).2
  isSpecial body ||
    (scientific? body).any fun (digits, exponent) =>
      isFinite digits exponent

------------------------------------------------------------
-- Dates And Times
------------------------------------------------------------

/- Whether a year has a leap day. -/
def isLeapYear (year : Nat) : Bool :=
  year % 4 == 0 && (year % 100 != 0 || year % 400 == 0)

/- The number of days in a month, zero for no month. -/
def daysIn (year month : Nat) : Nat :=
  match month with
  | 2 => if isLeapYear year then 29 else 28
  | 4 | 6 | 9 | 11 => 30
  | 1 | 3 | 5 | 7 | 8 | 10 | 12 => 31
  | _ => 0

/- A number of two digits, and what follows it. -/
def twoDigits? : List Char → Option (Nat × List Char)
  | a :: b :: cs =>
      if a.isDigit && b.isDigit then
        some (Text.digitsValue [a, b], cs)
      else none
  | _ => none

/- A number of two digits after a mark. -/
def twoAfter?
    (mark : Char) :
    List Char → Option (Nat × List Char)
  | [] => none
  | c :: cs => if c = mark then twoDigits? cs else none

/- What follows a date of the calendar. -/
def afterDate? (cs : List Char) : Option (List Char) := do
  let (century, cs) ← twoDigits? cs
  let (year, cs) ← twoDigits? cs
  let (month, cs) ← twoAfter? '-' cs
  let (day, cs) ← twoAfter? '-' cs
  if 1 ≤ day ∧ day ≤ daysIn (100 * century + year) month then
    some cs
  else none

/- What follows a fraction of a second, if there is one. -/
def afterSubsecond? : List Char → Option (List Char)
  | '.' :: cs =>
      if (cs.takeWhile Char.isDigit).isEmpty then none
      else some (cs.dropWhile Char.isDigit)
  | cs => some cs

/- What follows the seconds, if there are any. -/
def afterSeconds? (cs : List Char) : Option (List Char) :=
  match cs with
  | ':' :: body => do
      let (second, rest) ← twoDigits? body
      if second ≤ 60 then afterSubsecond? rest else none
  | _ => some cs

/- What follows hours and minutes. -/
def afterMinutes? (cs : List Char) : Option (List Char) := do
  let (hour, cs) ← twoDigits? cs
  let (minute, cs) ← twoAfter? ':' cs
  if hour ≤ 23 ∧ minute ≤ 59 then some cs else none

/- What follows a time of the day. -/
def afterTime? (cs : List Char) : Option (List Char) := do
  afterSeconds? (← afterMinutes? cs)

/- Whether characters are a distance from universal time,
   or nothing. -/
def isOffset : List Char → Bool
  | [] => true
  | c :: cs =>
      if c = 'Z' ∨ c = 'z' then cs.isEmpty
      else (c == '+' || c == '-') && afterMinutes? cs == some []

/- Whether a literal is a date, a time, or both. -/
def isDatetime (cs : List Char) : Bool :=
  match afterDate? cs with
  | none => afterTime? cs == some []
  | some [] => true
  | some (c :: rest) =>
      (c == 'T' || c == 't' || c == ' ') &&
        (afterTime? rest).any isOffset

------------------------------------------------------------
-- Literals
------------------------------------------------------------

/- The value of a literal. -/
def value? (cs : List Char) : Option Value :=
  if cs = "true".toList then some (.boolean true)
  else if cs = "false".toList then some (.boolean false)
  else
    match integer? cs with
    | some n => some (.integer n)
    | none =>
        if isFloat cs then some (.float (String.ofList cs))
        else if isDatetime cs then
          some (.datetime (String.ofList cs))
        else none

/- The characters of literals. -/
def isLiteralChar (c : Char) : Bool :=
  c.isAlphanum || c == '+' || c == '-' || c == '_' ||
    c == '.' || c == ':'

/-
  A literal and what follows it. One blank may divide the
  date from the time.
-/
def next (cs : List Char) : List Char × List Char :=
  let run := cs.takeWhile isLiteralChar
  match cs.dropWhile isLiteralChar with
  | ' ' :: d :: rest =>
      if d.isDigit && afterDate? run == some [] then
        (run ++ ' ' :: (d :: rest).takeWhile isLiteralChar,
          (d :: rest).dropWhile isLiteralChar)
      else (run, ' ' :: d :: rest)
  | rest => (run, rest)

end Literal

end Toml

end LightShow
