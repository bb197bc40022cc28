/-
  Binary floating-point rounding in exact arithmetic.

  A number is a ratio of naturals here. Rounding it to
  fifty-three significant bits, ties to the even neighbour,
  gives the ratio that a double-precision operation yields
  for the same exact result; the numbers of this library
  stay far from the ends of the exponent range.

  Key definitions include:
    * `LightShow.Ratio`
    * `LightShow.Ratio.roundDiv`
    * `LightShow.Ratio.round53`
    * `LightShow.Ratio.tenths`
-/

namespace LightShow

/- A nonnegative ratio. -/
structure Ratio where
  num : Nat
  den : Nat
deriving DecidableEq, Repr

namespace Ratio

/- The nearest natural to `n / d`, a half to the even one. -/
def roundDiv (n d : Nat) : Nat :=
  let q := n / d
  let r := n % d
  if 2 * r < d then q
  else if d < 2 * r then q + 1
  else if q % 2 = 0 then q
  else q + 1

/- A natural as a ratio. -/
def ofNat (n : Nat) : Ratio := ⟨n, 1⟩

def mul (a b : Ratio) : Ratio :=
  ⟨a.num * b.num, a.den * b.den⟩

def div (a b : Ratio) : Ratio :=
  ⟨a.num * b.den, a.den * b.num⟩

/- Multiply by two to a power that may be negative. -/
def scale (a : Ratio) (e : Int) : Ratio :=
  ⟨a.num * Nat.pow 2 e.toNat, a.den * Nat.pow 2 (-e).toNat⟩

/-
  The power of two that brings a positive ratio into the
  numbers with fifty-three bits before the point.
-/
def shift (a : Ratio) : Int :=
  let e := 52 - ((a.num.log2 : Int) - (a.den.log2 : Int))
  let s := a.scale e
  if s.num < Nat.pow 2 52 * s.den then e + 1 else e

/- Round to fifty-three significant bits, ties to even. -/
def round53 (a : Ratio) : Ratio :=
  if a.num = 0 then ⟨0, 1⟩
  else
    let e := a.shift
    let s := a.scale e
    (ofNat (roundDiv s.num s.den)).scale (-e)

/- The text of a ratio with one decimal, ties to even. -/
def tenths (a : Ratio) : String :=
  let t := roundDiv (a.num * 10) a.den
  s!"{t / 10}.{t % 10}"

end Ratio

end LightShow
