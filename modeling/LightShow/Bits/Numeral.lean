import LightShow.Bits.Field

/-
  Numbers of a fixed width.

  A field is a number below two to the power of its width,
  and every operation on fields has a counterpart on such
  numbers that knows nothing of single bits: an operation
  gives no number where the field has no room for the result.

  Key definitions include:
    * `LightShow.Numeral`
    * `LightShow.Numeral.set?`
    * `LightShow.Numeral.setFlag?`
    * `LightShow.Numeral.append`
    * `LightShow.Numeral.insertAt?`
-/

namespace LightShow

/- A number that has room in a width. -/
@[ext]
structure Numeral where
  width : Nat
  value : Nat
  value_lt : value < Nat.pow 2 width

namespace Numeral

------------------------------------------------------------
-- Making Numbers
------------------------------------------------------------

/- Zero. -/
def zeros (width : Nat) : Numeral where
  width := width
  value := 0
  value_lt := Nat.two_pow_pos width

/- The largest number of a width. -/
def ones (width : Nat) : Numeral where
  width := width
  value := Nat.pow 2 width - 1
  value_lt :=
    Nat.sub_one_lt (Nat.ne_of_gt (Nat.two_pow_pos width))

/- A given number, if the width has room for it. -/
def ofValue? (width value : Nat) : Option Numeral :=
  if h : value < Nat.pow 2 width then some ⟨width, value, h⟩
  else none

/- Another number of the same width. -/
def set? (n : Numeral) (value : Nat) : Option Numeral :=
  ofValue? n.width value

------------------------------------------------------------
-- Flags
------------------------------------------------------------

/- A power of two joined to a number. -/
theorem or_two_pow_lt
    (n : Numeral)
    {index : Nat}
    (h : index < n.width) :
    n.value ||| Nat.pow 2 index < Nat.pow 2 n.width :=
  Nat.or_lt_two_pow n.value_lt
    (Nat.pow_lt_pow_right Nat.one_lt_two h)

def setFlag? (n : Numeral) (index : Nat) : Option Numeral :=
  if h : index < n.width then
    some ⟨n.width, n.value ||| Nat.pow 2 index,
      n.or_two_pow_lt h⟩
  else none

------------------------------------------------------------
-- Joining
------------------------------------------------------------

/- A first number shifted by a second one of some width. -/
theorem mul_two_pow_add_lt
    {high low first second : Nat}
    (hHigh : high < Nat.pow 2 first)
    (hLow : low < Nat.pow 2 second) :
    high * Nat.pow 2 second + low <
      Nat.pow 2 (first + second) := by
  have hSplit :
      Nat.pow 2 (first + second) =
        Nat.pow 2 first * Nat.pow 2 second :=
    Nat.pow_add 2 first second
  have hStep :
      (high + 1) * Nat.pow 2 second ≤
        Nat.pow 2 first * Nat.pow 2 second :=
    Nat.mul_le_mul_right _ hHigh
  rw [Nat.add_mul, Nat.one_mul] at hStep
  rw [hSplit]
  omega

/- The second number behind the first. -/
def append (n m : Numeral) : Numeral where
  width := n.width + m.width
  value := n.value * Nat.pow 2 m.width + m.value
  value_lt := mul_two_pow_add_lt n.value_lt m.value_lt

/- A number between the two parts of another one. -/
theorem insert_lt
    (n m : Numeral)
    {index : Nat}
    (h : index ≤ n.width) :
    (n.value / Nat.pow 2 (n.width - index) *
          Nat.pow 2 m.width + m.value) *
        Nat.pow 2 (n.width - index) +
          n.value % Nat.pow 2 (n.width - index) <
      Nat.pow 2 (n.width + m.width) := by
  have hWidth :
      n.width + m.width =
        index + m.width + (n.width - index) := by
    omega
  have hHigh :
      n.value / Nat.pow 2 (n.width - index) <
        Nat.pow 2 index := by
    apply Nat.div_lt_of_lt_mul
    have hSplit :
        Nat.pow 2 (n.width - index) * Nat.pow 2 index =
          Nat.pow 2 n.width := by
      rw [show n.width = n.width - index + index by omega,
        Nat.add_sub_cancel]
      exact (Nat.pow_add 2 _ _).symm
    rw [hSplit]
    exact n.value_lt
  rw [hWidth]
  exact mul_two_pow_add_lt
    (mul_two_pow_add_lt hHigh m.value_lt)
    (Nat.mod_lt _ (Nat.two_pow_pos _))

/-
  A second number behind the `index` most significant bits
  of a first one.
-/
def insertAt?
    (n : Numeral)
    (index : Nat)
    (m : Numeral) : Option Numeral :=
  if h : index ≤ n.width then
    some
      ⟨n.width + m.width,
        (n.value / Nat.pow 2 (n.width - index) *
            Nat.pow 2 m.width + m.value) *
          Nat.pow 2 (n.width - index) +
            n.value % Nat.pow 2 (n.width - index),
        n.insert_lt m h⟩
  else none

end Numeral

end LightShow
