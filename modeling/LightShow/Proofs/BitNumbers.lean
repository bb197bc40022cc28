import Mathlib
import LightShow.Proofs.Bits

/-
  The number that a bit string spells, piece by piece.

  Main statements:
    * `Bits.toNat_append`
    * `Bits.toNat_take`
    * `Bits.toNat_drop`
    * `Bits.testBit_toNat`
    * `Bits.toNat_set`
    * `Bits.toNat_ofBytes`
-/

namespace LightShow

namespace Bits

------------------------------------------------------------
-- Joining And Cutting
------------------------------------------------------------

/- The first of two bit strings is the more significant. -/
theorem toNat_append
    (first second : Bits) :
    toNat (first ++ second) =
      toNat first * Nat.pow 2 second.length +
        toNat second := by
  rw [toNat, List.foldl_append]
  exact foldl_eq_shift_add_toNat second _

theorem toNat_zeros
    (width : Nat) :
    toNat (zeros width) = 0 := by
  induction width with
  | zero => rfl
  | succ width ih =>
      have hCons : zeros (width + 1) = false :: zeros width :=
        rfl
      rw [hCons, toNat_cons, ih]
      simp

theorem toNat_ones
    (width : Nat) :
    toNat (ones width) = Nat.pow 2 width - 1 := by
  induction width with
  | zero => rfl
  | succ width ih =>
      have hCons : ones (width + 1) = true :: ones width :=
        rfl
      have hPow :
          Nat.pow 2 (width + 1) = Nat.pow 2 width * 2 := rfl
      have hPos : 0 < Nat.pow 2 width :=
        Nat.two_pow_pos width
      rw [hCons, toNat_cons, ih, length_ones, hPow,
        Bool.toNat_true]
      omega

/- A bit string is its first bits and the others. -/
theorem toNat_eq_take_drop
    (bits : Bits)
    (index : Nat) :
    toNat bits =
      toNat (bits.take index) *
          Nat.pow 2 (bits.length - index) +
        toNat (bits.drop index) := by
  have hSplit := toNat_append (bits.take index)
    (bits.drop index)
  rw [List.take_append_drop, List.length_drop] at hSplit
  exact hSplit

theorem toNat_drop_lt
    (bits : Bits)
    (index : Nat) :
    toNat (bits.drop index) <
      Nat.pow 2 (bits.length - index) := by
  rw [← List.length_drop]
  exact toNat_lt _

/- The first bits are a quotient. -/
theorem toNat_take
    (bits : Bits)
    (index : Nat) :
    toNat (bits.take index) =
      toNat bits / Nat.pow 2 (bits.length - index) := by
  have hPos : 0 < Nat.pow 2 (bits.length - index) :=
    Nat.two_pow_pos _
  rw [toNat_eq_take_drop bits index, Nat.mul_comm,
    Nat.mul_add_div hPos,
    Nat.div_eq_of_lt (toNat_drop_lt bits index), Nat.add_zero]

/- The other bits are the remainder. -/
theorem toNat_drop
    (bits : Bits)
    (index : Nat) :
    toNat (bits.drop index) =
      toNat bits % Nat.pow 2 (bits.length - index) := by
  rw [toNat_eq_take_drop bits index, Nat.mul_comm,
    Nat.mul_add_mod,
    Nat.mod_eq_of_lt (toNat_drop_lt bits index)]

------------------------------------------------------------
-- Single Bits
------------------------------------------------------------

/- Bits are written from the most significant one on. -/
theorem getD_ofNat
    (width value index : Nat) :
    (ofNat width value).getD index false =
      (decide (index < width) &&
        value.testBit (width - 1 - index)) := by
  induction width generalizing index with
  | zero => simp [ofNat]
  | succ width ih =>
      cases index with
      | zero => simp [ofNat]
      | succ index =>
          rw [ofNat, List.getD_cons_succ, ih]
          have hIndex :
              width + 1 - 1 - (index + 1) =
                width - 1 - index := by
            omega
          simp only [hIndex, Nat.add_lt_add_iff_right]

/- Bits are numbered from the end. -/
theorem testBit_toNat
    (bits : Bits)
    (index : Nat) :
    (toNat bits).testBit index =
      (decide (index < bits.length) &&
        bits.getD (bits.length - 1 - index) false) := by
  by_cases hIndex : index < bits.length
  · have hBack := getD_ofNat bits.length (toNat bits)
      (bits.length - 1 - index)
    have hSame :
        bits.length - 1 - (bits.length - 1 - index) =
          index := by
      omega
    have hInside : bits.length - 1 - index < bits.length := by
      omega
    rw [ofNat_toNat, hSame] at hBack
    rw [hBack, decide_eq_true hIndex, decide_eq_true hInside,
      Bool.true_and, Bool.true_and]
  · -- The number is too small to have this bit.
    have hSmall : toNat bits < 2 ^ index :=
      Nat.lt_of_lt_of_le (toNat_lt bits)
        (Nat.pow_le_pow_right (by decide)
          (Nat.not_lt.mp hIndex))
    simp [Nat.testBit_lt_two_pow hSmall, hIndex]

/- Setting a bit joins a power of two. -/
theorem toNat_set
    {bits : Bits}
    {index : Nat}
    (h : index < bits.length) :
    toNat (bits.set (bits.length - 1 - index) true) =
      toNat bits ||| Nat.pow 2 index := by
  apply Nat.eq_of_testBit_eq
  intro other
  have hPow :
      (Nat.pow 2 index).testBit other =
        decide (index = other) :=
    Nat.testBit_two_pow
  rw [Nat.testBit_or, hPow, testBit_toNat, testBit_toNat,
    List.length_set]
  by_cases hOther : other < bits.length
  · by_cases hSame : index = other
    · subst hSame
      have hInside :
          bits.length - 1 - index < bits.length := by
        omega
      simp [List.getD_eq_getElem?_getD, hInside, h]
    · have hApart :
          bits.length - 1 - index ≠
            bits.length - 1 - other := by
        omega
      simp [List.getD_eq_getElem?_getD,
        List.getElem?_set_ne hApart, hSame]
  · have hSame : index ≠ other := by
      omega
    simp [hOther, hSame]

------------------------------------------------------------
-- Bytes
------------------------------------------------------------

/- Bytes are digits, the most significant one first. -/
theorem toNat_ofBytes
    (bytes : List UInt8) :
    toNat (ofBytes bytes) =
      Nat.ofDigits 256 (bytes.map UInt8.toNat).reverse := by
  induction bytes with
  | nil => rfl
  | cons b bytes ih =>
      have hByte : b.toNat < Nat.pow 2 8 := b.toNat_lt
      have hPow :
          Nat.pow 2 (8 * bytes.length) = 256 ^ bytes.length :=
        Nat.pow_mul 2 8 bytes.length
      rw [ofBytes_cons, toNat_append, toNat_ofNat hByte, ih,
        length_ofBytes, hPow, List.map_cons,
        List.reverse_cons, Nat.ofDigits_append,
        Nat.ofDigits_singleton, List.length_reverse,
        List.length_map]
      ring

/-
  The bytes of a bit string spell its number, shifted by the
  zeros that fill the last byte.
-/
theorem exists_filler
    (bits : Bits) :
    ∃ filler < 8,
      8 * (toBytes bits).length = bits.length + filler ∧
        Nat.ofDigits 256
            ((toBytes bits).map UInt8.toNat).reverse =
          toNat bits * Nat.pow 2 filler := by
  have hBits := ofBytes_toBytes bits
  refine ⟨(8 - bits.length % 8) % 8,
    Nat.mod_lt _ (by decide), ?_, ?_⟩
  · rw [← length_ofBytes, hBits, List.length_append,
      length_zeros]
  · rw [← toNat_ofBytes, hBits, toNat_append, toNat_zeros,
      length_zeros, Nat.add_zero]

end Bits

end LightShow
