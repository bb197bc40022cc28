import LightShow.Bits.Basic

/-
  Bit strings as numbers and as bytes.

  A bit string of a given width and the numbers below two to
  that width are in one-to-one correspondence, and the bytes
  of a bit string of whole bytes give the bit string back.

  Main statements:
    * `Bits.toNat_ofNat`
    * `Bits.ofNat_toNat`
    * `Bits.ofBytes_toBytes`
    * `Bits.toBytes_append`
-/

namespace LightShow

namespace Bits

------------------------------------------------------------
-- Widths
------------------------------------------------------------

@[simp] theorem length_zeros
    (width : Nat) :
    (zeros width).length = width :=
  List.length_replicate

@[simp] theorem length_ones
    (width : Nat) :
    (ones width).length = width :=
  List.length_replicate

@[simp] theorem length_ofNat
    (width value : Nat) :
    (ofNat width value).length = width := by
  induction width with
  | zero => rfl
  | succ width ih => simp [ofNat, ih]

------------------------------------------------------------
-- Numbers
------------------------------------------------------------

/- Reading on from a number shifts that number left. -/
theorem foldl_eq_shift_add_toNat
    (bits : Bits)
    (start : Nat) :
    bits.foldl (fun n b => 2 * n + b.toNat) start =
      start * Nat.pow 2 bits.length + toNat bits := by
  induction bits generalizing start with
  | nil => simp [toNat]
  | cons b bits ih =>
      have hZero := ih (2 * 0 + b.toNat)
      have hStart := ih (2 * start + b.toNat)
      have hPow :
          Nat.pow 2 (b :: bits).length =
            Nat.pow 2 bits.length * 2 := rfl
      simp only [toNat, List.foldl_cons] at hZero ⊢
      rw [hStart, hZero, hPow]
      simp only [toNat]
      grind

/- The first bit is the most significant one. -/
theorem toNat_cons
    (b : Bool)
    (bits : Bits) :
    toNat (b :: bits) =
      b.toNat * Nat.pow 2 bits.length + toNat bits := by
  have h := foldl_eq_shift_add_toNat bits (2 * 0 + b.toNat)
  simpa [toNat] using h

theorem toNat_lt
    (bits : Bits) :
    toNat bits < Nat.pow 2 bits.length := by
  induction bits with
  | nil => decide
  | cons b bits ih =>
      have hPow :
          Nat.pow 2 (b :: bits).length =
            Nat.pow 2 bits.length * 2 := rfl
      rw [toNat_cons, hPow]
      cases b <;> simp only [Bool.toNat_true,
        Bool.toNat_false] <;> omega

/- Writing keeps a number up to the width. -/
theorem toNat_ofNat_mod
    (width value : Nat) :
    toNat (ofNat width value) =
      value % Nat.pow 2 width := by
  induction width with
  | zero =>
      have hOne : Nat.pow 2 0 = 1 := rfl
      rw [hOne, Nat.mod_one]
      rfl
  | succ width ih =>
      have hSplit :
          value % Nat.pow 2 (width + 1) =
            value % Nat.pow 2 width +
              Nat.pow 2 width *
                (value / Nat.pow 2 width % 2) :=
        Nat.mod_pow_succ
      have hBit :
          (value.testBit width).toNat =
            value / Nat.pow 2 width % 2 :=
        Nat.toNat_testBit value width
      rw [ofNat, toNat_cons, length_ofNat, ih, hSplit, hBit]
      grind

theorem toNat_ofNat
    {width value : Nat}
    (hValue : value < Nat.pow 2 width) :
    toNat (ofNat width value) = value := by
  rw [toNat_ofNat_mod, Nat.mod_eq_of_lt hValue]

/- Numbers that agree up to the width are written alike. -/
theorem ofNat_mod
    (width value : Nat) :
    ∀ larger, width ≤ larger →
      ofNat width (value % Nat.pow 2 larger) =
        ofNat width value := by
  induction width with
  | zero => intro larger _; rfl
  | succ width ih =>
      intro larger hLarger
      have hBit :
          (value % Nat.pow 2 larger).testBit width =
            (decide (width < larger) &&
              value.testBit width) :=
        Nat.testBit_mod_two_pow value larger width
      have hWidth : width < larger := hLarger
      rw [ofNat, ofNat, hBit, ih larger (by omega)]
      simp [hWidth]

theorem ofNat_toNat
    (bits : Bits) :
    ofNat bits.length (toNat bits) = bits := by
  induction bits with
  | nil => rfl
  | cons b bits ih =>
      have hLt : toNat bits < Nat.pow 2 bits.length :=
        toNat_lt bits
      have hTop :
          (toNat (b :: bits)).testBit bits.length = b := by
        have hPow := Nat.two_pow_pos bits.length
        have hHigh :
            toNat (b :: bits) / 2 ^ bits.length =
              b.toNat := by
          rw [toNat_cons, Nat.mul_comm]
          rw [show Nat.pow 2 bits.length =
            2 ^ bits.length from rfl] at hLt ⊢
          rw [Nat.mul_add_div hPow, Nat.div_eq_of_lt hLt]
          rfl
        rw [Nat.testBit_eq_decide_div_mod_eq, hHigh]
        cases b <;> rfl
      have hLow :
          toNat (b :: bits) % Nat.pow 2 bits.length =
            toNat bits := by
        rw [toNat_cons, Nat.mul_comm, Nat.mul_add_mod]
        exact Nat.mod_eq_of_lt hLt
      rw [List.length_cons, ofNat, hTop,
        ← ofNat_mod _ (toNat (b :: bits)) _ (Nat.le_refl _),
        hLow, ih]

------------------------------------------------------------
-- Bytes
------------------------------------------------------------

theorem toNat_byte
    {bits : Bits}
    (hLength : bits.length ≤ 8) :
    (byte bits).toNat =
      toNat (bits ++ zeros (8 - bits.length)) := by
  have hLt := toNat_lt (bits ++ zeros (8 - bits.length))
  have hWidth :
      (bits ++ zeros (8 - bits.length)).length = 8 := by
    simp only [List.length_append, length_zeros]
    omega
  rw [hWidth] at hLt
  exact Nat.mod_eq_of_lt hLt

/- A byte holds its bits, zeros behind them. -/
theorem ofNat_byte
    {bits : Bits}
    (hLength : bits.length ≤ 8) :
    ofNat 8 (byte bits).toNat =
      bits ++ zeros (8 - bits.length) := by
  have hWidth :
      (bits ++ zeros (8 - bits.length)).length = 8 := by
    simp only [List.length_append, length_zeros]
    omega
  have hBack := ofNat_toNat (bits ++ zeros (8 - bits.length))
  rw [hWidth] at hBack
  rw [toNat_byte hLength, hBack]

/- Bytes so far stay in front. -/
theorem toList_bytesAfter
    (start bytes : Array UInt8)
    (bits : Bits) :
    (bytesAfter bytes bits).toList =
      bytes.toList ++ (bytesAfter #[] bits).toList := by
  -- `start` only drives the induction; `bytes` is free.
  induction start, bits using bytesAfter.induct
    generalizing bytes with
  | case1 start a b c d e f g h rest ih =>
      rw [bytesAfter, bytesAfter, ih, ih (#[].push _)]
      simp
  | case2 start => simp [bytesAfter]
  | case3 start rest hLong hEmpty =>
      simp [bytesAfter]

/- The first eight bits are the first byte. -/
theorem toBytes_eight
    (a b c d e f g h : Bool)
    (rest : Bits) :
    toBytes (a :: b :: c :: d :: e :: f :: g :: h :: rest) =
      byte [a, b, c, d, e, f, g, h] :: toBytes rest := by
  rw [toBytes, bytesAfter, toList_bytesAfter #[]]
  rfl

/- Fewer than eight bits are one byte. -/
theorem toBytes_short
    {bits : Bits}
    (hNil : bits ≠ [])
    (hShort : bits.length < 8) :
    toBytes bits = [byte bits] := by
  unfold toBytes bytesAfter
  split
  · simp only [List.length_cons] at hShort
    omega
  · contradiction
  · rfl

/- Take bit strings apart eight bits at a time. -/
theorem eightInduction
    {motive : Bits → Prop}
    (nil : motive [])
    (short : ∀ bits, bits ≠ [] → bits.length < 8 →
      motive bits)
    (eight : ∀ first rest, first.length = 8 →
      motive rest → motive (first ++ rest))
    (bits : Bits) :
    motive bits := by
  by_cases hNil : bits = []
  · exact hNil ▸ nil
  by_cases hShort : bits.length < 8
  · exact short bits hNil hShort
  have hTake : (bits.take 8).length = 8 := by
    rw [List.length_take]
    omega
  have hDrop : (bits.drop 8).length < bits.length := by
    rw [List.length_drop]
    omega
  rw [← List.take_append_drop 8 bits]
  exact eight _ _ hTake
    (eightInduction nil short eight (bits.drop 8))
termination_by bits.length

/- A first byte of bits is the first byte. -/
theorem toBytes_append_of_length_eq
    {first : Bits}
    (hFirst : first.length = 8)
    (rest : Bits) :
    toBytes (first ++ rest) = byte first :: toBytes rest := by
  obtain ⟨a, b, c, d, e, f, g, h, rfl⟩ :
      ∃ a b c d e f g h,
        first = [a, b, c, d, e, f, g, h] := by
    match first, hFirst with
    | [a, b, c, d, e, f, g, h], _ =>
        exact ⟨a, b, c, d, e, f, g, h, rfl⟩
  exact toBytes_eight a b c d e f g h rest

@[simp] theorem ofBytes_cons
    (b : UInt8)
    (bytes : List UInt8) :
    ofBytes (b :: bytes) =
      ofNat 8 b.toNat ++ ofBytes bytes :=
  List.flatMap_cons

@[simp] theorem length_ofBytes
    (bytes : List UInt8) :
    (ofBytes bytes).length = 8 * bytes.length := by
  induction bytes with
  | nil => rfl
  | cons b bytes ih =>
      simp only [ofBytes_cons, List.length_append,
        length_ofNat, ih, List.length_cons]
      omega

/- Bytes give their bits back, filled up with zeros. -/
theorem ofBytes_toBytes
    (bits : Bits) :
    ofBytes (toBytes bits) =
      bits ++ zeros ((8 - bits.length % 8) % 8) := by
  induction bits using eightInduction with
  | nil => rfl
  | short bits hNil hShort =>
      have hPos := List.length_pos_iff.mpr hNil
      have hPad :
          (8 - bits.length % 8) % 8 = 8 - bits.length := by
        omega
      rw [toBytes_short hNil hShort, hPad,
        ← ofNat_byte (Nat.le_of_lt hShort)]
      simp [ofBytes]
  | eight first rest hFirst ih =>
      have hByte := ofNat_byte (Nat.le_of_eq hFirst)
      rw [hFirst] at hByte
      have hPad :
          (8 - (first ++ rest).length % 8) % 8 =
            (8 - rest.length % 8) % 8 := by
        rw [List.length_append, hFirst]
        omega
      rw [toBytes_append_of_length_eq hFirst, ofBytes_cons,
        hByte, ih, hPad]
      simp [zeros]

/- Whole bytes give exactly their bits back. -/
theorem ofBytes_toBytes_of_dvd
    {bits : Bits}
    (hWhole : bits.length % 8 = 0) :
    ofBytes (toBytes bits) = bits := by
  rw [ofBytes_toBytes, hWhole]
  exact List.append_nil bits

theorem length_toBytes_of_dvd
    {bits : Bits}
    (hWhole : bits.length % 8 = 0) :
    8 * (toBytes bits).length = bits.length := by
  rw [← length_ofBytes, ofBytes_toBytes_of_dvd hWhole]

/- Behind whole bytes the bytes of the rest follow. -/
theorem toBytes_append
    {left : Bits}
    (hWhole : left.length % 8 = 0)
    (right : Bits) :
    toBytes (left ++ right) =
      toBytes left ++ toBytes right := by
  induction left using eightInduction with
  | nil => rfl
  | short bits hNil hShort =>
      have hPos := List.length_pos_iff.mpr hNil
      omega
  | eight first rest hFirst ih =>
      rw [List.length_append, hFirst] at hWhole
      rw [List.append_assoc,
        toBytes_append_of_length_eq hFirst,
        toBytes_append_of_length_eq hFirst,
        ih (by omega)]
      rfl

/- Bit positions of bytes are eight times byte positions. -/
theorem ofBytes_drop
    (bytes : List UInt8)
    (count : Nat) :
    ofBytes (bytes.drop count) =
      (ofBytes bytes).drop (8 * count) := by
  induction count generalizing bytes with
  | zero => rfl
  | succ count ih =>
      cases bytes with
      | nil => simp [ofBytes]
      | cons b bytes =>
          have hCount : 8 * (count + 1) = 8 + 8 * count := by
            omega
          rw [List.drop_succ_cons, ih, ofBytes_cons, hCount,
            ← List.drop_drop, List.drop_left' (by simp)]

theorem ofBytes_take
    (bytes : List UInt8)
    (count : Nat) :
    ofBytes (bytes.take count) =
      (ofBytes bytes).take (8 * count) := by
  induction count generalizing bytes with
  | zero => rfl
  | succ count ih =>
      cases bytes with
      | nil => simp [ofBytes]
      | cons b bytes =>
          have hCount : 8 * (count + 1) = 8 + 8 * count := by
            omega
          have hFirst : (ofNat 8 b.toNat).length = 8 := by
            simp
          have hAll :
              (ofNat 8 b.toNat).take (8 + 8 * count) =
                ofNat 8 b.toNat :=
            List.take_of_length_le (by omega)
          rw [List.take_succ_cons, ofBytes_cons, ih,
            ofBytes_cons, hCount, List.take_append, hFirst,
            hAll, Nat.add_sub_cancel_left]

/- Bytes of ones are `0xFF`. -/
theorem toBytes_ones
    (count : Nat) :
    toBytes (ones (8 * count)) =
      List.replicate count 0xFF := by
  induction count with
  | zero => rfl
  | succ count ih =>
      have hSplit :
          ones (8 * (count + 1)) =
            ones 8 ++ ones (8 * count) := by
        rw [ones, ones, ones, List.replicate_append_replicate]
        congr 1
        omega
      rw [hSplit, toBytes_append_of_length_eq (by simp), ih]
      rfl

end Bits

end LightShow
