import LightShow.Bits.Reader
import LightShow.Bits.WidthCode
import LightShow.Proofs.Bits
import LightShow.Proofs.Success

/-
  Readers that give back what was written.

  A reader reads a value off some bits if it takes exactly
  these bits, whatever follows them. Such readings compose,
  so a written record is read back field by field.

  Key definitions include:
    * `BitReader.Reads`

  Main statements:
    * `BitReader.Reads.bind`
    * `BitReader.reads_number`
    * `BitReader.reads_sized2`
    * `BitReader.reads_sized3`
-/

namespace LightShow

------------------------------------------------------------
-- Readings
------------------------------------------------------------

namespace BitReader

variable {α β : Type}

/- A reader takes exactly some bits and gives a value. -/
def Reads
    (p : BitReader α)
    (a : α)
    (written : Bits) : Prop :=
  ∀ rest, p (written ++ rest) = some (a, rest)

theorem reads_pure
    (a : α) :
    Reads (pure a) a [] :=
  fun _ => rfl

/- Readings follow one another. -/
theorem Reads.bind
    {p : BitReader α}
    {f : α → BitReader β}
    {a : α}
    {b : β}
    {first second : Bits}
    (hp : Reads p a first)
    (hf : Reads (f a) b second) :
    Reads (p >>= f) b (first ++ second) := by
  intro rest
  have hFirst := hp (second ++ rest)
  rw [← List.append_assoc] at hFirst
  change ((p (first ++ second ++ rest)).bind
    fun x => f x.1 x.2) = _
  rw [hFirst]
  exact hf rest

/- The last reading hands its value to a function. -/
theorem Reads.map
    {p : BitReader α}
    {a : α}
    {written : Bits}
    (hp : Reads p a written)
    (g : α → β) :
    Reads (p >>= fun x => pure (g x)) (g a) written := by
  have h := hp.bind (f := fun x => pure (g x))
    (reads_pure (g a))
  rwa [List.append_nil] at h

/- A value that is known needs no bits. -/
theorem reads_known
    {o : Option α}
    {a : α}
    (ho : o = some a) :
    Reads (liftM o) a [] := by
  intro rest
  subst ho
  rfl

/- Each item of a list is read off its own bits. -/
theorem Reads.mapM
    {γ : Type}
    {p : α → BitReader β}
    {value : α → β}
    {bits : γ → Bits}
    {xs : List α}
    {ys : List γ}
    (h : List.Forall₂
      (fun x y => Reads (p x) (value x) (bits y)) xs ys) :
    Reads (xs.mapM p) (xs.map value) (ys.flatMap bits) := by
  induction h with
  | nil => exact reads_pure []
  | cons hHead _ ih =>
      rw [List.mapM_cons, List.map_cons, List.flatMap_cons]
      exact hHead.bind (ih.map _)

------------------------------------------------------------
-- Numbers
------------------------------------------------------------

theorem reads_bits
    {width : Nat}
    {written : Bits}
    (hWidth : written.length = width) :
    Reads (bits width) written written := by
  intro rest
  have hLe : width ≤ (written ++ rest).length := by
    rw [List.length_append]
    omega
  rw [bits, if_pos hLe, List.take_left' hWidth,
    List.drop_left' hWidth]

theorem reads_number
    {width value : Nat}
    (hValue : value < Nat.pow 2 width) :
    Reads (number width) value (Bits.ofNat width value) := by
  have h := (reads_bits (Bits.length_ofNat width value)).map
    Bits.toNat
  rwa [Bits.toNat_ofNat hValue] at h

end BitReader

------------------------------------------------------------
-- Fields
------------------------------------------------------------

/- A field takes a value that its width has room for. -/
theorem Field.ofValue_eq_ok
    {name : String}
    {width value : Nat}
    {f : Field}
    (h : Field.ofValue name width value = .ok f) :
    value < Nat.pow 2 width ∧
      f = ⟨name, Bits.ofNat width value⟩ := by
  have hWidth : (Field.zeros name width).width = width :=
    Bits.length_zeros width
  unfold Field.ofValue Field.set at h
  rw [hWidth] at h
  split at h
  · rename_i hValue
    exact ⟨hValue, (Except.ok.inj h).symm⟩
  · cases h

theorem Field.width_ofValue
    {name : String}
    {width value : Nat}
    {f : Field}
    (h : Field.ofValue name width value = .ok f) :
    f.width = width := by
  rcases Field.ofValue_eq_ok h with ⟨-, rfl⟩
  exact Bits.length_ofNat width value

/- A value that fits is read off its field. -/
theorem Field.reads_ofValue
    {name : String}
    {width value : Nat}
    {f : Field}
    (h : Field.ofValue name width value = .ok f) :
    BitReader.Reads (BitReader.number width) value
      f.bits := by
  rcases Field.ofValue_eq_ok h with ⟨hValue, rfl⟩
  exact BitReader.reads_number hValue

------------------------------------------------------------
-- Sized Values
------------------------------------------------------------

namespace WidthCode

theorem byteCount_pos
    (value : Nat) :
    1 ≤ byteCount value := by
  unfold byteCount
  split
  · omega
  split
  · omega
  split <;> omega

theorem byteCount_le
    (value : Nat) :
    byteCount value ≤ 4 := by
  unfold byteCount
  split
  · omega
  split
  · omega
  split <;> omega

/- The bits of the fields of a value behind a code. -/
theorem sized2By_eq_ok
    {name : String}
    {sizedBy value : Nat}
    {fields : List Field}
    (h : sized2By name sizedBy value = .ok fields) :
    value < Nat.pow 2 (8 * byteCount sizedBy) ∧
      fields.flatMap Field.bits =
        Bits.ofNat 2 (byteCount sizedBy - 1) ++
          Bits.ofNat (8 * byteCount sizedBy) value := by
  rcases Success.bind_eq_ok h with ⟨f, hf, h⟩
  rcases Field.ofValue_eq_ok hf with ⟨hValue, rfl⟩
  have hWidth :
      (two sizedBy).valueWidth = 8 * byteCount sizedBy :=
    Nat.mul_comm _ _
  cases Success.pure_eq_ok h
  rw [hWidth] at hValue ⊢
  exact ⟨hValue, by simp [field, two]⟩

end WidthCode

namespace BitReader

/- A value behind a two-bit code is read back. -/
theorem reads_sized2
    {name : String}
    {sizedBy value : Nat}
    {fields : List Field}
    (h : WidthCode.sized2By name sizedBy value = .ok fields) :
    Reads sized2 value (fields.flatMap Field.bits) := by
  rcases WidthCode.sized2By_eq_ok h with ⟨hValue, hBits⟩
  have hPos := WidthCode.byteCount_pos sizedBy
  have hLe := WidthCode.byteCount_le sizedBy
  have hCode :
      WidthCode.byteCount sizedBy - 1 < Nat.pow 2 2 := by
    have hFour : Nat.pow 2 2 = 4 := rfl
    omega
  have hBytes :
      WidthCode.byteCount sizedBy - 1 + 1 =
        WidthCode.byteCount sizedBy := by
    omega
  rw [hBits]
  apply (reads_number hCode).bind
  rw [hBytes]
  exact reads_number hValue

/- A value behind a three-bit code is read back. -/
theorem reads_sized3
    {name : String}
    {value : Nat}
    {fields : List Field}
    (h : WidthCode.sized3 name value = .ok fields) :
    Reads sized3 value (fields.flatMap Field.bits) := by
  unfold WidthCode.sized3 WidthCode.three at h
  by_cases hZero : value = 0
  · rw [if_pos hZero] at h
    cases Success.pure_eq_ok h
    subst hZero
    exact (reads_number (by decide)).bind
      (reads_number (by decide))
  · have hPos := WidthCode.byteCount_pos value
    have hLe := WidthCode.byteCount_le value
    have hCode : WidthCode.byteCount value < Nat.pow 2 3 := by
      have hEight : Nat.pow 2 3 = 8 := rfl
      omega
    rw [if_neg hZero, if_neg (by simp only; omega)] at h
    rcases Success.bind_eq_ok h with ⟨f, hf, h⟩
    cases Success.pure_eq_ok h
    have hRead := Field.reads_ofValue hf
    rw [show WidthCode.valueWidth _ =
      8 * WidthCode.byteCount value from Nat.mul_comm _ _]
      at hRead
    apply (reads_number hCode).bind
    simpa using hRead

end BitReader

end LightShow
