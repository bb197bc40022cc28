import Mathlib
import LightShow.Bits.Numeral
import LightShow.Proofs.BitNumbers

/-
  Fields are numbers.

  Every operation on fields does to their bits what its
  counterpart does to numbers: it succeeds when that gives a
  number, and then with a field of this number. So a sequence
  of operations on fields with names can be followed on the
  numbers alone, failures included.

  Key definitions include:
    * `Field.numeral`
    * `FieldStep`
    * `trace`

  Main statements:
    * `Field.numeral_append`
    * `Field.numeral_insertAt`
    * `FieldStep.map_perform?`
    * `Field.steps_refine_numbers`
-/

namespace LightShow

------------------------------------------------------------
-- Fields As Numbers
------------------------------------------------------------

namespace Field

/- The number in a field. -/
def numeral (f : Field) : Numeral where
  width := f.width
  value := Bits.toNat f.bits
  value_lt := Bits.toNat_lt f.bits

theorem numeral_zeros
    (name : String)
    (width : Nat) :
    (zeros name width).numeral = .zeros width := by
  apply Numeral.ext
  · exact Bits.length_zeros width
  · exact Bits.toNat_zeros width

theorem numeral_ones
    (name : String)
    (width : Nat) :
    (ones name width).numeral = .ones width := by
  apply Numeral.ext
  · exact Bits.length_ones width
  · exact Bits.toNat_ones width

/-
  An operation that checks for room gives a number under the
  same check, if its field has that number.
-/
theorem map_numeral_ite
    {p : Prop}
    [Decidable p]
    {f : Field}
    {fault : Fault}
    {n : p → Numeral}
    (h : ∀ hRoom : p, f.numeral = n hRoom) :
    (if p then (.ok f : Except Fault Field)
        else .error fault).toOption.map numeral =
      if hRoom : p then some (n hRoom) else none := by
  by_cases hRoom : p
  · rw [if_pos hRoom, dif_pos hRoom, ← h hRoom]
    rfl
  · rw [if_neg hRoom, dif_neg hRoom]
    rfl

/- A field takes the numbers that its width has room for. -/
theorem numeral_set
    (f : Field)
    (value : Nat) :
    (f.set value).toOption.map numeral =
      f.numeral.set? value := by
  apply map_numeral_ite
  intro hRoom
  apply Numeral.ext
  · exact Bits.length_ofNat f.width value
  · exact Bits.toNat_ofNat hRoom

theorem numeral_ofValue
    (name : String)
    (width value : Nat) :
    (ofValue name width value).toOption.map numeral =
      Numeral.ofValue? width value := by
  rw [ofValue, numeral_set, numeral_zeros]
  rfl

/- Flags are powers of two. -/
theorem numeral_setFlag
    (f : Field)
    (index : Nat) :
    (f.setFlag index).toOption.map numeral =
      f.numeral.setFlag? index := by
  apply map_numeral_ite
  intro hIndex
  apply Numeral.ext
  · exact List.length_set ..
  · exact Bits.toNat_set hIndex

theorem numeral_append
    (f g : Field) :
    (f.append g).numeral = f.numeral.append g.numeral := by
  apply Numeral.ext
  · exact List.length_append ..
  · exact Bits.toNat_append f.bits g.bits

/- Bits that are put between split a number in two. -/
theorem numeral_insertAt
    (f : Field)
    (index : Nat)
    (g : Field) :
    (f.insertAt index g).toOption.map numeral =
      f.numeral.insertAt? index g.numeral := by
  apply map_numeral_ite
  intro hIndex
  apply Numeral.ext
  · have hTake : (f.bits.take index).length = index :=
      List.length_take_of_le hIndex
    have hWidth : index ≤ f.bits.length := hIndex
    simp only [numeral, width, List.length_append, hTake,
      List.length_drop]
    omega
  · simp only [numeral, Bits.toNat_append, Bits.toNat_take,
      Bits.toNat_drop, List.length_drop, width]

------------------------------------------------------------
-- What Is Read
------------------------------------------------------------

/- Flags are the binary digits. -/
theorem flag_eq
    (f : Field)
    (index : Nat) :
    f.flag index = f.numeral.value.testBit index :=
  (Bits.testBit_toNat f.bits index).symm

/- There are no flags beyond the width. -/
theorem flag_of_le
    {f : Field}
    {index : Nat}
    (h : f.width ≤ index) :
    f.flag index = false := by
  rw [flag, decide_eq_false (Nat.not_lt.mpr h),
    Bool.false_and]

/- The last sixty-four bits are a remainder. -/
theorem value_eq
    (f : Field) :
    f.value = f.numeral.value % Nat.pow 2 64 := by
  have hDrop := Bits.toNat_drop f.bits (f.width - 64)
  unfold value numeral
  rw [hDrop]
  by_cases hWide : 64 ≤ f.width
  · have hRest : f.bits.length - (f.width - 64) = 64 := by
      exact Nat.sub_sub_self hWide
    rw [hRest]
  · have hNarrow : f.width ≤ 64 := by
      omega
    have hNone : f.width - 64 = 0 :=
      Nat.sub_eq_zero_of_le hNarrow
    have hSmall := Bits.toNat_lt f.bits
    have hFits : Bits.toNat f.bits < Nat.pow 2 64 :=
      Nat.lt_of_lt_of_le hSmall
        (Nat.pow_le_pow_right (by decide) hNarrow)
    rw [hNone, Nat.sub_zero, Nat.mod_eq_of_lt hSmall,
      Nat.mod_eq_of_lt hFits]

end Field

------------------------------------------------------------
-- Runs
------------------------------------------------------------

section Traces

variable {σ τ α : Type}

/-
  Whether each of some steps succeeds and the state behind
  it; a step that fails leaves the state as it was.
-/
def trace
    (step : σ → α → Option σ)
    (s : σ) : List α → List (Bool × σ)
  | [] => []
  | a :: rest =>
      match step s a with
      | some t => (true, t) :: trace step t rest
      | none => (false, s) :: trace step s rest

/- Steps that correspond one by one have the same trace. -/
theorem map_trace
    {step : σ → α → Option σ}
    {other : τ → α → Option τ}
    {view : σ → τ}
    (h : ∀ s a, (step s a).map view = other (view s) a)
    (s : σ)
    (steps : List α) :
    (trace step s steps).map (Prod.map id view) =
      trace other (view s) steps := by
  induction steps generalizing s with
  | nil => rfl
  | cons a rest ih =>
      rw [trace, trace, ← h s a]
      cases step s a with
      | none =>
          rw [List.map_cons, ih]
          rfl
      | some t =>
          rw [List.map_cons, ih]
          rfl

end Traces

/- What is done to fields that have names. -/
inductive FieldStep (ι : Type) where
  | zeros (target : ι) (name : String) (width : Nat)
  | ones (target : ι) (name : String) (width : Nat)
  | ofValue (target : ι) (name : String) (width value : Nat)
  | set (target : ι) (value : Nat)
  | setFlag (target : ι) (index : Nat)
  | concat (target first second : ι)
  | append (target other : ι)
  | insertAt (target : ι) (index : Nat) (other : ι)

namespace FieldStep

variable {ι : Type} [DecidableEq ι]

/- Take a step with the fields. -/
def perform?
    (fields : ι → Field) :
    FieldStep ι → Option (ι → Field)
  | .zeros i name width =>
      some (Function.update fields i (Field.zeros name width))
  | .ones i name width =>
      some (Function.update fields i (Field.ones name width))
  | .ofValue i name width value =>
      (Field.ofValue name width value).toOption.map
        (Function.update fields i)
  | .set i value =>
      ((fields i).set value).toOption.map
        (Function.update fields i)
  | .setFlag i index =>
      ((fields i).setFlag index).toOption.map
        (Function.update fields i)
  | .concat i first second =>
      some (Function.update fields i
        ((fields first).append (fields second)))
  | .append i other =>
      some (Function.update fields i
        ((fields i).append (fields other)))
  | .insertAt i index other =>
      ((fields i).insertAt index (fields other)).toOption.map
        (Function.update fields i)

/- Take a step with the numbers alone. -/
def count?
    (numbers : ι → Numeral) :
    FieldStep ι → Option (ι → Numeral)
  | .zeros i _ width =>
      some (Function.update numbers i (.zeros width))
  | .ones i _ width =>
      some (Function.update numbers i (.ones width))
  | .ofValue i _ width value =>
      (Numeral.ofValue? width value).map
        (Function.update numbers i)
  | .set i value =>
      ((numbers i).set? value).map
        (Function.update numbers i)
  | .setFlag i index =>
      ((numbers i).setFlag? index).map
        (Function.update numbers i)
  | .concat i first second =>
      some (Function.update numbers i
        ((numbers first).append (numbers second)))
  | .append i other =>
      some (Function.update numbers i
        ((numbers i).append (numbers other)))
  | .insertAt i index other =>
      ((numbers i).insertAt? index (numbers other)).map
        (Function.update numbers i)

/- A changed field is a changed number. -/
theorem numeral_update
    (fields : ι → Field)
    (i : ι)
    (f : Field) :
    Field.numeral ∘ Function.update fields i f =
      Function.update (Field.numeral ∘ fields) i f.numeral :=
  Function.comp_update Field.numeral fields i f

/- So is one that is only changed if it has room. -/
theorem map_numeral_update
    (fields : ι → Field)
    (i : ι)
    (result : Except Fault Field) :
    (result.toOption.map (Function.update fields i)).map
        (Field.numeral ∘ ·) =
      (result.toOption.map Field.numeral).map
        (Function.update (Field.numeral ∘ fields) i) := by
  rw [Option.map_map, Option.map_map]
  apply congrArg (Option.map · result.toOption)
  funext f
  exact numeral_update fields i f

/- A step does to the numbers what it does to the fields. -/
theorem map_perform?
    (fields : ι → Field)
    (step : FieldStep ι) :
    (perform? fields step).map (Field.numeral ∘ ·) =
      count? (Field.numeral ∘ fields) step := by
  cases step with
  | zeros i name width =>
      simp only [perform?, count?, Option.map_some,
        numeral_update, Field.numeral_zeros]
  | ones i name width =>
      simp only [perform?, count?, Option.map_some,
        numeral_update, Field.numeral_ones]
  | ofValue i name width value =>
      simp only [perform?, count?, map_numeral_update,
        Field.numeral_ofValue]
  | set i value =>
      simp only [perform?, count?, map_numeral_update,
        Field.numeral_set, Function.comp_apply]
  | setFlag i index =>
      simp only [perform?, count?, map_numeral_update,
        Field.numeral_setFlag, Function.comp_apply]
  | concat i first second =>
      simp only [perform?, count?, Option.map_some,
        numeral_update, Field.numeral_append,
        Function.comp_apply]
  | append i other =>
      simp only [perform?, count?, Option.map_some,
        numeral_update, Field.numeral_append,
        Function.comp_apply]
  | insertAt i index other =>
      simp only [perform?, count?, map_numeral_update,
        Field.numeral_insertAt, Function.comp_apply]

end FieldStep

------------------------------------------------------------
-- Fields In Any State
------------------------------------------------------------

namespace Field

/-
  Whatever is done to fields, their numbers and the failures
  are those of the same steps on numbers; and what is read
  off a field is read off its number.
-/
theorem steps_refine_numbers
    {ι : Type}
    [DecidableEq ι]
    (start : ι → Field)
    (steps : List (FieldStep ι)) :
    (trace FieldStep.perform? start steps).map
        (Prod.map id (numeral ∘ ·)) =
      trace FieldStep.count? (numeral ∘ start) steps ∧
    ∀ f : Field,
      (∀ index,
        f.flag index = f.numeral.value.testBit index) ∧
      (∀ index, f.width ≤ index → f.flag index = false) ∧
      f.value = f.numeral.value % Nat.pow 2 64 ∧
      (∃ filler < 8,
        8 * (Bits.toBytes f.bits).length =
            f.width + filler ∧
          Nat.ofDigits 256
              ((Bits.toBytes f.bits).map
                UInt8.toNat).reverse =
            f.numeral.value * Nat.pow 2 filler) ∧
      ∀ g : Field, f.width % 8 = 0 →
        Bits.toBytes (f.append g).bits =
          Bits.toBytes f.bits ++ Bits.toBytes g.bits := by
  constructor
  · exact map_trace FieldStep.map_perform? start steps
  · intro f
    refine ⟨f.flag_eq, ?_, f.value_eq,
      Bits.exists_filler f.bits, ?_⟩
    · intro index hIndex
      exact flag_of_le hIndex
    · intro g hWhole
      exact Bits.toBytes_append hWhole g.bits

/- Twelve bits with four others put between. -/
def splicing : List (FieldStep Bool) :=
  [.ofValue false "number" 12 0xABC,
   .set false 0x1000,
   .setFlag false 12,
   .ofValue true "digit" 4 5,
   .insertAt false 13 true,
   .insertAt false 8 true]

theorem steps_refine_numbers_splicing :
    (trace FieldStep.perform? (fun _ => ⟨"", []⟩)
        splicing).map
      (fun s => (s.1, (s.2 false).numeral.value)) =
        [(true, 0xABC), (false, 0xABC), (false, 0xABC),
         (true, 0xABC), (false, 0xABC), (true, 0xAB5C)] ∧
      (zeros "" 8).width ≤ 9 ∧
      (zeros "" 8).flag 9 = false ∧
      (zeros "" 8).width % 8 = 0 ∧
      Bits.toBytes ((zeros "" 8).append (ones "" 3)).bits =
        Bits.toBytes (zeros "" 8).bits ++
          Bits.toBytes (ones "" 3).bits := by
  have hSteps := steps_refine_numbers
    (fun _ : Bool => ⟨"", []⟩) splicing
  have hTrace :=
    congrArg (List.map fun s => (s.1, (s.2 false).value))
      hSteps.1
  rw [List.map_map] at hTrace
  have hRead := hSteps.2 (zeros "" 8)
  exact ⟨hTrace.trans (by decide), by decide,
    hRead.2.1 9 (by decide), by decide,
    hRead.2.2.2.2 (ones "" 3) (by decide)⟩

end Field

end LightShow
