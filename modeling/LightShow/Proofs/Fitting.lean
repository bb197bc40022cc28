import LightShow.Proofs.Reading

/-
  Values that fit into their fields.

  A check delivers if it succeeds and its value has a
  property. Checks that deliver can be put one after another
  like any others, so a record is made whenever each of its
  values fits.

  Key definitions include:
    * `Success.Delivers`

  Main statements:
    * `Success.Delivers.bind`
    * `Success.delivers_forall₂`
    * `Success.delivers_mapM`
    * `Field.ofValue_of_lt`
    * `WidthCode.delivers_sized2`
    * `WidthCode.delivers_sized3`
-/

namespace LightShow

------------------------------------------------------------
-- Checks That Succeed
------------------------------------------------------------

namespace Success

variable {ε α β : Type}

/- A check succeeds, and its value has a property. -/
def Delivers (P : α → Prop) (x : Except ε α) : Prop :=
  ∃ a, x = .ok a ∧ P a

theorem delivers_pure
    {P : α → Prop}
    {a : α}
    (h : P a) :
    Delivers P (pure a : Except ε α) :=
  ⟨a, rfl, h⟩

theorem Delivers.bind
    {P : α → Prop}
    {Q : β → Prop}
    {x : Except ε α}
    {f : α → Except ε β}
    (hx : Delivers P x)
    (hf : ∀ a, P a → Delivers Q (f a)) :
    Delivers Q (x >>= f) := by
  rcases hx with ⟨a, rfl, ha⟩
  exact hf a ha

theorem Delivers.weaken
    {P Q : α → Prop}
    {x : Except ε α}
    (h : Delivers P x)
    (hImp : ∀ a, P a → Q a) :
    Delivers Q x := by
  rcases h with ⟨a, hx, ha⟩
  exact ⟨a, hx, hImp a ha⟩

theorem Delivers.placed
    {P : α → Prop}
    {x : Except Fault α}
    (h : Delivers P x)
    (span : Option Span) :
    Delivers P (Located.placed span x) := by
  rcases h with ⟨a, rfl, ha⟩
  exact ⟨a, rfl, ha⟩

/- If each check of a list delivers, so do all, in order. -/
theorem delivers_forall₂
    {P : α → β → Prop}
    {f : α → Except ε β}
    {xs : List α}
    (h : ∀ x ∈ xs, Delivers (P x) (f x)) :
    Delivers (List.Forall₂ P xs) (xs.mapM f) := by
  induction xs with
  | nil => exact ⟨[], List.mapM_nil, .nil⟩
  | cons x xs ih =>
      rcases List.forall_mem_cons.mp h with ⟨hFirst, hRest⟩
      rw [List.mapM_cons]
      apply hFirst.bind
      intro y hy
      apply (ih hRest).bind
      intro ys hys
      exact delivers_pure (.cons hy hys)

/- If each check of a list delivers, all of them do. -/
theorem delivers_mapM
    {P : β → Prop}
    {f : α → Except ε β}
    {xs : List α}
    (h : ∀ x ∈ xs, Delivers P (f x)) :
    Delivers
      (fun ys => ys.length = xs.length ∧ ∀ y ∈ ys, P y)
      (xs.mapM f) := by
  apply (delivers_forall₂ (P := fun _ => P) h).weaken
  intro ys hys
  refine ⟨hys.length_eq.symm, ?_⟩
  intro y hy
  rcases exists_of_forall₂ hys y hy with ⟨-, -, hP⟩
  exact hP

end Success

open Success (Delivers)

------------------------------------------------------------
-- Fields
------------------------------------------------------------

namespace Field

theorem ofValue_of_lt
    (name : String)
    {width value : Nat}
    (h : value < Nat.pow 2 width) :
    ofValue name width value =
      .ok ⟨name, Bits.ofNat width value⟩ := by
  have hWidth : (zeros name width).width = width :=
    Bits.length_zeros width
  rw [ofValue, set, hWidth, if_pos h]
  rfl

theorem ofValue_of_le
    (name : String)
    {width value : Nat}
    (h : Nat.pow 2 width ≤ value) :
    ofValue name width value =
      .error (.fieldOverflow name width value) := by
  have hWidth : (zeros name width).width = width :=
    Bits.length_zeros width
  rw [ofValue, set, hWidth, if_neg (Nat.not_lt.mpr h)]
  rfl

theorem delivers_ofValue
    (name : String)
    {width value : Nat}
    (h : value < Nat.pow 2 width) :
    Delivers (fun f => f.width = width)
      (ofValue name width value) :=
  ⟨_, ofValue_of_lt name h, Bits.length_ofNat width value⟩

end Field

------------------------------------------------------------
-- Sized Values
------------------------------------------------------------

namespace WidthCode

/- A value below four bytes fits into its own bytes. -/
theorem lt_pow_byteCount
    {value : Nat}
    (h : value < Nat.pow 2 32) :
    value < Nat.pow 2 (8 * byteCount value) := by
  unfold byteCount
  split
  · assumption
  split
  · assumption
  split
  · assumption
  · exact h

theorem width_field
    (c : WidthCode) :
    c.field.width = c.width :=
  Bits.length_ofNat c.width c.code

/- Behind a two-bit code there are at most four bytes. -/
theorem delivers_sized2By
    (name : String)
    {sizedBy value : Nat}
    (h : value < Nat.pow 2 (8 * byteCount sizedBy)) :
    Delivers (fun fs => (Record.mk fs).width ≤ 34)
      (sized2By name sizedBy value) := by
  have hWidth :
      (two sizedBy).valueWidth = 8 * byteCount sizedBy :=
    Nat.mul_comm _ _
  have hLe := byteCount_le sizedBy
  rw [← hWidth] at h
  apply (Field.delivers_ofValue name h).bind
  intro f hf
  apply Success.delivers_pure
  have hCode : (two sizedBy).field.width = 2 :=
    width_field (two sizedBy)
  simp only [Record.width, List.map_cons, List.map_nil,
    total_cons, total_nil, hCode, hf, hWidth]
  omega

theorem delivers_sized2
    (name : String)
    {value : Nat}
    (h : value < Nat.pow 2 32) :
    Delivers (fun fs => (Record.mk fs).width ≤ 34)
      (sized2 name value) :=
  delivers_sized2By name (lt_pow_byteCount h)

/- A sized value stands behind its code, whole. -/
theorem delivers_sized2_value
    (name : String)
    {value : Nat}
    (h : value < Nat.pow 2 32) :
    Delivers
      (fun fields => ∃ code f,
        fields = [code, f] ∧ Bits.toNat f.bits = value)
      (sized2 name value) := by
  have hWidth :
      (two value).valueWidth = 8 * byteCount value :=
    Nat.mul_comm _ _
  have hFits : value < Nat.pow 2 (two value).valueWidth := by
    rw [hWidth]
    exact lt_pow_byteCount h
  rw [sized2, sized2By, Field.ofValue_of_lt name hFits]
  apply Success.delivers_pure
  exact ⟨_, _, rfl, Bits.toNat_ofNat hFits⟩

/- A value that was written behind its code was small. -/
theorem lt_of_sized2_eq_ok
    {name : String}
    {value : Nat}
    {fields : List Field}
    (h : sized2 name value = .ok fields) :
    value < Nat.pow 2 32 := by
  have hLt := (sized2By_eq_ok h).1
  have hLe := byteCount_le value
  exact Nat.lt_of_lt_of_le hLt
    (Nat.pow_le_pow_right (by decide) (by omega))

theorem delivers_sized3
    (name : String)
    {value : Nat}
    (h : value < Nat.pow 2 32) :
    Delivers (fun fs => (Record.mk fs).width ≤ 35)
      (sized3 name value) := by
  have hCode : (three value).field.width = 3 :=
    width_field (three value)
  unfold sized3
  by_cases hZero : value = 0
  · have hBytes : (three value).bytes = 0 := by
      simp [three, hZero]
    simp only [hBytes, if_true]
    apply Success.delivers_pure
    simp only [Record.width, List.map_cons, List.map_nil,
      total_cons, total_nil, hCode]
    omega
  · have hBytes :
        (three value).bytes = byteCount value := by
      simp [three, hZero]
    have hPos := byteCount_pos value
    have hLe := byteCount_le value
    have hWidth :
        (three value).valueWidth = 8 * byteCount value := by
      rw [valueWidth, hBytes, Nat.mul_comm]
    have hFits := lt_pow_byteCount h
    rw [← hWidth] at hFits
    simp only
    rw [if_neg (by omega)]
    apply (Field.delivers_ofValue name hFits).bind
    intro f hf
    apply Success.delivers_pure
    simp only [Record.width, List.map_cons, List.map_nil,
      total_cons, total_nil, hCode, hf, hWidth]
    omega

end WidthCode

end LightShow
