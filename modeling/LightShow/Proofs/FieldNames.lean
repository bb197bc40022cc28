import LightShow.Image.Listing
import LightShow.Proofs.Layout
import LightShow.Proofs.Linking
import LightShow.Proofs.Reading

/-
  The names of the fields of an image.

  Fields are named by fixed texts, some with a channel or a
  thread in front. None of them has a colon or breaks a
  line, so a listing can put a colon behind them.

  Key definitions include:
    * `Success.Ensures`
    * `Listing.isLegible`
    * `Listing.Legible`

  Main statements:
    * `Op.ensures_encode`
    * `Header.ensures_ofPaths`
    * `Path.LaidOutFrom.legible`
-/

namespace LightShow

------------------------------------------------------------
-- What Success Ensures
------------------------------------------------------------

namespace Success

variable {ε α β : Type}

/- If a check succeeds, its result is of some kind. -/
def Ensures (P : α → Prop) (x : Except ε α) : Prop :=
  ∀ a, x = .ok a → P a

theorem ensures_ok
    {P : α → Prop}
    {a : α}
    (h : P a) :
    Ensures P (.ok a : Except ε α) := by
  rintro b ⟨⟩
  exact h

theorem ensures_pure
    {P : α → Prop}
    {a : α}
    (h : P a) :
    Ensures P (pure a : Except ε α) :=
  ensures_ok h

theorem ensures_error
    (P : α → Prop)
    (e : ε) :
    Ensures P (.error e : Except ε α) :=
  nofun

theorem Ensures.bind
    {P : α → Prop}
    {Q : β → Prop}
    {x : Except ε α}
    {f : α → Except ε β}
    (hFirst : Ensures P x)
    (hSecond : ∀ a, P a → Ensures Q (f a)) :
    Ensures Q (x >>= f) := by
  intro b h
  rcases bind_eq_ok h with ⟨a, hx, hf⟩
  exact hSecond a (hFirst a hx) b hf

theorem ensures_mapM
    {P : β → Prop}
    {f : α → Except ε β}
    (h : ∀ a, Ensures P (f a))
    (xs : List α) :
    Ensures (fun ys => ∀ y ∈ ys, P y) (xs.mapM f) := by
  intro ys hAll y hy
  rcases exists_of_forall₂ (mapM_eq_ok hAll) y hy
    with ⟨a, -, hEach⟩
  exact h a y hEach

end Success

------------------------------------------------------------
-- Classes Of Characters
------------------------------------------------------------

namespace Text

theorem not_mem_of_class
    {p : Char → Bool}
    {c : Char}
    (hp : p c = false)
    {cs : List Char}
    (h : cs.all p = true) :
    c ∉ cs := by
  intro hc
  have hTrue := List.all_eq_true.mp h c hc
  rw [hp] at hTrue
  cases hTrue

theorem toList_number
    (n : Nat) :
    (toString n).toList = Nat.toDigits 10 n := by
  rw [Nat.toString_eq_repr, Nat.toList_repr]

/- Numbers are written with digits. -/
theorem isDigit_number
    (n : Nat) :
    (toString n).toList.all Char.isDigit = true := by
  rw [toList_number, List.all_eq_true]
  intro c hc
  exact Nat.isDigit_of_mem_toDigits (by decide) (by decide) hc

end Text

------------------------------------------------------------
-- Legible Names
------------------------------------------------------------

namespace Listing

/- A character that neither ends a name nor a line. -/
def isNameChar (c : Char) : Bool :=
  c != ':' && c != '\n'

/- A text without colons and line breaks. -/
def isLegible (s : String) : Bool :=
  s.toList.all isNameChar

theorem isLegible_append
    (s t : String) :
    isLegible (s ++ t) = (isLegible s && isLegible t) := by
  simp [isLegible]

theorem isLegible_number
    (n : Nat) :
    isLegible (toString n) = true := by
  have hDigits := Text.isDigit_number n
  have hColon := Text.not_mem_of_class (c := ':') rfl hDigits
  have hBreak := Text.not_mem_of_class (c := '\n') rfl hDigits
  refine List.all_eq_true.mpr fun c hc => ?_
  simp [isNameChar, ne_of_mem_of_not_mem hc hColon,
    ne_of_mem_of_not_mem hc hBreak]

/- Fields with names that are such texts. -/
def Legible (fields : List Field) : Prop :=
  ∀ f ∈ fields, isLegible f.name = true

@[simp] theorem legible_nil : Legible [] :=
  nofun

@[simp] theorem legible_cons
    {f : Field}
    {fields : List Field} :
    Legible (f :: fields) ↔
      isLegible f.name = true ∧ Legible fields :=
  List.forall_mem_cons

@[simp] theorem legible_append
    {first second : List Field} :
    Legible (first ++ second) ↔
      Legible first ∧ Legible second :=
  List.forall_mem_append

theorem legible_flatten
    {all : List (List Field)}
    (h : ∀ fields ∈ all, Legible fields) :
    Legible all.flatten := by
  intro f hf
  rcases List.mem_flatten.mp hf with ⟨fields, hFields, hf⟩
  exact h fields hFields f hf

end Listing

open Listing (isLegible Legible)
open Success (Ensures ensures_pure ensures_ok ensures_error
  ensures_mapM)

------------------------------------------------------------
-- Fields Of Records
------------------------------------------------------------

theorem Field.ensures_ofValue
    {name : String}
    (h : isLegible name = true)
    (width value : Nat) :
    Ensures (fun f : Field => isLegible f.name = true)
      (ofValue name width value) := by
  intro f hf
  rcases ofValue_eq_ok hf with ⟨-, rfl⟩
  exact h

namespace WidthCode

theorem isLegible_field
    (c : WidthCode) :
    isLegible c.field.name = true := by
  have hName : c.field.name = "byte width opcode" := rfl
  rw [hName]
  decide

theorem ensures_sized2By
    {name : String}
    (h : isLegible name = true)
    (sizedBy value : Nat) :
    Ensures Legible (sized2By name sizedBy value) := by
  unfold sized2By
  refine (Field.ensures_ofValue h _ _).bind fun f hf => ?_
  exact ensures_pure (by simp [isLegible_field, hf])

theorem ensures_sized2
    {name : String}
    (h : isLegible name = true)
    (value : Nat) :
    Ensures Legible (sized2 name value) :=
  ensures_sized2By h value value

theorem ensures_sized3
    {name : String}
    (h : isLegible name = true)
    (value : Nat) :
    Ensures Legible (sized3 name value) := by
  unfold sized3
  dsimp only
  split
  · exact ensures_pure (by simp [isLegible_field])
  · refine (Field.ensures_ofValue h _ _).bind fun f hf => ?_
    exact ensures_pure (by simp [isLegible_field, hf])

end WidthCode

namespace Op

@[simp] theorem name_fixed
    (name : String)
    (width value : Nat) :
    (fixed name width value).name = name :=
  rfl

theorem ensures_colorFields
    (color : Color) :
    Ensures Legible (colorFields color) :=
  ensures_mapM
    (fun ch => Field.ensures_ofValue
      (by cases ch <;> decide) _ _) Channel.all

theorem ensures_ledBitmap
    (leds : List Nat)
    (count : Nat) :
    Ensures (fun f : Field => isLegible f.name = true)
      (ledBitmap leds count) := by
  unfold ledBitmap
  dsimp only
  split
  · exact ensures_error _ _
  · have hName : isLegible "led bitmap" = true := by decide
    exact ensures_ok hName

theorem ensures_encodeGlow
    (ledCount : Nat)
    (leds : List Nat)
    (color : Color) :
    Ensures Legible (encodeGlow ledCount leds color) := by
  unfold encodeGlow
  refine (ensures_colorFields color).bind fun values hValues =>
    (ensures_ledBitmap leds ledCount).bind fun bitmap hBitmap =>
      ensures_pure ?_
  have hMask : isLegible "color bitmap" = true := by decide
  have hAction : isLegible "action opcode" = true := by decide
  simp [channelBitmap, hMask, hAction, hValues, hBitmap]

theorem ensures_rampChannel
    (start stop : Color)
    (ticks : Nat)
    (ch : Channel) :
    Ensures Legible (rampChannel start stop ticks ch) := by
  have hInit :
      isLegible s!"{ch.text} init value" = true := by
    cases ch <;> decide
  have hDirection :
      isLegible s!"{ch.text} inc/dec opcode" = true := by
    cases ch <;> decide
  have hPace :
      isLegible s!"{ch.text} tick step" = true := by
    cases ch <;> decide
  have hSize :
      isLegible s!"{ch.text} color step" = true := by
    cases ch <;> decide
  unfold rampChannel
  dsimp only
  split
  · exact ensures_pure (by simp [hInit, hDirection])
  · refine (WidthCode.ensures_sized2 hPace _).bind
      fun pace hPace => (Field.ensures_ofValue hSize _ _).bind
        fun size hSize => ensures_pure ?_
    simp [hInit, hDirection, hPace, hSize]

theorem ensures_encodeRamp
    (ledCount : Nat)
    (leds : List Nat)
    (start stop : Color)
    (ticks : Nat)
    (forced : Bool) :
    Ensures Legible
      (encodeRamp ledCount leds start stop ticks forced) := by
  unfold encodeRamp
  refine (WidthCode.ensures_sized2 (by decide) ticks).bind
    fun time hTime => (ensures_mapM
      (ensures_rampChannel start stop ticks) _).bind
      fun moves hMoves =>
        (ensures_ledBitmap leds ledCount).bind
          fun bitmap hBitmap => ensures_pure ?_
  have hMask : isLegible "color bitmap" = true := by decide
  simp [channelBitmap, hTime, hMask, hBitmap,
    Listing.legible_flatten hMoves]

/- Every record has legible fields. -/
theorem ensures_encode
    (device : Device)
    (shared : Std.HashSet Nat)
    (op : Op) :
    Ensures (fun r : Record => Legible r.fields)
      (op.encode device shared) := by
  have hTag : isLegible "type" = true := by decide
  have hBody :
      Ensures Legible (op.encodeBody device shared) := by
    cases op with
    | control memory command =>
        have hMemory : isLegible "memory opcode" = true := by
          decide
        have hControl :
            isLegible "control opcode" = true := by
          decide
        exact ensures_ok (by
          simp [controlFields, hMemory, hControl])
    | here label scope => exact ensures_ok Listing.legible_nil
    | goto label scope =>
        have hTarget : isLegible targetName = true := by
          decide
        exact ensures_ok (by simp [Field.zeros, hTarget])
    | pause millis =>
        simp only [encodeBody, encodePause]
        split
        · exact ensures_error _ _
        · exact WidthCode.ensures_sized2 (by decide) _
    | glow leds color => exact ensures_encodeGlow _ _ _
    | ramp leds start stop millis =>
        exact ensures_encodeRamp _ _ _ _ _ _
    | activate target =>
        exact (Field.ensures_ofValue (by decide) _ _).bind
          fun f hf => ensures_pure (by simp [hf])
    | finish => exact ensures_ok Listing.legible_nil
    | call name => exact ensures_error _ _
  unfold encode
  split
  · exact ensures_error _ _
  · exact hBody.bind fun body hBody =>
      ensures_pure (by simp [tagField, hTag, hBody])

end Op

------------------------------------------------------------
-- Fields Of The Header
------------------------------------------------------------

theorem Path.legible_padding
    (width : Nat) :
    Legible (padding width) := by
  have hName : isLegible paddingName = true := by decide
  unfold padding
  split
  · exact Listing.legible_nil
  · simp [Field.zeros, hName]

theorem Path.ensures_block
    (tick thread : Nat)
    (p : Path)
    (e : Extent) :
    Ensures Legible (p.block tick thread e) := by
  have hTag : isLegible s!"path={thread}" = true := by
    rw [Listing.isLegible_append, Bool.and_eq_true]
    exact ⟨by decide, Listing.isLegible_number thread⟩
  have hName {what : String} (h : isLegible what = true) :
      isLegible (toString s!"path={thread}" ++ what) =
        true := by
    rw [Listing.isLegible_append, Bool.and_eq_true]
    exact ⟨hTag, h⟩
  unfold block
  refine (WidthCode.ensures_sized2
      (hName (by decide)) _).bind fun address hAddress =>
    (WidthCode.ensures_sized2
      (hName (by decide)) _).bind fun length hLength =>
    (WidthCode.ensures_sized2By
      (hName (by decide)) _ _).bind fun reserved hReserved =>
    (WidthCode.ensures_sized3
      (hName (by decide)) _).bind fun ramp hRamp =>
    (WidthCode.ensures_sized3
      (hName (by decide)) _).bind fun pause hPause =>
    ensures_pure ?_
  simp [hAddress, hLength, hReserved, hRamp, hPause]

namespace Header

theorem ensures_preamble
    (device : Device)
    (paths : List Path) :
    Ensures Legible (preamble device paths) := by
  unfold preamble
  refine (Field.ensures_ofValue (by decide) _ _).bind
      fun leds hLeds =>
    (Field.ensures_ofValue (by decide) _ _).bind
      fun tick hTick =>
    (Field.ensures_ofValue (by decide) _ _).bind
      fun bright hBright =>
    (Field.ensures_ofValue (by decide) _ _).bind
      fun count hCount => ensures_pure ?_
  have hEnded : isLegible "path end bitmap" = true := by
    decide
  simp [hLeds, hTick, hBright, hCount, endedBitmap, hEnded]

/- The header has legible fields. -/
theorem ensures_ofPaths
    (device : Device)
    (paths : List Path) :
    Ensures (fun h : Header => Legible h.record.fields)
      (ofPaths device paths) := by
  have hTag : isLegible "type" = true := by decide
  unfold ofPaths
  refine (ensures_preamble device paths).bind
      fun start hStart =>
    (ensures_mapM (fun x : Path × Nat × Extent =>
      x.1.ensures_block device.tickMillis x.2.1 x.2.2)
      _).bind fun blocks hBlocks =>
    (Field.ensures_ofValue (by decide) _ _).bind
      fun region hRegion =>
    (Field.ensures_ofValue (by decide) _ _).bind
      fun size hSize => ensures_pure ?_
  simp [Op.tagField, hTag, hSize, hRegion, hStart,
    Listing.legible_flatten hBlocks, Path.legible_padding]

end Header

------------------------------------------------------------
-- Fields In A Layout
------------------------------------------------------------

/- A new value leaves the names of a record alone. -/
theorem Record.legible_setNamed
    {r s : Record}
    {name : String}
    {value : Nat}
    (h : r.setNamed name value = some (.ok s))
    (hLegible : Legible r.fields) :
    Legible s.fields := by
  rcases Option.bind_eq_some_iff.mp h with ⟨i, -, hAt⟩
  rcases Option.map_eq_some_iff.mp hAt
    with ⟨f, hField, hSet⟩
  rcases Success.bind_eq_ok hSet with ⟨g, hg, hs⟩
  cases Success.pure_eq_ok hs
  have hName : g.name = f.name := by
    unfold Field.set at hg
    split at hg
    · cases hg
      rfl
    · cases hg
  intro x hx
  rcases List.mem_or_eq_of_mem_set hx with hx | rfl
  · exact hLegible x hx
  · rw [hName]
    exact hLegible f (List.mem_of_getElem? hField)

namespace Path

/- The names of a path that is laid out. -/
theorem LaidOut.legible
    {start : Nat}
    {p q : Path}
    (h : LaidOut start p q)
    (hLegible : ∀ s ∈ p.steps, Legible s.record.fields) :
    ∀ t ∈ q.steps, Legible t.record.fields := by
  have hPadded : ∀ s ∈ p.pad.steps,
      Legible s.record.fields := by
    rcases pad_steps p
      with ⟨-, hPad⟩ | ⟨steps, last, hSteps, hPad⟩
    · rw [hPad]
      exact nofun
    · rw [hSteps] at hLegible
      rcases List.forall_mem_append.mp hLegible
        with ⟨hInit, hLast⟩
      rw [hPad]
      refine List.forall_mem_append.mpr ⟨hInit, ?_⟩
      intro s hs
      rw [List.mem_singleton.mp hs]
      exact Listing.legible_append.mpr
        ⟨hLast last (List.mem_singleton_self last),
          legible_padding p.width⟩
  refine Success.forall_of_forall₂ ?_ h.steps_resolve
    (P := fun s => Legible s.record.fields) ?_
  · intro s t hStep hs
    rcases resolveStep_eq_ok hStep with ⟨-, rfl⟩ | hJump
    · exact hs
    · rcases hJump with ⟨_, _, _, record, -, -, hRecord, rfl⟩
      exact Record.legible_setNamed hRecord hs
  · intro s hs
    rcases mem_placeFrom hs with ⟨t, ht, n, rfl⟩
    exact hPadded t ht

/- Paths that are encoded and laid out have legible fields. -/
theorem LaidOutFrom.legible
    {device : Device}
    {shared : Std.HashSet Nat}
    {scheduled encoded paths : List Path}
    (hEncoded :
      encodeAll device shared scheduled = .ok encoded)
    (h : LaidOutFrom 0 encoded paths) :
    ∀ q ∈ paths, ∀ t ∈ q.steps, Legible t.record.fields := by
  have hRecords : ∀ p ∈ encoded, ∀ s ∈ p.steps,
      Legible s.record.fields := by
    intro p hp s hs
    exact s.op.ensures_encode device shared _
      (encode_of_encodeAll hEncoded p hp s hs)
  refine Success.forall_of_forall₂ ?_ h.forall₂_laidOut
    hRecords
  rintro p q ⟨bit, hLaid⟩ hp
  exact hLaid.legible hp

end Path

end LightShow
