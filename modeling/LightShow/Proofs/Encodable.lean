import LightShow.Image.SharedLeds
import LightShow.Proofs.Fitting
import LightShow.Proofs.Message
import LightShow.Proofs.Schedule

/-
  Operations that have a record, and paths that are made.

  Whether an operation has a record depends on its own
  numbers alone: LEDs that are on the device, a brightness
  of five bits, ticks of thirty-two and a thread of eight.
  Paths are made of instructions if there are few enough of
  them and every activation names one.

  Key definitions include:
    * `RampStep.HeldBy`
    * `Op.Encodable`
    * `Op.HoldsSteps`

  Main statements:
    * `Op.encodeRamp_cases`
    * `Op.delivers_encode`
    * `Path.delivers_schedule`
    * `Path.delivers_encodeAll`
-/

namespace LightShow

open Success (Delivers)

------------------------------------------------------------
-- Ramp Steps
------------------------------------------------------------

namespace RampStep

/- A step takes no longer than its ramp, or one tick. -/
theorem ticks_le
    (ticks delta : Nat) :
    (of ticks delta).ticks ≤ max 1 ticks := by
  unfold of
  split
  · exact Nat.le_max_left 1 ticks
  split
  · exact Nat.le_max_left 1 ticks
  split
  · exact Nat.le_trans (Nat.div_le_self ticks delta)
      (Nat.le_max_right 1 ticks)
  · exact Nat.le_max_left 1 ticks

/- A step moves no farther than its ramp. -/
theorem color_le
    (ticks delta : Nat) :
    (of ticks delta).color ≤ delta := by
  unfold of
  split
  · exact Nat.zero_le delta
  split
  · exact Nat.le_refl delta
  split
  · exact Nat.one_le_iff_ne_zero.mpr ‹_›
  · exact Nat.div_le_self delta ticks

/-
  The last two of some fields hold a step: its ticks and, in
  one byte, its color.
-/
def HeldBy (step : RampStep) (fields : List Field) : Prop :=
  ∃ front pace size,
    fields = front ++ [pace, size] ∧
      Bits.toNat pace.bits = step.ticks ∧
      size.width = 8 ∧
      Bits.toNat size.bits = step.color

end RampStep

------------------------------------------------------------
-- Records
------------------------------------------------------------

namespace Op

/- What the numbers of an operation must satisfy. -/
def Encodable (device : Device) : Op → Prop
  | .pause millis =>
      device.tickMillis ≠ 0 ∧
        device.tickMillis ∣ millis ∧
        millis / device.tickMillis < Nat.pow 2 32
  | .glow leds color =>
      (∀ led ∈ leds, led < device.ledCount) ∧
        color.bright.toNat ≤ 31
  | .ramp leds _ _ millis =>
      (∀ led ∈ leds, led < device.ledCount) ∧
        millis / device.tickMillis < Nat.pow 2 32
  | .activate thread => thread < Nat.pow 2 8
  | .call _ => False
  | _ => True

/- A bitmap is refused for an LED that is not there. -/
theorem ledBitmap_cases
    (leds : List Nat)
    (count : Nat) :
    (∃ bitmap, ledBitmap leds count = .ok bitmap) ∨
      ∃ led ∈ leds, count ≤ led ∧
        ledBitmap leds count =
          .error (.flagOutOfRange "led bitmap" led count) := by
  unfold ledBitmap
  cases hFar : leds.find? fun led => count ≤ led with
  | none => exact .inl ⟨_, rfl⟩
  | some led =>
      have hLed := List.find?_some hFar
      exact .inr ⟨led, List.mem_of_find?_eq_some hFar,
        of_decide_eq_true hLed, rfl⟩

theorem delivers_ledBitmap
    {leds : List Nat}
    {count : Nat}
    (h : ∀ led ∈ leds, led < count) :
    Delivers (fun _ => True) (ledBitmap leds count) := by
  rcases ledBitmap_cases leds count
    with ⟨bitmap, hBitmap⟩ | ⟨led, hLed, hFar, -⟩
  · exact ⟨bitmap, hBitmap, trivial⟩
  · exact absurd (h led hLed) (Nat.not_lt.mpr hFar)

/- Every channel value fits, given a small brightness. -/
theorem get_lt_pow_valueWidth
    {color : Color}
    (h : color.bright.toNat ≤ 31)
    (ch : Channel) :
    color.get ch < Nat.pow 2 ch.valueWidth := by
  cases ch with
  | bright => exact Nat.lt_succ_of_le h
  | red => exact color.get_lt .red
  | green => exact color.get_lt .green
  | blue => exact color.get_lt .blue

theorem delivers_encodeGlow
    {ledCount : Nat}
    {leds : List Nat}
    {color : Color}
    (hLeds : ∀ led ∈ leds, led < ledCount)
    (hBright : color.bright.toNat ≤ 31) :
    Delivers (fun _ => True)
      (encodeGlow ledCount leds color) := by
  have hColor :
      Delivers (fun _ => True) (colorFields color) := by
    have hAll := Success.delivers_mapM
      (P := fun _ => True)
      fun ch (_ : ch ∈ Channel.all) =>
        (Field.delivers_ofValue s!"{ch.text} value"
          (get_lt_pow_valueWidth hBright ch)).weaken
            fun _ _ => trivial
    exact hAll.weaken fun _ _ => trivial
  apply hColor.bind
  intro values _
  apply (delivers_ledBitmap hLeds).bind
  intro bitmap _
  exact Success.delivers_pure trivial

/- A channel moves by less than a byte. -/
theorem natAbs_delta_lt
    (start stop : Color)
    (ch : Channel) :
    (start.delta stop ch).natAbs < Nat.pow 2 8 := by
  have hStart := start.get_lt ch
  have hStop := stop.get_lt ch
  unfold Color.delta
  omega

/- The ticks of a step fit wherever those of its ramp do. -/
theorem rampTicks_lt
    {ticks : Nat}
    (hTicks : ticks < Nat.pow 2 32)
    (delta : Nat) :
    (RampStep.of ticks delta).ticks < Nat.pow 2 32 := by
  have hOne : 1 < Nat.pow 2 32 := by
    decide
  exact Nat.lt_of_le_of_lt (RampStep.ticks_le ticks delta)
    (Nat.max_lt.mpr ⟨hOne, hTicks⟩)

/- The color of a step fits into a byte. -/
theorem rampColor_lt
    (start stop : Color)
    (ticks : Nat)
    (ch : Channel) :
    (RampStep.of ticks (start.delta stop ch).natAbs).color <
      Nat.pow 2 8 :=
  Nat.lt_of_le_of_lt (RampStep.color_le ticks _)
    (natAbs_delta_lt start stop ch)

/- The fields of a channel that moves end in its step. -/
theorem delivers_rampChannel
    {ticks : Nat}
    (hTicks : ticks < Nat.pow 2 32)
    (start stop : Color)
    (ch : Channel) :
    Delivers
      (fun fields =>
        start.delta stop ch ≠ 0 →
          (RampStep.of ticks
            (start.delta stop ch).natAbs).HeldBy fields)
      (rampChannel start stop ticks ch) := by
  unfold rampChannel
  by_cases hLevel : start.delta stop ch = 0
  · rw [if_pos hLevel]
    exact Success.delivers_pure fun hMoves =>
      absurd hLevel hMoves
  · rw [if_neg hLevel]
    apply (WidthCode.delivers_sized2_value _
      (rampTicks_lt hTicks _)).bind
    rintro fields ⟨code, pace, rfl, hPace⟩
    have hSize := rampColor_lt start stop ticks ch
    simp only [Field.ofValue_of_lt _ hSize]
    apply Success.delivers_pure
    intro _
    refine ⟨[_, _, code], pace, _, rfl, hPace, ?_, ?_⟩
    · exact Bits.length_ofNat 8 _
    · exact Bits.toNat_ofNat hSize

/- The parts of the channels that move end in their steps. -/
def HoldsSteps
    (start stop : Color)
    (ticks : Nat) :
    (channels : List Channel) →
      (parts : List (List Field)) → Prop :=
  List.Forall₂ fun ch part =>
    start.delta stop ch ≠ 0 →
      (RampStep.of ticks
        (start.delta stop ch).natAbs).HeldBy part

/-
  A ramp of few enough ticks is written with all its steps,
  or refused for an LED that is not there.
-/
theorem encodeRamp_cases
    {ticks : Nat}
    (hTicks : ticks < Nat.pow 2 32)
    (ledCount : Nat)
    (leds : List Nat)
    (start stop : Color)
    (forced : Bool) :
    (∃ time parts bitmap,
      encodeRamp ledCount leds start stop ticks forced =
          .ok (time ++
            [channelBitmap (rampChannels start stop forced)]
              ++ parts.flatten ++ [bitmap]) ∧
        HoldsSteps start stop ticks
          (rampChannels start stop forced) parts) ∨
      ∃ led ∈ leds, ledCount ≤ led ∧
        encodeRamp ledCount leds start stop ticks forced =
          .error
            (.flagOutOfRange "led bitmap" led ledCount) := by
  rcases WidthCode.delivers_sized2 "ramp tick value" hTicks
    with ⟨time, hTime, -⟩
  have hParts := Success.delivers_forall₂
    fun ch (_ : ch ∈ rampChannels start stop forced) =>
      delivers_rampChannel hTicks start stop ch
  rcases hParts with ⟨parts, hParts, hSteps⟩
  simp only [encodeRamp, hTime, hParts]
  rcases ledBitmap_cases leds ledCount
    with ⟨bitmap, hBitmap⟩ | ⟨led, hLed, hFar, hBitmap⟩
  · rw [hBitmap]
    exact .inl ⟨time, parts, bitmap, rfl, hSteps⟩
  · rw [hBitmap]
    exact .inr ⟨led, hLed, hFar, rfl⟩

theorem delivers_encodeRamp
    {ledCount ticks : Nat}
    {leds : List Nat}
    (hLeds : ∀ led ∈ leds, led < ledCount)
    (hTicks : ticks < Nat.pow 2 32)
    (start stop : Color)
    (forced : Bool) :
    Delivers (fun _ => True)
      (encodeRamp ledCount leds start stop ticks forced) := by
  rcases encodeRamp_cases hTicks ledCount leds start stop
      forced
    with ⟨_, _, _, hWritten, -⟩ | ⟨led, hLed, hFar, -⟩
  · exact ⟨_, hWritten, trivial⟩
  · exact absurd (hLeds led hLed) (Nat.not_lt.mpr hFar)

/- An encodable operation has a record. -/
theorem delivers_encode
    {device : Device}
    {op : Op}
    (h : op.Encodable device)
    (shared : Std.HashSet Nat) :
    Delivers (fun _ => True) (op.encode device shared) := by
  have hBody :
      Delivers (fun _ => True)
        (op.encodeBody device shared) := by
    cases op with
    | pause millis =>
        rcases h with ⟨hTick, hWhole, hShort⟩
        have hGood :
            ¬(device.tickMillis = 0 ∨
              millis % device.tickMillis ≠ 0) := by
          rintro (hZero | hRest)
          · exact hTick hZero
          · exact hRest (Nat.mod_eq_zero_of_dvd hWhole)
        simp only [encodeBody, encodePause, if_neg hGood]
        exact (WidthCode.delivers_sized2 _ hShort).weaken
          fun _ _ => trivial
    | glow leds color => exact delivers_encodeGlow h.1 h.2
    | ramp leds start stop millis =>
        exact delivers_encodeRamp h.1 h.2 start stop _
    | activate thread =>
        apply (Field.delivers_ofValue "path index" h).bind
        intro index _
        exact Success.delivers_pure trivial
    | call function => exact h.elim
    | _ => exact ⟨_, rfl, trivial⟩
  unfold encode
  cases hTag : op.tag? with
  | none =>
      cases op with
      | call function => exact h.elim
      | _ => cases hTag
  | some tag =>
      apply hBody.bind
      intro body _
      exact Success.delivers_pure trivial

end Op

------------------------------------------------------------
-- Paths
------------------------------------------------------------

namespace Path

/- Paths whose operations are encodable have records. -/
theorem delivers_encodeAll
    {device : Device}
    {paths : List Path}
    (h : ∀ p ∈ paths, ∀ s ∈ p.steps, s.op.Encodable device)
    (shared : Std.HashSet Nat) :
    Delivers (fun _ => True)
      (encodeAll device shared paths) := by
  refine (Success.delivers_mapM (P := fun _ => True)
    ?_).weaken fun _ _ => trivial
  intro p hp
  have hSteps := Success.delivers_mapM (P := fun _ => True)
    fun s (hs : s ∈ p.steps) =>
      (((Op.delivers_encode (h p hp s hs) shared).placed
        s.span).bind fun record _ =>
          (Success.delivers_pure trivial :
            Delivers (fun _ => True)
              (pure { s with record := record })))
  apply hSteps.bind
  intro steps _
  exact Success.delivers_pure trivial

/- Activations of paths that there are get their threads. -/
theorem delivers_retarget
    {threads : List Nat}
    {op : Op}
    (h : ∀ target, op = .activate target → target ∈ threads)
    (span : Option Span) :
    Delivers (fun _ => True) (retarget threads span op) := by
  cases op with
  | activate target =>
      have hIndex := h target rfl
      cases hFind : threads.idxOf? target with
      | none =>
          exact absurd hIndex
            (List.idxOf?_eq_none_iff.mp hFind)
      | some thread =>
          simp only [retarget, hFind]
          exact ⟨_, rfl, trivial⟩
  | _ => exact ⟨_, rfl, trivial⟩

/- Threads that activations get are threads of paths. -/
theorem retarget_lt
    {threads : List Nat}
    {span : Option Span}
    {op : Op}
    {thread : Nat}
    (h : retarget threads span op = .ok (.activate thread)) :
    thread < threads.length := by
  cases op with
  | activate target =>
      cases hFind : threads.idxOf? target with
      | none =>
          simp only [retarget, hFind] at h
          cases h
      | some found =>
          simp only [retarget, hFind] at h
          cases h
          exact (List.findIdx?_eq_some_iff_getElem.mp
            hFind).1
  | _ => cases h

/-
  Paths are made if there are few enough of them and every
  activation on a path names one.
-/
theorem delivers_schedule_of_own
    {maxThreads : Nat}
    {is : List Instruction}
    (hCount : (ids is).length ≤ maxThreads)
    (hTargets : ∀ id, ∀ i ∈ own is id, ∀ target,
      i.op = .activate target → target ∈ ids is) :
    Delivers (fun _ => True) (schedule maxThreads is) := by
  have hFew : ¬maxThreads < (ids is).length :=
    Nat.not_lt.mpr hCount
  simp only [schedule, if_neg hFew]
  refine (Success.delivers_mapM (P := fun _ => True)
    ?_).weaken fun _ _ => trivial
  rintro ⟨key, thread⟩ -
  have hEach : ∀ i ∈ own is key.2,
      Delivers (fun _ => True)
        (toStep ((order is).map Prod.snd) thread i) := by
    intro i hi
    have hKnown : ∀ target, i.op = .activate target →
        target ∈ (order is).map Prod.snd := by
      intro target hOp
      exact (perm_order is).mem_iff.mpr
        (hTargets key.2 i hi target hOp)
    apply (delivers_retarget hKnown i.span).bind
    intro op _
    exact Success.delivers_pure trivial
  apply (Success.delivers_mapM hEach).bind
  intro steps _
  exact Success.delivers_pure trivial

/- So they are if all activations name paths. -/
theorem delivers_schedule
    {maxThreads : Nat}
    {is : List Instruction}
    (hCount : (ids is).length ≤ maxThreads)
    (hTargets : ∀ i ∈ is, ∀ target,
      i.op = .activate target → target ∈ ids is) :
    Delivers (fun _ => True) (schedule maxThreads is) :=
  delivers_schedule_of_own hCount fun _ i hi =>
    hTargets i (List.mem_of_mem_filter hi)

/- More paths than threads are refused. -/
theorem schedule_of_lt
    {maxThreads : Nat}
    {is : List Instruction}
    (h : maxThreads < (ids is).length) :
    schedule maxThreads is =
      .error ⟨.tooManyThreads (ids is).length maxThreads,
        none⟩ := by
  simp only [schedule, if_pos h]
  rfl

/- There are as many paths as path numbers. -/
theorem length_schedule
    {maxThreads : Nat}
    {is : List Instruction}
    {paths : List Path}
    (h : schedule maxThreads is = .ok paths) :
    paths.length = (ids is).length := by
  have hIds := congrArg List.length (map_id_schedule h)
  rw [List.length_map, (perm_order is).length_eq] at hIds
  exact hIds

theorem length_ids_le_of_schedule
    {maxThreads : Nat}
    {is : List Instruction}
    {paths : List Path}
    (h : schedule maxThreads is = .ok paths) :
    (ids is).length ≤ maxThreads := by
  by_contra hMany
  rw [schedule_of_lt (Nat.lt_of_not_le hMany)] at h
  cases h

/- Where the operation of a step comes from. -/
theorem exists_instruction
    {maxThreads : Nat}
    {is : List Instruction}
    {paths : List Path}
    (h : schedule maxThreads is = .ok paths)
    {p : Path}
    (hp : p ∈ paths)
    {s : Step}
    (hs : s ∈ p.steps) :
    ∃ i ∈ is,
      (s.op = i.op ∧ ∀ target, i.op ≠ .activate target) ∨
        ∃ target thread,
          i.op = .activate target ∧
            s.op = .activate thread ∧
            thread < (ids is).length := by
  have hSteps := steps_schedule h hp
  rcases List.mem_iff_getElem.mp hs with ⟨k, hk, rfl⟩
  have hk' : k < (own is p.id).length :=
    hSteps.length_eq ▸ hk
  have hStep := (toStep_eq_ok (hSteps.get hk' hk)).1
  have hMem : (own is p.id)[k] ∈ is :=
    List.mem_of_mem_filter (List.getElem_mem hk')
  simp only [List.get_eq_getElem] at hStep
  refine ⟨_, hMem, ?_⟩
  by_cases hActivates : ∃ target,
      (own is p.id)[k].op = .activate target
  · rcases hActivates with ⟨target, hTarget⟩
    have hThread : ∃ thread,
        p.steps[k].op = .activate thread := by
      rcases retarget_eq_ok hStep
        with hSame | ⟨_, thread, -, hThread⟩
      · exact ⟨target, hSame.trans hTarget⟩
      · exact ⟨thread, hThread⟩
    rcases hThread with ⟨thread, hThread⟩
    rw [hThread] at hStep
    have hLt := retarget_lt hStep
    rw [(perm_order is).length_eq] at hLt
    exact .inr ⟨target, thread, hTarget, hThread, hLt⟩
  · rcases retarget_eq_ok hStep
      with hSame | ⟨target, _, hTarget, -⟩
    · exact .inl ⟨hSame, fun target hOp =>
        hActivates ⟨target, hOp⟩⟩
    · exact absurd ⟨target, hTarget⟩ hActivates

end Path

end LightShow
