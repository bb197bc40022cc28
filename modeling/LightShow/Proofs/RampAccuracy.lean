import Mathlib
import LightShow.Proofs.Encodable

/-
  How close ramps come to their targets.

  A channel can only move by whole colors at whole ticks. A
  ramp with fewer ticks than colors moves at every tick and
  may stop short of its target, by less than its number of
  ticks. A ramp with more ticks than colors moves one color
  at a time and comes by its target, but may go on behind it,
  by less than the change itself.

  Key definitions include:
    * `RampStep.moved`
    * `RampStep.Accurate`

  Main statements:
    * `RampStep.moved_eq`
    * `RampStep.accurate_of_lt`
    * `RampStep.accurate_of_le`
    * `RampStep.steps_are_accurate`
-/

namespace LightShow

namespace RampStep

------------------------------------------------------------
-- Movement
------------------------------------------------------------

/-
  How far a channel has moved after some ticks: it takes a
  step at every tick that the ticks of the step divide.
-/
def moved (step : RampStep) : (ticks : Nat) → Nat
  | 0 => 0
  | tick + 1 =>
      step.moved tick +
        if step.ticks ∣ tick + 1 then step.color else 0

/- A channel takes as many steps as fit into the ticks. -/
theorem moved_eq
    (step : RampStep)
    (ticks : Nat) :
    step.moved ticks = ticks / step.ticks * step.color := by
  induction ticks with
  | zero => simp [moved]
  | succ tick ih =>
      rw [moved, ih, Nat.succ_div]
      by_cases hStep : step.ticks ∣ tick + 1
      · rw [if_pos hStep, if_pos hStep, Nat.add_mul,
          Nat.one_mul]
      · rw [if_neg hStep, if_neg hStep]
        rfl

/- After a number of steps, so many color steps are made. -/
theorem moved_mul_ticks
    {step : RampStep}
    (hTicks : 1 ≤ step.ticks)
    (count : Nat) :
    step.moved (count * step.ticks) = count * step.color := by
  rw [moved_eq, Nat.mul_div_cancel count hTicks]

------------------------------------------------------------
-- Accuracy
------------------------------------------------------------

/-
  A step is neither empty nor larger than its ramp. Fewer
  ticks than colors end less than so many colors below the
  target. Otherwise the step whose number is the change
  reaches the target in time, and less than the change is
  moved behind it.
-/
structure Accurate
    (step : RampStep)
    (ticks delta : Nat) : Prop where
  ticks_pos : 1 ≤ step.ticks
  color_pos : 1 ≤ step.color
  ticks_le : step.ticks ≤ ticks
  color_le : step.color ≤ delta
  moved_eq : step.moved ticks = ticks / step.ticks * step.color
  short :
    ticks < delta →
      delta - ticks < step.moved ticks ∧
        step.moved ticks ≤ delta
  arrives :
    delta ≤ ticks →
      (∀ count, step.moved (count * step.ticks) = delta ↔
        count = delta) ∧
      delta * step.ticks ≤ ticks
  overshoot :
    delta ≤ ticks →
      delta ≤ step.moved ticks ∧
        step.moved ticks < 2 * delta

section Regimes

variable {ticks delta : Nat}

/- Fewer ticks than colors: a step at every tick. -/
theorem of_eq_of_lt
    (hTicks : 1 ≤ ticks)
    (h : ticks < delta) :
    of ticks delta = ⟨1, delta / ticks⟩ := by
  unfold of
  rw [if_neg (by omega), if_neg (by omega),
    if_neg (Nat.not_le.mpr h)]

/- Ticks for every color: steps of one color. -/
theorem of_eq_of_le
    (hDelta : 1 ≤ delta)
    (h : delta ≤ ticks) :
    of ticks delta = ⟨ticks / delta, 1⟩ := by
  unfold of
  rw [if_neg (by omega), if_neg (by omega), if_pos h]

/- What a ramp with too few ticks misses is a remainder. -/
theorem accurate_of_lt
    (hTicks : 1 ≤ ticks)
    (h : ticks < delta) :
    (of ticks delta).Accurate ticks delta := by
  have hMoved :
      (of ticks delta).moved ticks =
        ticks * (delta / ticks) := by
    rw [of_eq_of_lt hTicks h, moved_eq, Nat.div_one]
  have hMissed : delta % ticks < ticks :=
    Nat.mod_lt delta hTicks
  have hSplit := Nat.div_add_mod delta ticks
  exact
    { ticks_pos := by rw [of_eq_of_lt hTicks h]
      color_pos := by
        rw [of_eq_of_lt hTicks h]
        exact Nat.div_pos (Nat.le_of_lt h) hTicks
      ticks_le := by
        rw [of_eq_of_lt hTicks h]
        exact hTicks
      color_le := RampStep.color_le ticks delta
      moved_eq := moved_eq _ ticks
      short := by
        intro _
        rw [hMoved]
        omega
      arrives := fun hLong => absurd h (Nat.not_lt.mpr hLong)
      overshoot :=
        fun hLong => absurd h (Nat.not_lt.mpr hLong) }

/- What is left of the ticks makes less than `delta` steps. -/
theorem accurate_of_le
    (hDelta : 1 ≤ delta)
    (h : delta ≤ ticks) :
    (of ticks delta).Accurate ticks delta := by
  have hPos : 1 ≤ ticks / delta := Nat.div_pos h hDelta
  have hInTime : delta * (ticks / delta) ≤ ticks :=
    Nat.mul_div_le ticks delta
  have hMoved :
      (of ticks delta).moved ticks =
        ticks / (ticks / delta) := by
    rw [of_eq_of_le hDelta h, moved_eq, Nat.mul_one]
  have hReached : delta ≤ ticks / (ticks / delta) :=
    (Nat.le_div_iff_mul_le hPos).mpr hInTime
  -- Left over are fewer ticks than `delta`, so that even with
  -- one tick for each step they make fewer steps than that.
  have hBounded : ticks / (ticks / delta) < 2 * delta := by
    have hRest : ticks % delta < delta :=
      Nat.mod_lt ticks hDelta
    have hSplit := Nat.div_add_mod ticks delta
    have hStep : delta ≤ delta * (ticks / delta) :=
      Nat.le_mul_of_pos_right delta hPos
    apply (Nat.div_lt_iff_lt_mul hPos).mpr
    rw [Nat.mul_assoc]
    omega
  exact
    { ticks_pos := by
        rw [of_eq_of_le hDelta h]
        exact hPos
      color_pos := by rw [of_eq_of_le hDelta h]
      ticks_le := by
        rw [of_eq_of_le hDelta h]
        exact Nat.div_le_self ticks delta
      color_le := RampStep.color_le ticks delta
      moved_eq := moved_eq _ ticks
      short := fun hShort => absurd h (Nat.not_le.mpr hShort)
      arrives := by
        intro _
        rw [of_eq_of_le hDelta h]
        refine ⟨fun count => ?_, hInTime⟩
        rw [moved_mul_ticks hPos, Nat.mul_one]
      overshoot := by
        intro _
        rw [hMoved]
        exact ⟨hReached, hBounded⟩ }

end Regimes

/- The step of a ramp is accurate. -/
theorem accurate_of
    {ticks delta : Nat}
    (hTicks : 1 ≤ ticks)
    (hDelta : 1 ≤ delta) :
    (of ticks delta).Accurate ticks delta := by
  by_cases h : ticks < delta
  · exact accurate_of_lt hTicks h
  · exact accurate_of_le hDelta (Nat.not_lt.mp h)

------------------------------------------------------------
-- Accuracy Of All Ramps
------------------------------------------------------------

/-
  The step of every ramp is accurate, and every ramp of fewer
  than two to the thirty-two ticks has room for its steps: it
  is refused only for an LED that is not on the device.
-/
theorem steps_are_accurate :
    (∀ ticks delta, 1 ≤ ticks → 1 ≤ delta →
      (of ticks delta).Accurate ticks delta) ∧
    ∀ ticks ledCount leds start stop forced,
      ticks < Nat.pow 2 32 →
        (∃ time parts bitmap,
          Op.encodeRamp ledCount leds start stop ticks
              forced =
            .ok (time ++
              [Op.channelBitmap
                (Op.rampChannels start stop forced)] ++
              parts.flatten ++ [bitmap]) ∧
          Op.HoldsSteps start stop ticks
            (Op.rampChannels start stop forced) parts) ∨
        ∃ led ∈ leds, ledCount ≤ led ∧
          Op.encodeRamp ledCount leds start stop ticks
              forced =
            .error
              (.flagOutOfRange "led bitmap" led
                ledCount) := by
  constructor
  · intro ticks delta hTicks hDelta
    exact accurate_of hTicks hDelta
  · intro ticks ledCount leds start stop forced hTicks
    exact Op.encodeRamp_cases hTicks ledCount leds start stop
      forced

/-
  Seven ticks for three colors and three ticks for seven, and
  the longest ramp there can be, from dark to bright.
-/
theorem steps_are_accurate_both_ways :
    (1 ≤ 7 ∧ 1 ≤ 3 ∧
      (of 7 3).Accurate 7 3 ∧ (of 3 7).Accurate 3 7) ∧
    4294967295 < Nat.pow 2 32 ∧
      ∃ time parts bitmap,
        Op.encodeRamp 2 [0, 1] ⟨0, 0, 5, 31⟩ ⟨255, 0, 0, 31⟩
            4294967295 false =
          .ok (time ++ [Op.channelBitmap [.red, .blue]] ++
            parts.flatten ++ [bitmap]) ∧
        Op.HoldsSteps ⟨0, 0, 5, 31⟩ ⟨255, 0, 0, 31⟩
          4294967295 [.red, .blue] parts := by
  have hLong : 4294967295 < Nat.pow 2 32 := by
    decide
  refine ⟨⟨by decide, by decide, ?_, ?_⟩, hLong, ?_⟩
  · exact steps_are_accurate.1 7 3 (by decide) (by decide)
  · exact steps_are_accurate.1 3 7 (by decide) (by decide)
  · rcases steps_are_accurate.2 4294967295 2 [0, 1]
        ⟨0, 0, 5, 31⟩ ⟨255, 0, 0, 31⟩ false hLong
      with hWritten | ⟨led, hMem, hFar, -⟩
    · exact hWritten
    · simp only [List.mem_cons, List.not_mem_nil,
        or_false] at hMem
      omega

end RampStep

end LightShow
