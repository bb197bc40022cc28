import LightShow.Image.Encoding
import LightShow.Image.Schedule

/-
  LEDs that more than one path selects.

  A ramp of such an LED may be resumed after another path
  has touched it, so its record holds every channel.

  Key definitions include:
    * `LightShow.SharedLeds`
    * `LightShow.Path.sharedLeds`
    * `LightShow.Path.encodeAll`
-/

namespace LightShow

/- LEDs seen so far, and those seen on two paths. -/
structure SharedLeds where
  seen : Std.HashSet Nat := ∅
  shared : Std.HashSet Nat := ∅

namespace SharedLeds

/- Take in the LEDs of one more path. -/
def add (s : SharedLeds) (leds : List Nat) : SharedLeds where
  seen := leds.foldl Std.HashSet.insert s.seen
  shared := leds.foldl
    (fun shared led =>
      if s.seen.contains led then shared.insert led
      else shared)
    s.shared

end SharedLeds

namespace Path

/- The LEDs that the steps of a path select. -/
def leds (p : Path) : List Nat :=
  p.steps.flatMap fun s => s.op.leds

/- The LEDs of the device that two or more paths select. -/
def sharedLeds
    (paths : List Path)
    (ledCount : Nat) : Std.HashSet Nat :=
  let all := (paths.map leds).foldl SharedLeds.add {}
  all.shared.filter fun led => led < ledCount

/- Give a step its record. -/
def encodeStep
    (device : Device)
    (shared : Std.HashSet Nat)
    (s : Step) : Except Located Step := do
  let record ← Located.placed s.span (s.op.encode device shared)
  return { s with record := record }

/- Give all steps of a path their records. -/
def encodeSteps
    (device : Device)
    (shared : Std.HashSet Nat)
    (p : Path) : Except Located Path := do
  let steps ← p.steps.mapM (encodeStep device shared)
  return { p with steps := steps }

/- Give all steps of all paths their records. -/
def encodeAll
    (device : Device)
    (shared : Std.HashSet Nat)
    (paths : List Path) : Except Located (List Path) :=
  paths.mapM (encodeSteps device shared)

end Path

end LightShow
