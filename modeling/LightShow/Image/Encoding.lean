import LightShow.Bits.WidthCode
import LightShow.Instruction
import Std.Data.HashSet

/-
  The record of one operation.

  Every record starts with the four-bit tag. A color record
  holds all four channels; a ramp record holds the channels
  that change, or all of them when its LEDs are shared with
  another path.

  Key definitions include:
    * `LightShow.RampStep.of`
    * `LightShow.ledBitmap`
    * `LightShow.Op.encode`
-/

namespace LightShow

------------------------------------------------------------
-- Ramps
------------------------------------------------------------

/- The direction in which a channel moves. -/
inductive Direction where
  | level
  | up
  | down
deriving DecidableEq, Repr

namespace Direction

def code : Direction → Nat
  | .level => 0
  | .up => 1
  | .down => 2

/- The direction of a signed change. -/
def of (delta : Int) : Direction :=
  if 0 < delta then .up
  else if delta < 0 then .down
  else .level

end Direction

/- A channel moves by `color` every `ticks` ticks. -/
structure RampStep where
  ticks : Nat
  color : Nat
deriving DecidableEq, Repr

/-
  The step of a channel that moves by `delta` in `ticks`
  ticks: as many single steps as fit, or, when there are
  fewer ticks than steps, a larger step at every tick. A
  ramp without length jumps at once.
-/
def RampStep.of (ticks delta : Nat) : RampStep :=
  if delta = 0 then ⟨1, 0⟩
  else if ticks = 0 then ⟨1, delta⟩
  else if delta ≤ ticks then ⟨ticks / delta, 1⟩
  else ⟨1, delta / ticks⟩

------------------------------------------------------------
-- LED Bitmaps
------------------------------------------------------------

/- One bit per LED, the first LED first. -/
def ledMarks (leds : List Nat) (count : Nat) : Bits :=
  (leds.foldl
    (fun marks led => marks.setIfInBounds led true)
    (Array.replicate count false)).toList

/- The bitmap of selected LEDs; each must be on the device. -/
def ledBitmap
    (leds : List Nat)
    (count : Nat) : Except Fault Field :=
  let name := "led bitmap"
  match leds.find? fun led => count ≤ led with
  | some led => .error (.flagOutOfRange name led count)
  | none => .ok ⟨name, ledMarks leds count⟩

------------------------------------------------------------
-- Records
------------------------------------------------------------

namespace Op

/- The name of the field that holds a jump target. -/
def targetName : String := "target bit addr"

/- The field of a value whose range its type ensures. -/
def fixed (name : String) (width value : Nat) : Field :=
  ⟨name, Bits.ofNat width value⟩

/- The bitmap of some channels. -/
def channelBitmap (channels : List Channel) : Field :=
  fixed "color bitmap" 4
    (total (channels.map fun ch => Nat.pow 2 ch.bit))

/- The channel values of a color record. -/
def colorFields (color : Color) : Except Fault (List Field) :=
  Channel.all.mapM fun ch =>
    Field.ofValue s!"{ch.text} value" ch.valueWidth
      (color.get ch)

/- Set some LEDs to a color. -/
def encodeGlow
    (ledCount : Nat)
    (leds : List Nat)
    (color : Color) : Except Fault (List Field) := do
  let values ← colorFields color
  let bitmap ← ledBitmap leds ledCount
  return [channelBitmap Channel.all,
    fixed "action opcode" 2 0] ++ values ++ [bitmap]

/- Initial value, direction and step of one channel. -/
def rampChannel
    (start stop : Color)
    (ticks : Nat)
    (ch : Channel) : Except Fault (List Field) := do
  let delta := start.delta stop ch
  let head :=
    [fixed s!"{ch.text} init value" 8 (start.get ch),
     fixed s!"{ch.text} inc/dec opcode" 2
       (Direction.of delta).code]
  if delta = 0 then return head
  let step := RampStep.of ticks delta.natAbs
  let pace ←
    WidthCode.sized2 s!"{ch.text} tick step" step.ticks
  let size ←
    Field.ofValue s!"{ch.text} color step" 8 step.color
  return head ++ pace ++ [size]

/- The channels that a ramp record holds. -/
def rampChannels
    (start stop : Color)
    (forced : Bool) : List Channel :=
  Channel.all.filter fun ch =>
    forced || start.delta stop ch != 0

/- Move some LEDs from one color to another. -/
def encodeRamp
    (ledCount : Nat)
    (leds : List Nat)
    (start stop : Color)
    (ticks : Nat)
    (forced : Bool) : Except Fault (List Field) := do
  let channels := rampChannels start stop forced
  let time ← WidthCode.sized2 "ramp tick value" ticks
  let moves ← channels.mapM (rampChannel start stop ticks)
  let bitmap ← ledBitmap leds ledCount
  return time ++ [channelBitmap channels] ++ moves.flatten
    ++ [bitmap]

/- Wait for a whole number of ticks. -/
def encodePause
    (tick millis : Nat) : Except Fault (List Field) :=
  if tick = 0 ∨ millis % tick ≠ 0 then
    .error (.pauseNotTickMultiple millis tick)
  else WidthCode.sized2 "tick value" (millis / tick)

/- Tell the device what to do with a show in memory. -/
def controlFields
    (memory : Memory)
    (command : Control) : List Field :=
  [fixed "memory opcode" 1 memory.code,
   fixed "control opcode" 3 command.code]

/- The field of a tag. -/
def tagField (tag : Nat) : Field :=
  fixed "type" tagWidth tag

/- The fields behind the tag. -/
def encodeBody
    (device : Device)
    (shared : Std.HashSet Nat) :
    Op → Except Fault (List Field)
  | .control memory command =>
      .ok (controlFields memory command)
  | .here _ _ => .ok []
  | .goto _ _ => .ok [Field.zeros targetName 32]
  | .pause millis => encodePause device.tickMillis millis
  | .glow leds color =>
      encodeGlow device.ledCount leds color
  | .ramp leds start stop millis =>
      encodeRamp device.ledCount leds start stop
        (millis / device.tickMillis)
        (leds.any shared.contains)
  | .activate target => do
      let index ← Field.ofValue "path index" 8 target
      return [index]
  | .finish => .ok []
  | .call _ => .error .callNotInlined

/-
  The record of an operation on a device. Ramps of the
  `shared` LEDs hold every channel.
-/
def encode
    (device : Device)
    (shared : Std.HashSet Nat)
    (op : Op) : Except Fault Record :=
  match op.tag? with
  | none => .error .callNotInlined
  | some tag => do
      let body ← op.encodeBody device shared
      return ⟨tagField tag :: body⟩

end Op

end LightShow
