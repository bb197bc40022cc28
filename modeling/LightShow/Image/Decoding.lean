import LightShow.Bits.Reader
import LightShow.Image.Encoding

/-
  What records say, read back from their bits.

  The stream of records has no lengths in it: each record
  says by its own bits how far it goes, once the number of
  LEDs is known. What a record says about an operation is
  less than the operation: labels have no names, durations
  are ticks, and a ramp is given by its steps.

  Key definitions include:
    * `LightShow.ChannelRamp`
    * `LightShow.Message`
    * `LightShow.Message.read`
    * `LightShow.Message.ofOp?`
-/

namespace LightShow

------------------------------------------------------------
-- Messages
------------------------------------------------------------

/- What a ramp record says about one channel. -/
structure ChannelRamp where
  channel : Channel
  initial : Nat
  direction : Direction
  /- The step, for a channel that moves. -/
  step : Option RampStep
deriving DecidableEq, Repr

/- What a record tells the device. -/
inductive Message where
  | control (memory : Memory) (command : Control)
  | here
  | goto (target : Nat)
  | pause (ticks : Nat)
  | glow (values : List Nat) (leds : Bits)
  | ramp
      (ticks : Nat)
      (channels : List ChannelRamp)
      (leds : Bits)
  | activate (thread : Nat)
  | finish
deriving DecidableEq, Repr

------------------------------------------------------------
-- Reading
------------------------------------------------------------

/- The memory with a code. -/
def Memory.ofCode? : Nat → Option Memory
  | 0 => some .sram
  | 1 => some .nvm
  | _ => none

/- The command with a code. -/
def Control.ofCode? : Nat → Option Control
  | 0 => some .pause
  | 1 => some .resume
  | 2 => some .restart
  | 3 => some .store
  | _ => none

/- The direction with a code. -/
def Direction.ofCode? : Nat → Option Direction
  | 0 => some .level
  | 1 => some .up
  | 2 => some .down
  | _ => none

/- The channels that a bitmap marks. -/
def Channel.marked (bitmap : Nat) : List Channel :=
  all.filter fun ch => bitmap.testBit ch.bit

namespace ChannelRamp

/- Read the step of a channel that moves. -/
def readStep : Direction → BitReader (Option RampStep)
  | .level => return none
  | _ => do
      let ticks ← BitReader.sized2
      let color ← BitReader.number 8
      return some ⟨ticks, color⟩

/- Read what a ramp record says about a channel. -/
def read (ch : Channel) : BitReader ChannelRamp := do
  let initial ← BitReader.number 8
  let direction ← Direction.ofCode? (← BitReader.number 2)
  let step ← readStep direction
  return ⟨ch, initial, direction, step⟩

end ChannelRamp

namespace Message

/- Read a control record behind its tag. -/
def readControl : BitReader Message := do
  let memory ← Memory.ofCode? (← BitReader.number 1)
  let command ← Control.ofCode? (← BitReader.number 3)
  return .control memory command

/- Read a color record behind its tag. -/
def readGlow (ledCount : Nat) : BitReader Message := do
  let bitmap ← BitReader.number 4
  let _ ← BitReader.number 2
  let values ← (Channel.marked bitmap).mapM fun ch =>
    BitReader.number ch.valueWidth
  return .glow values (← BitReader.bits ledCount)

/- Read a ramp record behind its tag. -/
def readRamp (ledCount : Nat) : BitReader Message := do
  let ticks ← BitReader.sized2
  let bitmap ← BitReader.number 4
  let channels ← (Channel.marked bitmap).mapM ChannelRamp.read
  return .ramp ticks channels (← BitReader.bits ledCount)

/- Read a record for a device with a number of LEDs. -/
def read (ledCount : Nat) : BitReader Message := do
  match ← BitReader.number Op.tagWidth with
  | 0 => readControl
  | 1 => return .here
  | 2 => return .goto (← BitReader.number 32)
  | 3 => return .pause (← BitReader.sized2)
  | 4 => readGlow ledCount
  | 5 => readRamp ledCount
  | 14 => return .activate (← BitReader.number 8)
  | 15 => return .finish
  | _ => failure

/- Read a number of records, one after the other. -/
def readMany (ledCount : Nat) : Nat → BitReader (List Message)
  | 0 => return []
  | n + 1 => do
      let first ← read ledCount
      return first :: (← readMany ledCount n)

------------------------------------------------------------
-- What Operations Mean
------------------------------------------------------------

/- For each LED of a device, whether it is selected. -/
def ledSet (leds : List Nat) (count : Nat) : Bits :=
  (List.range count).map fun led => leds.contains led

/- What a ramp does to one channel. -/
def channelRamp
    (start stop : Color)
    (ticks : Nat)
    (ch : Channel) : ChannelRamp :=
  let delta := start.delta stop ch
  { channel := ch
    initial := start.get ch
    direction := Direction.of delta
    step :=
      if delta = 0 then none
      else some (RampStep.of ticks delta.natAbs) }

/-
  What an operation tells a device; a jump leads to a given
  bit. The LEDs of a ramp may be `shared` with other paths.
-/
def ofOp?
    (device : Device)
    (shared : Nat → Bool)
    (target : Nat) : Op → Option Message
  | .control memory command => some (.control memory command)
  | .here _ _ => some .here
  | .goto _ _ => some (.goto target)
  | .pause millis => some (.pause (millis / device.tickMillis))
  | .glow leds color =>
      some (.glow (Channel.all.map color.get)
        (ledSet leds device.ledCount))
  | .ramp leds start stop millis =>
      let ticks := millis / device.tickMillis
      some (.ramp ticks
        ((Op.rampChannels start stop (leds.any shared)).map
          (channelRamp start stop ticks))
        (ledSet leds device.ledCount))
  | .activate thread => some (.activate thread)
  | .finish => some .finish
  | .call _ => none

end Message

end LightShow
