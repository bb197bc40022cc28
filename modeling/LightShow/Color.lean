/-
  Colors of light-emitting diodes.

  A color has three color channels of eight bits and a
  brightness, which the device takes in five bits. Values
  are bytes here, so a brightness above 31 can be written
  down and is found out by `Color.outOfRange?`.

  Key definitions include:
    * `LightShow.Channel`
    * `LightShow.Color`
    * `LightShow.Color.delta`
    * `LightShow.Color.brightness`
-/

namespace LightShow

------------------------------------------------------------
-- Channels
------------------------------------------------------------

/- The four parts of a color. -/
inductive Channel where
  | red
  | green
  | blue
  | bright
deriving DecidableEq, Repr

namespace Channel

/- All channels, in the order in which records hold them. -/
def all : List Channel := [.red, .green, .blue, .bright]

/- The bit of a channel in a channel bitmap. -/
def bit : Channel → Nat
  | .red => 3
  | .green => 2
  | .blue => 1
  | .bright => 0

/- The largest value that the device takes. -/
def maxValue : Channel → Nat
  | .bright => 31
  | _ => 255

/- The width of the channel's value in a color record. -/
def valueWidth : Channel → Nat
  | .bright => 5
  | _ => 8

/- The name of a channel. -/
def text : Channel → String
  | .red => "red"
  | .green => "green"
  | .blue => "blue"
  | .bright => "bright"

end Channel

------------------------------------------------------------
-- Colors
------------------------------------------------------------

/- One value per channel. -/
structure Color where
  red : UInt8
  green : UInt8
  blue : UInt8
  bright : UInt8
deriving DecidableEq, Repr

namespace Color

/- The value of a channel. -/
def get (c : Color) : Channel → Nat
  | .red => c.red.toNat
  | .green => c.green.toNat
  | .blue => c.blue.toNat
  | .bright => c.bright.toNat

/- The signed change of a channel from one color to another. -/
def delta (start stop : Color) (ch : Channel) : Int :=
  (stop.get ch : Int) - (start.get ch : Int)

/- The first channel whose value the device does not take. -/
def outOfRange? (c : Color) : Option Channel :=
  Channel.all.find? fun ch => ch.maxValue < c.get ch

/- The light a simulator shows: color sum times brightness. -/
def brightness (c : Color) : Nat :=
  (c.red.toNat + c.green.toNat + c.blue.toNat)
    * c.bright.toNat

/- The channel values in brackets. -/
def text (c : Color) : String :=
  s!"({c.red.toNat},{c.green.toNat}," ++
    s!"{c.blue.toNat},{c.bright.toNat})"

end Color

end LightShow
