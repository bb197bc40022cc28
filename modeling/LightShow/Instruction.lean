import LightShow.Color
import LightShow.Source.Span

/-
  Instructions of a show.

  A show is a list of instructions, each on a numbered path
  or, for the one that launches the show, on none. Paths run
  side by side; the z-order decides which is on top.

  Key definitions include:
    * `LightShow.Memory`
    * `LightShow.Control`
    * `LightShow.Op`
    * `LightShow.Instruction`
-/

namespace LightShow

------------------------------------------------------------
-- Control Commands
------------------------------------------------------------

/- Where the device keeps a show. -/
inductive Memory where
  | sram
  | nvm
deriving DecidableEq, Repr

namespace Memory

def code : Memory → Nat
  | .sram => 0
  | .nvm => 1

def text : Memory → String
  | .sram => "sram"
  | .nvm => "nvm"

end Memory

/- What the host tells the device. -/
inductive Control where
  | pause
  | resume
  | restart
  | store
deriving DecidableEq, Repr

namespace Control

def code : Control → Nat
  | .pause => 0
  | .resume => 1
  | .restart => 2
  | .store => 3

end Control

------------------------------------------------------------
-- Operations
------------------------------------------------------------

/-
  What an instruction does. LEDs are counted from zero here.
  Labels are told apart by their scope, one per inlined
  function body. A call is a marker that has to be inlined
  before anything is encoded.
-/
inductive Op where
  | control (memory : Memory) (command : Control)
  | here (label : String) (scope : Nat)
  | goto (label : String) (scope : Nat)
  | pause (millis : Nat)
  | glow (leds : List Nat) (color : Color)
  | ramp
      (leds : List Nat)
      (start stop : Color)
      (millis : Nat)
  | activate (target : Nat)
  | finish
  | call (function : String)
deriving DecidableEq, Repr

namespace Op

/- The width of the tag that starts every record. -/
def tagWidth : Nat := 4

/- The tag of the header in front of all paths. -/
def headerTag : Nat := 13

/- The tag of an operation; a call has none. -/
def tag? : Op → Option Nat
  | .control _ _ => some 0
  | .here _ _ => some 1
  | .goto _ _ => some 2
  | .pause _ => some 3
  | .glow _ _ => some 4
  | .ramp _ _ _ _ => some 5
  | .activate _ => some 14
  | .finish => some 15
  | .call _ => none

/- The name of an operation. -/
def text : Op → String
  | .control _ _ => "control"
  | .here _ _ => "here"
  | .goto _ _ => "goto"
  | .pause _ => "pause"
  | .glow _ _ => "glowImmediate"
  | .ramp _ _ _ _ => "glowRamp"
  | .activate _ => "pathActivate"
  | .finish => "pathEnd"
  | .call _ => "call"

/- The LEDs that an operation selects. -/
def leds : Op → List Nat
  | .glow leds _ => leds
  | .ramp leds _ _ _ => leds
  | _ => []

/- The colors that an operation shows. -/
def colors : Op → List Color
  | .glow _ color => [color]
  | .ramp _ start stop _ => [start, stop]
  | _ => []

end Op

/- An operation with its path, z-order and place. -/
structure Instruction where
  op : Op
  path : Option Nat
  zOrder : Option Nat
  span : Option Span
deriving DecidableEq, Repr

end LightShow
