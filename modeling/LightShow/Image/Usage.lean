import LightShow.Image.Fault
import LightShow.Numeric.Binary

/-
  How much of a device a show uses.

  A show kept in RAM needs room for its whole image there. A
  show kept in ROM needs room for the image in ROM and, in
  RAM, for the header and its longest path.

  Key definitions include:
    * `LightShow.Usage`
    * `LightShow.Usage.of`
    * `LightShow.Usage.check`
    * `LightShow.Usage.text`
-/

namespace LightShow

/- What is used and what there is. -/
structure Usage where
  threads : Nat
  maxThreads : Nat
  ram : Nat
  maxRam : Nat
  rom : Nat
  maxRom : Nat
deriving DecidableEq, Repr

namespace Usage

------------------------------------------------------------
-- Budget
------------------------------------------------------------

/- The usage of a show of given sizes. -/
def of
    (device : Device)
    (limits : Limits)
    (threads headerBytes maxPathBytes imageBytes : Nat) :
    Usage where
  threads := threads
  maxThreads := limits.maxThreads
  ram :=
    if device.saveToRom then headerBytes + maxPathBytes
    else imageBytes
  maxRam := device.ramBytes
  rom := if device.saveToRom then imageBytes else 0
  maxRom := device.romBytes

/- Accept a usage that RAM, then ROM, has room for. -/
def check (u : Usage) : Except Fault Usage :=
  if u.maxRam < u.ram then
    .error (.ramExceeded u.ram u.maxRam)
  else if u.maxRom < u.rom then
    .error (.romExceeded u.rom u.maxRom)
  else .ok u

------------------------------------------------------------
-- Text
------------------------------------------------------------

/-
  The percentage `used * 100 / max` in double precision, each
  operation rounded. Of nothing, nothing is used.
-/
def percent (used max : Nat) : Ratio :=
  if max = 0 then .ofNat 0
  else
    let hundredfold :=
      ((Ratio.ofNat used).round53.mul (.ofNat 100)).round53
    (hundredfold.div (Ratio.ofNat max).round53).round53

/- One line of the report. -/
def line
    (what unit : String)
    (used max : Nat) : String :=
  s!"Device {what} usage: {(percent used max).tenths}% " ++
    s!"({used} of {max} {unit})."

/- The report, one line for each resource. -/
def text (u : Usage) : String :=
  line "threads" "threads" u.threads u.maxThreads ++ "\n" ++
    line "RAM" "bytes" u.ram u.maxRam ++ "\n" ++
    line "ROM" "bytes" u.rom u.maxRom

end Usage

end LightShow
