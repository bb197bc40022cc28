/-
  Target devices and protocol limits.

  Key definitions include:
    * `LightShow.Device`
    * `LightShow.Device.zeroSetting?`
    * `LightShow.Device.packetBits`
    * `LightShow.Limits`
-/

namespace LightShow

/- The protocol version that images are written for. -/
def protocolVersion : String := "1.0"

/- The largest number that a numeric setting may hold. -/
def maxSetting : Nat := 0xFFFFFFFF

/- What is known about the device that runs a show. -/
structure Device where
  name : String := "unknown"
  kind : String := "unknown"
  usbVendorId : String := "unknown"
  usbProductId : String := "unknown"
  usbPacketBytes : Nat := 64
  tickMillis : Nat := 0
  ramBytes : Nat := 0
  romBytes : Nat := 0
  ledCount : Nat := 0
  protocol : String := "unknown"
  saveToRom : Bool := false
deriving DecidableEq, Repr

namespace Device

instance : Inhabited Device := ⟨{}⟩

/- The number of bits in one packet. -/
def packetBits (d : Device) : Nat :=
  d.usbPacketBytes * 8

/-
  The name of the first setting that must not be zero and
  is: LED count, then tick, then packet length.
-/
def zeroSetting? (d : Device) : Option String :=
  if d.ledCount = 0 then some "ledCount"
  else if d.tickMillis = 0 then some "tickIntervalMillisecs"
  else if d.usbPacketBytes = 0 then some "usbPacketByteLen"
  else none

end Device

/- Limits that the protocol sets on every show. -/
structure Limits where
  maxThreads : Nat := 256
deriving DecidableEq, Repr

end LightShow
