import LightShow.Image.Encoding

/-
  Packets and the commands that hosts send.

  Whatever is sent is filled with ones to whole packets. A
  control packet is one control record; the store packet is
  followed by the image.

  Key definitions include:
    * `LightShow.Packet.fill`
    * `LightShow.Packets`
    * `LightShow.Packets.ofImage`
-/

namespace LightShow

namespace Packet

/-
  Fill a bit string with ones to whole packets. Packets
  without bits hold nothing and fill nothing.
-/
def fill (packetBits : Nat) (bits : Bits) : Bits :=
  if packetBits = 0 ∨ bits.length % packetBits = 0 then bits
  else
    bits ++ Bits.ones (packetBits - bits.length % packetBits)

end Packet

/- The memory that a device keeps its show in. -/
def Device.memory (d : Device) : Memory :=
  if d.saveToRom then .nvm else .sram

/- The packets that control a device. -/
structure Packets where
  pause : List UInt8
  resume : List UInt8
  restart : List UInt8
  store : List UInt8
deriving DecidableEq, Repr

namespace Packets

/- The control record of a command. -/
def controlRecord
    (device : Device)
    (command : Control) : Record :=
  ⟨Op.tagField 0 :: Op.controlFields device.memory command⟩

/- The packet of one command. -/
def control (device : Device) (command : Control) :
    List UInt8 :=
  Bits.toBytes <| Packet.fill device.packetBits <|
    (controlRecord device command).bits

/- All packets for an image. -/
def ofImage
    (device : Device)
    (image : List UInt8) : Packets where
  pause := control device .pause
  resume := control device .resume
  restart := control device .restart
  store := control device .store ++ image

end Packets

end LightShow
