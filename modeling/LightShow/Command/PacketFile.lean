import LightShow.Digest.Sha256
import LightShow.Image.Packet
import LightShow.Text.Json

/-
  The packet file: the device of a show, the digest of its
  image and the control packets, as JSON.

  Key definitions include:
    * `LightShow.PacketFile.deviceMembers`
    * `LightShow.PacketFile.text`
-/

namespace LightShow

namespace PacketFile

/- The members that describe a device. -/
def deviceMembers (d : Device) : List (String × String) :=
  [("name", Text.Json.quote d.name),
   ("type", Text.Json.quote d.kind),
   ("usbVendorId", Text.Json.quote d.usbVendorId),
   ("usbProductId", Text.Json.quote d.usbProductId),
   ("usbPacketByteLen", toString d.usbPacketBytes),
   ("tickIntervalMillisecs", toString d.tickMillis),
   ("ramSpaceBytes", toString d.ramBytes),
   ("romSpaceBytes", toString d.romBytes),
   ("ledCount", toString d.ledCount),
   ("protocolVersion", Text.Json.quote d.protocol),
   ("saveToRom", toString d.saveToRom)]

/- Bytes as a member. -/
def bytes (b : List UInt8) : String :=
  Text.Json.quote (Text.hex b)

/- The text of the file, without a line end. -/
def text
    (device : Device)
    (image : List UInt8)
    (packets : Packets) : String :=
  Text.Json.object 0
    [("device", Text.Json.object 1 (deviceMembers device)),
     ("imageSha256", bytes (Sha256.digest image)),
     ("pause", bytes packets.pause),
     ("resume", bytes packets.resume),
     ("restart", bytes packets.restart),
     ("store", bytes packets.store)]

end PacketFile

end LightShow
