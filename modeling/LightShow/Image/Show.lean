import LightShow.Image.Header
import LightShow.Image.Listing
import LightShow.Image.Packet
import LightShow.Image.SharedLeds
import LightShow.Image.Usage

/-
  From instructions to an image.

  The device is checked, the instructions are split into
  paths, encoded and placed, the header is put in front, and
  the whole is filled to packets and held against the budget
  of the device. The first stage that fails decides.

  Key definitions include:
    * `LightShow.Target`
    * `LightShow.Show`
    * `LightShow.Placed`
    * `LightShow.Show.build`
-/

namespace LightShow

------------------------------------------------------------
-- Targets
------------------------------------------------------------

/- What a show is made for. -/
structure Target where
  device : Device
  limits : Limits := {}
deriving DecidableEq, Repr

namespace Target

/- Check protocol version and settings of the device. -/
def check (t : Target) : Except Fault Unit :=
  if t.device.protocol = protocolVersion then
    match t.device.validate with
    | .ok () => .ok ()
    | .error e => .error (.invalidDevice e)
  else .error (.protocolMismatch t.device.protocol)

end Target

------------------------------------------------------------
-- Placed Shows
------------------------------------------------------------

/- Placed paths and the header in front of them. -/
structure Placed where
  header : Header
  paths : List Path
deriving DecidableEq, Repr

namespace Placed

/- Schedule, encode and place instructions. -/
def ofInstructions
    (t : Target)
    (is : List Instruction) : Except Located Placed := do
  Located.unplaced t.check
  let scheduled ← Path.schedule t.limits.maxThreads is
  let shared := Path.sharedLeds scheduled t.device.ledCount
  let encoded ← Path.encodeAll t.device shared scheduled
  let paths ← Path.finalize encoded
  let header ←
    Located.unplaced (Header.ofPaths t.device paths)
  return ⟨header, paths⟩

/- The bits of all steps, in order. -/
def instructionBits (paths : List Path) : Bits :=
  paths.flatMap fun p =>
    p.steps.flatMap fun s => s.record.bits

/- The image: header and paths, filled to packets. -/
def image (t : Target) (p : Placed) : List UInt8 :=
  Bits.toBytes <| Packet.fill t.device.packetBits <|
    p.header.record.bits ++ instructionBits p.paths

end Placed

------------------------------------------------------------
-- Shows
------------------------------------------------------------

/- A finished show. -/
structure Show where
  image : List UInt8
  headerBytes : Nat
  instructionBytes : Nat
  maxPathBytes : Nat
  threadCount : Nat
  brightness : Nat
  usage : Usage
  packets : Packets
deriving DecidableEq, Repr

namespace Show

/- Finish a placed show, if the device has room for it. -/
def ofPlaced (t : Target) (p : Placed) : Except Fault Show := do
  let image := p.image t
  let usage ← Usage.check <|
    Usage.of t.device t.limits p.paths.length
      p.header.byteLength p.header.maxPathBytes image.length
  return {
    image := image
    headerBytes := p.header.byteLength
    instructionBytes := p.header.instructionBytes
    maxPathBytes := p.header.maxPathBytes
    threadCount := p.paths.length
    brightness := p.header.brightness
    usage := usage
    packets := Packets.ofImage t.device image }

/- Make a show and keep its placed form for a listing. -/
def buildWith
    (t : Target)
    (is : List Instruction) :
    Except Located (Show × Placed) := do
  let placed ← Placed.ofInstructions t is
  let finished ← Located.unplaced (ofPlaced t placed)
  return (finished, placed)

/- Make a show from instructions. -/
def build
    (t : Target)
    (is : List Instruction) : Except Located Show := do
  let (finished, _) ← buildWith t is
  return finished

end Show

/- The listing of a placed show. -/
def Placed.listing (p : Placed) : String :=
  Listing.render p.header p.paths

end LightShow
