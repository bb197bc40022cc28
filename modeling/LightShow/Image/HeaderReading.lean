import LightShow.Bits.Reader
import LightShow.Image.Header

/-
  Headers, read back from the bits of an image.

  Key definitions include:
    * `LightShow.PathBlock`
    * `LightShow.HeaderFields`
    * `LightShow.HeaderFields.read`
-/

namespace LightShow

/- What a header says about one path. -/
structure PathBlock where
  address : Nat
  length : Nat
  reserved : Nat
  longestRamp : Nat
  longestPause : Nat
deriving DecidableEq, Repr

/- What a header says. -/
structure HeaderFields where
  headerBytes : Nat
  instructionBytes : Nat
  ledCount : Nat
  tickMillis : Nat
  brightness : Nat
  /- One bit per path, set for those that have ended. -/
  ended : Bits
  blocks : List PathBlock
deriving DecidableEq, Repr

/- Read the block of a path. -/
def PathBlock.read : BitReader PathBlock := do
  let address ← BitReader.sized2
  let length ← BitReader.sized2
  let reserved ← BitReader.sized2
  let longestRamp ← BitReader.sized3
  let longestPause ← BitReader.sized3
  return ⟨address, length, reserved, longestRamp, longestPause⟩

/- Read the blocks of a number of paths. -/
def PathBlock.readMany : Nat → BitReader (List PathBlock)
  | 0 => return []
  | n + 1 => do
      let first ← read
      return first :: (← readMany n)

/- Read a header up to the zeros that fill it. -/
def HeaderFields.read : BitReader HeaderFields := do
  let tag ← BitReader.number Op.tagWidth
  if tag ≠ Op.headerTag then failure
  let headerBytes ← BitReader.number 16
  let instructionBytes ← BitReader.number 32
  let ledCount ← BitReader.number 16
  let tickMillis ← BitReader.number 16
  let brightness ← BitReader.number 16
  let count ← BitReader.number 8
  let ended ← BitReader.bits count
  let blocks ← PathBlock.readMany count
  return {
    headerBytes := headerBytes
    instructionBytes := instructionBytes
    ledCount := ledCount
    tickMillis := tickMillis
    brightness := brightness
    ended := ended
    blocks := blocks }

end LightShow
