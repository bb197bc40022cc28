import LightShow.Image.Layout

/-
  The header that the device reads before any path runs.

  It holds its own length, the length of the instruction
  region, the LED count, the tick, the brightness of the
  show, the number of paths, a bitmap of the paths that have
  ended (all but the first), and one block per path: byte
  address, byte length, a reserved address that is always
  zero, and the longest ramp and pause in ticks. Zeros fill
  it to whole bytes.

  Key definitions include:
    * `LightShow.Header`
    * `LightShow.Path.brightness`
    * `LightShow.Path.longestPause`
    * `LightShow.Header.ofPaths`
-/

namespace LightShow

------------------------------------------------------------
-- Facts About Paths
------------------------------------------------------------

namespace Path

/- The largest of some numbers, or zero. -/
def largest (ns : List Nat) : Nat :=
  ns.foldl max 0

/- The brightest color that any step shows. -/
def brightness (paths : List Path) : Nat :=
  largest <|
    (paths.flatMap Path.steps).flatMap fun s =>
      s.op.colors.map Color.brightness

/- The lengths of the ramps of a path, in ticks. -/
def rampTicks (tick : Nat) (p : Path) : List Nat :=
  p.steps.filterMap fun s =>
    match s.op with
    | .ramp _ _ _ millis => some (millis / tick)
    | _ => none

/- The lengths of the pauses of a path, in ticks. -/
def pauseTicks (tick : Nat) (p : Path) : List Nat :=
  p.steps.filterMap fun s =>
    match s.op with
    | .pause millis => some (millis / tick)
    | _ => none

/- The longest ramp, zero without any. -/
def longestRamp (tick : Nat) (p : Path) : Nat :=
  largest (p.rampTicks tick)

/-
  The longest pause; without any it is one if the path has
  ramps and zero otherwise.
-/
def longestPause (tick : Nat) (p : Path) : Nat :=
  match p.pauseTicks tick, p.rampTicks tick with
  | [], _ :: _ => 1
  | pauses, _ => largest pauses

end Path

------------------------------------------------------------
-- Path Blocks
------------------------------------------------------------

/- Where a path lies in the instruction region, in bytes. -/
structure Extent where
  address : Nat
  length : Nat
deriving DecidableEq, Repr

/-
  The extent of a path, counted from the bit `base`. A path
  without steps has none.
-/
def Path.extent? (base : Nat) (p : Path) : Option Extent :=
  match p.steps.head?, p.steps.getLast? with
  | some first, some last =>
      some ⟨(first.bit - base) / 8,
        (last.bit + last.width - first.bit) / 8⟩
  | _, _ => none

/- The header block of a path on a thread. -/
def Path.block
    (tick thread : Nat)
    (p : Path)
    (e : Extent) : Except Fault (List Field) := do
  let tag := s!"path={thread}"
  let address ←
    WidthCode.sized2 s!"{tag} byte addr" e.address
  let length ← WidthCode.sized2 s!"{tag} byte len" e.length
  let reserved ←
    WidthCode.sized2By s!"{tag} instr bit addr"
      (e.length * 8) 0
  let ramp ←
    WidthCode.sized3 s!"{tag} max ramp ticks"
      (p.longestRamp tick)
  let pause ←
    WidthCode.sized3 s!"{tag} max pause ticks"
      (p.longestPause tick)
  return address ++ length ++ reserved ++ ramp ++ pause

------------------------------------------------------------
-- The Header
------------------------------------------------------------

/- The header and the numbers that it announces. -/
structure Header where
  record : Record
  byteLength : Nat
  instructionBytes : Nat
  maxPathBytes : Nat
  brightness : Nat
deriving DecidableEq, Repr

namespace Header

/- The bitmap of ended paths: all but the first. -/
def endedBitmap (count : Nat) : Field :=
  ⟨"path end bitmap", (Bits.ones count).set 0 false⟩

/- The paths with steps, their threads and extents. -/
def extents
    (paths : List Path) : List (Path × Nat × Extent) :=
  let base := (paths.head?.bind Path.start?).getD 0
  paths.zipIdx.filterMap fun (p, thread) =>
    (p.extent? base).map fun e => (p, thread, e)

/- The fields between the lengths and the path blocks. -/
def preamble
    (device : Device)
    (paths : List Path) : Except Fault (List Field) := do
  let leds ← Field.ofValue "led count" 16 device.ledCount
  let tick ←
    Field.ofValue "tick interval" 16 device.tickMillis
  let bright ←
    Field.ofValue "sim bright coeff" 16 (Path.brightness paths)
  let count ← Field.ofValue "total paths" 8 paths.length
  return [leds, tick, bright, count,
    endedBitmap paths.length]

/- The width of the tag and of the two lengths. -/
def lengthsWidth : Nat := 4 + 16 + 32

/- The header of placed paths. -/
def ofPaths
    (device : Device)
    (paths : List Path) : Except Fault Header := do
  let start ← preamble device paths
  let placed := extents paths
  let blocks ← placed.mapM fun (p, thread, e) =>
    p.block device.tickMillis thread e
  let rest := start ++ blocks.flatten
  let width := lengthsWidth + (Record.mk rest).width
  let rest := rest ++ Path.padding width
  let byteLength := (lengthsWidth + (Record.mk rest).width) / 8
  let lengths := placed.map fun x => x.2.2.length
  let instructionLength ←
    Field.ofValue "instr-reg byte len" 32 (total lengths)
  let headerLength ←
    Field.ofValue "contx-reg byte len" 16 byteLength
  let tag := Op.tagField Op.headerTag
  return {
    record := ⟨tag :: headerLength :: instructionLength :: rest⟩
    byteLength := byteLength
    instructionBytes := total lengths
    maxPathBytes := Path.largest lengths
    brightness := Path.brightness paths }

end Header

end LightShow
