import LightShow.Image.Show

/-
  The stages of image making, one at a time.

  A bench holds what the stages so far have made, so that
  each stage can be run and looked at on its own, in any
  order.

  Key definitions include:
    * `LightShow.Stage`
    * `LightShow.Bench`
    * `LightShow.Bench.run`
-/

namespace LightShow

/- The single stages. -/
inductive Stage where
  | check
  | schedule
  | shared
  | encode
  | pad
  | stamp
  | resolve
  | align
  | finalize
  | header
  | listing
  | image
deriving DecidableEq, Repr

/- What the stages so far have made. -/
structure Bench where
  paths : List Path := []
  shared : Std.HashSet Nat := ∅
  header : Header := ⟨{}, 0, 0, 0, 0⟩

namespace Bench

/- The placed show on a bench. -/
def placed (b : Bench) : Placed :=
  ⟨b.header, b.paths⟩

/- Run one stage. -/
def run
    (t : Target)
    (is : List Instruction)
    (b : Bench) : Stage → Except Located Bench
  | .check => do
      Located.unplaced t.check
      return b
  | .schedule => do
      let paths ← Path.schedule t.limits.maxThreads is
      return { b with paths := paths }
  | .shared =>
      .ok { b with
        shared := Path.sharedLeds b.paths t.device.ledCount }
  | .encode => do
      let paths ← Path.encodeAll t.device b.shared b.paths
      return { b with paths := paths }
  | .pad => .ok { b with paths := b.paths.map Path.pad }
  | .stamp => .ok { b with paths := Path.stampAll b.paths }
  | .resolve => do
      let paths ← Path.resolveAll b.paths
      return { b with paths := paths }
  | .align => do
      Path.checkAlignment b.paths
      return b
  | .finalize => do
      let paths ← Path.finalize b.paths
      return { b with paths := paths }
  | .header => do
      let header ←
        Located.unplaced (Header.ofPaths t.device b.paths)
      return { b with header := header }
  | .listing => .ok b
  | .image => .ok b

end Bench

/- Some LEDs in ascending order. -/
def sortedLeds (leds : Std.HashSet Nat) : List Nat :=
  leds.toList.mergeSort

end LightShow
