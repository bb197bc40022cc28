import LightShow.Bits.Record
import LightShow.Image.Fault
import LightShow.Instruction

/-
  Paths in the order of their threads.

  The instructions of one path keep their order. Paths are
  ordered by z-order, then by path number; a path's place in
  that order is its thread, and activations name threads.

  Key definitions include:
    * `LightShow.Step`
    * `LightShow.Path`
    * `LightShow.Path.ids`
    * `LightShow.Path.schedule`
-/

namespace LightShow

------------------------------------------------------------
-- Steps And Paths
------------------------------------------------------------

/-
  An instruction of a scheduled path, with its record and
  its bit address in the show and in its own path.
-/
structure Step where
  op : Op
  span : Option Span
  thread : Nat
  bit : Nat := 0
  pathBit : Nat := 0
  record : Record := {}
deriving DecidableEq, Repr

/- The number of bits of a step. -/
def Step.width (s : Step) : Nat :=
  s.record.width

/- A path, its thread and its steps. -/
structure Path where
  id : Nat
  thread : Nat
  zOrder : Nat
  steps : List Step
deriving DecidableEq, Repr

namespace Path

/- The number of bits of a path. -/
def width (p : Path) : Nat :=
  total (p.steps.map Step.width)

------------------------------------------------------------
-- Grouping
------------------------------------------------------------

/- The path numbers that occur, ascending, each once. -/
def ids (is : List Instruction) : List Nat :=
  ((is.filterMap Instruction.path).mergeSort).eraseReps

/- The instructions of one path, in order. -/
def own
    (is : List Instruction)
    (id : Nat) : List Instruction :=
  is.filter fun i => i.path == some id

/- The z-order of a path is that of its first instruction. -/
def firstZOrder (is : List Instruction) : Nat :=
  (is.head?.bind Instruction.zOrder).getD 0

/- The z-order of each path, with its number. -/
def keys (is : List Instruction) : List (Nat × Nat) :=
  (ids is).map fun id => (firstZOrder (own is id), id)

/- Whether one path runs below another, or is the same. -/
def keyLe (a b : Nat × Nat) : Bool :=
  a.1 < b.1 || (a.1 == b.1 && a.2 ≤ b.2)

/- The paths in the order of their threads. -/
def order (is : List Instruction) : List (Nat × Nat) :=
  (keys is).mergeSort keyLe

------------------------------------------------------------
-- Threads
------------------------------------------------------------

/- Replace the path that an activation names by its thread. -/
def retarget
    (threads : List Nat)
    (span : Option Span) : Op → Except Located Op
  | .activate target =>
      match threads.idxOf? target with
      | some thread => .ok (.activate thread)
      | none => .error ⟨.unresolvedPath target, span⟩
  | op => .ok op

/- The step of an instruction on a thread. -/
def toStep
    (threads : List Nat)
    (thread : Nat)
    (i : Instruction) : Except Located Step := do
  let op ← retarget threads i.span i.op
  return { op := op, span := i.span, thread := thread }

/- The path with a given z-order and number on a thread. -/
def ofKey
    (is : List Instruction)
    (threads : List Nat)
    (key : Nat × Nat)
    (thread : Nat) : Except Located Path := do
  let steps ← (own is key.2).mapM (toStep threads thread)
  return ⟨key.2, thread, key.1, steps⟩

/- Split instructions into at most `maxThreads` paths. -/
def schedule
    (maxThreads : Nat)
    (is : List Instruction) : Except Located (List Path) :=
  let count := (ids is).length
  if maxThreads < count then
    .error (Fault.nowhere (.tooManyThreads count maxThreads))
  else
    let keys := order is
    let threads := keys.map Prod.snd
    keys.zipIdx.mapM fun (key, thread) =>
      ofKey is threads key thread

end Path

end LightShow
