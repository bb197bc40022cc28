import LightShow.Image.Encoding
import LightShow.Image.Schedule
import Std.Data.HashMap

/-
  The instruction region: where each record lies and where
  jumps lead.

  Every path is filled with zeros to whole bytes, so every
  path starts on a byte. Addresses are sums of the widths
  before. A jump leads to the first label of its name and
  scope in its own path.

  Key definitions include:
    * `LightShow.Path.pad`
    * `LightShow.Path.stamp`
    * `LightShow.Path.resolve`
    * `LightShow.Path.finalize`
-/

namespace LightShow

namespace Path

------------------------------------------------------------
-- Padding
------------------------------------------------------------

/- The name of the fields that fill up a byte. -/
def paddingName : String := "byte-align padding"

/- The number of bits that a width lacks to whole bytes. -/
def missingBits (width : Nat) : Nat :=
  (8 - width % 8) % 8

/- The padding behind a width; none if bytes are whole. -/
def padding (width : Nat) : List Field :=
  if missingBits width = 0 then []
  else [Field.zeros paddingName (missingBits width)]

/- Put fields at the end of the last step. -/
def extendLast (fields : List Field) (steps : List Step) :
    List Step :=
  match steps.getLast? with
  | none => []
  | some last =>
      steps.dropLast ++
        [{ last with record := last.record.push fields }]

/- Fill a path to whole bytes. -/
def pad (p : Path) : Path :=
  { p with steps := extendLast (padding p.width) p.steps }

------------------------------------------------------------
-- Addresses
------------------------------------------------------------

/- The sums of the widths before each of some widths. -/
def offsets (widths : List Nat) : List Nat :=
  (widths.foldl
    (fun (acc : List Nat × Nat) w =>
      (acc.2 :: acc.1, acc.2 + w))
    ([], 0)).1.reverse

/- Give a step its addresses. -/
def stampStep
    (start : Nat)
    (s : Step)
    (offset : Nat) : Step :=
  { s with bit := start + offset, pathBit := offset }

/- Give the steps of a path that starts at a bit addresses. -/
def stamp (p : Path) (start : Nat) : Path :=
  { p with
    steps := List.zipWith (stampStep start) p.steps
      (offsets (p.steps.map Step.width)) }

/- Give all steps their addresses. -/
def stampAll (paths : List Path) : List Path :=
  List.zipWith stamp paths (offsets (paths.map width))

------------------------------------------------------------
-- Jumps
------------------------------------------------------------

/- Labels with their scopes, and the addresses they name. -/
abbrev Labels := Std.HashMap (String × Nat) Nat

/- Note the label of a step, unless it is already taken. -/
def noteLabel (labels : Labels) (s : Step) : Labels :=
  match s.op with
  | .here label scope =>
      labels.insertIfNew (label, scope) s.pathBit
  | _ => labels

/- The labels of a path; the first of equal ones counts. -/
def labels (p : Path) : Labels :=
  p.steps.foldl noteLabel ∅

/- Write the target of a jump into its record. -/
def resolveStep
    (target? : String → Nat → Option Nat)
    (s : Step) : Except Located Step :=
  match s.op with
  | .goto label scope =>
      match target? label scope with
      | none => .error ⟨.unresolvedLabel label, s.span⟩
      | some target =>
          match s.record.setNamed Op.targetName target with
          | none =>
              .error (Fault.nowhere (.missingTargetField label))
          | some result => do
              let record ← Located.placed s.span result
              return { s with record := record }
  | _ => .ok s

/- Write the targets of all jumps of a path. -/
def resolve (p : Path) : Except Located Path := do
  let labels := p.labels
  let target? := fun label scope => labels[(label, scope)]?
  let steps ← p.steps.mapM (resolveStep target?)
  return { p with steps := steps }

/- Write the targets of all jumps. -/
def resolveAll
    (paths : List Path) : Except Located (List Path) :=
  paths.mapM resolve

------------------------------------------------------------
-- Alignment
------------------------------------------------------------

/- The address of the first step. -/
def start? (p : Path) : Option Nat :=
  p.steps.head?.map Step.bit

/- Check that a path starts on a byte, counted from `base`. -/
def checkStart
    (base : Nat)
    (p : Path) : Except Located Unit :=
  match p.start? with
  | none => .ok ()
  | some bit =>
      if (bit - base) % 8 = 0 then .ok ()
      else
        .error (Fault.nowhere (.misalignedPath p.thread bit))

/-
  Check that all paths start on a byte, counted from the
  start of the first path; if that is empty, nothing is
  checked.
-/
def checkAlignment
    (paths : List Path) : Except Located Unit :=
  match paths.head?.bind start? with
  | none => .ok ()
  | some base => paths.forM (checkStart base)

------------------------------------------------------------
-- The Whole Layout
------------------------------------------------------------

/- Pad, place and connect encoded paths. -/
def finalize
    (paths : List Path) : Except Located (List Path) := do
  let placed := stampAll (paths.map pad)
  let resolved ← resolveAll placed
  checkAlignment resolved
  return resolved

end Path

end LightShow
