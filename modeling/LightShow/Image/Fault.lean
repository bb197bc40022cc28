import LightShow.Device.Setting
import LightShow.Diagnostic.Code
import LightShow.Source.Span

/-
  Why no image can be made.

  Key definitions include:
    * `LightShow.Fault`
    * `LightShow.Fault.code`
    * `LightShow.Fault.message`
    * `LightShow.Located`
-/

namespace LightShow

------------------------------------------------------------
-- Faults
------------------------------------------------------------

/- The causes for which no image results. -/
inductive Fault where
  | fieldOverflow (field : String) (width value : Nat)
  | flagOutOfRange (field : String) (index width : Nat)
  | insertOutOfRange (field : String) (index width : Nat)
  | tooManyThreads (count max : Nat)
  | unresolvedLabel (label : String)
  | misalignedPath (thread bit : Nat)
  | pauseNotTickMultiple (millis tick : Nat)
  | unresolvedPath (path : Nat)
  | ramExceeded (needed available : Nat)
  | romExceeded (needed available : Nat)
  | protocolMismatch (found : String)
  | invalidDevice (error : Device.SettingError)
  | callNotInlined
  | missingTargetField (label : String)
deriving DecidableEq, Repr

namespace Fault

def code : Fault → Code
  | .fieldOverflow _ _ _ => .fieldOverflow
  | .flagOutOfRange _ _ _ => .fieldOverflow
  | .insertOutOfRange _ _ _ => .fieldOverflow
  | .tooManyThreads _ _ => .tooManyThreads
  | .unresolvedLabel _ => .unresolvedLabel
  | .misalignedPath _ _ => .misalignedPath
  | .pauseNotTickMultiple _ _ => .durationNotTickMultiple
  | .unresolvedPath _ => .unresolvedPath
  | .ramExceeded _ _ => .ramExceeded
  | .romExceeded _ _ => .romExceeded
  | .protocolMismatch _ => .protocolMismatch
  | .invalidDevice _ => .invalidDeviceValue
  | .callNotInlined => .internal
  | .missingTargetField _ => .internal

def message : Fault → String
  | .fieldOverflow field width value =>
      s!"value {value} does not fit in {width}-bit field " ++
        s!"'{field}'"
  | .flagOutOfRange field index width =>
      s!"flag {index} is outside {width}-bit field '{field}'"
  | .insertOutOfRange field index width =>
      s!"cannot insert at bit {index} of {width}-bit field " ++
        s!"'{field}'"
  | .tooManyThreads count max =>
      s!"show runs {count} concurrent paths but the device " ++
        s!"supports {max}"
  | .unresolvedLabel label =>
      s!"goto target '{label}' has no matching 'here' in " ++
        "the same function"
  | .misalignedPath thread bit =>
      s!"path on thread {thread} starts at bit {bit}, which " ++
        "is not byte aligned"
  | .pauseNotTickMultiple millis tick =>
      s!"pause of {millis}ms is not a multiple of the " ++
        s!"{tick}ms device tick"
  | .unresolvedPath path =>
      s!"path activation targets unknown path {path}"
  | .ramExceeded needed available =>
      s!"show needs {needed} bytes of RAM but the device " ++
        s!"has {available}"
  | .romExceeded needed available =>
      s!"show needs {needed} bytes of ROM but the device " ++
        s!"has {available}"
  | .protocolMismatch found =>
      s!"device protocol version '{found}' does not match " ++
        s!"compiler protocol version '{protocolVersion}'"
  | .invalidDevice error =>
      s!"invalid device configuration: {error.message}"
  | .callNotInlined =>
      "internal codegen error: call marker reached the encoder"
  | .missingTargetField label =>
      s!"internal codegen error: goto '{label}' has no " ++
        "target field"

/- Whether a fault is about one instruction of the source. -/
def isLocal : Fault → Bool
  | .fieldOverflow _ _ _ => true
  | .flagOutOfRange _ _ _ => true
  | .unresolvedLabel _ => true
  | .pauseNotTickMultiple _ _ => true
  | .unresolvedPath _ => true
  | _ => false

end Fault

------------------------------------------------------------
-- Located Faults
------------------------------------------------------------

/- A fault and, if known, the place it comes from. -/
structure Located where
  fault : Fault
  span : Option Span
deriving DecidableEq, Repr

namespace Fault

/- A fault of the show as a whole. -/
def nowhere (f : Fault) : Located := ⟨f, none⟩

/- A fault found at an instruction with a given place. -/
def located (f : Fault) (span : Option Span) : Located :=
  ⟨f, if f.isLocal then span else none⟩

end Fault

namespace Located

/- Report the fault of a result at a place. -/
def placed
    {α : Type}
    (span : Option Span)
    (r : Except Fault α) : Except Located α :=
  r.mapError fun f => f.located span

/- Report the fault of a result without a place. -/
def unplaced
    {α : Type}
    (r : Except Fault α) : Except Located α :=
  r.mapError Fault.nowhere

end Located

end LightShow
