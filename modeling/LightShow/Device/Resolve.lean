import LightShow.Device.Setting
import LightShow.Diagnostic.Log
import LightShow.Script.Basic

/-
  The device of a script.

  The settings of the script are applied in order, then the
  overrides from outside, so the last setting of a key wins.
  Every bad setting is reported; the device is checked as a
  whole only when all settings are good.

  Key definitions include:
    * `LightShow.Device.DeviceFault`
    * `LightShow.Device.resolve`
-/

namespace LightShow

namespace Device

------------------------------------------------------------
-- Faults
------------------------------------------------------------

/- Why no device results. -/
inductive DeviceFault where
  | missing
  | scriptSetting (error : SettingError)
  | override (error : SettingError)
deriving DecidableEq, Repr

/- The code of a setting error. -/
def SettingError.code : SettingError → Code
  | .unknownKey _ => .invalidDeviceSetting
  | _ => .invalidDeviceValue

namespace DeviceFault

def code : DeviceFault → Code
  | .missing => .missingDevice
  | .scriptSetting e => e.code
  | .override e => e.code

def message : DeviceFault → String
  | .missing => "script does not describe its device"
  | .scriptSetting e => e.message
  | .override e => s!"device override: {e.message}"

def suggestion : DeviceFault → Option String
  | .missing =>
      some "add lines such as 'device: ledCount = \"8\"'"
  | _ => none

/- The diagnostic of a fault at a span. -/
def diagnostic
    (source : SourceText)
    (fault : DeviceFault)
    (span : Span) : Diagnostic :=
  .error source fault.code fault.message span fault.suggestion

end DeviceFault

------------------------------------------------------------
-- Settings In Order
------------------------------------------------------------

/- A setting, where it stands and how a fault is reported. -/
structure Assignment where
  key : String
  value : String
  span : Span
  fault : SettingError → DeviceFault

/- The settings of a script, then the overrides. -/
def assignments
    (script : Script)
    (overrides : List (String × String)) :
    List Assignment :=
  script.settings.map
      (fun s => ⟨s.key.text, s.value, s.span, .scriptSetting⟩)
    ++ overrides.map
      (fun (key, value) => ⟨key, value, .origin, .override⟩)

/- Apply one setting, or report why it is bad. -/
def assign
    (source : SourceText)
    (acc : Device × Log)
    (a : Assignment) : Device × Log :=
  match acc.1.apply a.key a.value with
  | .ok d => (d, acc.2)
  | .error e =>
      (acc.1,
        acc.2.pushError ((a.fault e).diagnostic source a.span))

/-
  The device that a script and overrides describe. A device
  that fails as a whole is reported at the first setting.
-/
def resolve
    (source : SourceText)
    (script : Script)
    (overrides : List (String × String)) :
    Except Log Device :=
  match assignments script overrides with
  | [] =>
      .error <| .single <|
        DeviceFault.missing.diagnostic source .origin
  | all =>
      let (device, log) :=
        all.foldl (assign source) ({}, .empty)
      if log.hasErrors then .error log
      else
        match device.validate with
        | .ok () => .ok device
        | .error e =>
            let span :=
              (script.settings.head?.map Setting.span).getD
                .origin
            .error <| .single <|
              (DeviceFault.scriptSetting e).diagnostic source
                span

end Device

end LightShow
