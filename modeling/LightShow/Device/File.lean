import LightShow.Device.Setting
import LightShow.Toml.Document

/-
  Device files: settings of a device written in TOML.

  The settings stand either at the top or all in one table
  named `device`. A `device` that is no table is passed over.
  Values are texts, integers or truth values.

  Key definitions include:
    * `LightShow.Device.FileError`
    * `LightShow.Device.settingsOfTable`
    * `LightShow.Device.settingsOfFile`
-/

namespace LightShow

namespace Device

/- Why a device file is refused. -/
inductive FileError where
  | notToml
  | keysOutside
  | unsupported (key kind : String)
deriving DecidableEq, Repr

/- The wording of each refusal. -/
def FileError.message : FileError → String
  | .notToml => "not a TOML document"
  | .keysOutside =>
      "keys outside [device] are not allowed alongside it"
  | .unsupported key kind =>
      s!"device setting '{key}' has unsupported type {kind}"

/- The text of a value that a setting may have. -/
def valueText? : Toml.Value → Option String
  | .string text => some text
  | .integer n => some (toString n)
  | .boolean b => some (toString b)
  | _ => none

/- The entries of a file that are settings. -/
def settingTable
    (t : Toml.Table) : Except FileError Toml.Table :=
  let rest := t.erase "device"
  match t.get? "device" with
  | some (.table _ inner) =>
      if rest.isEmpty then .ok inner else .error .keysOutside
  | _ => .ok rest

/- One setting. -/
def settingOfEntry
    (entry : String × Toml.Value) :
    Except FileError (String × String) :=
  match valueText? entry.2 with
  | some text => .ok (entry.1, text)
  | none => .error (.unsupported entry.1 entry.2.kind)

/- The settings of a table in the order of their keys. -/
def settingsOfTable
    (t : Toml.Table) :
    Except FileError (List (String × String)) := do
  let entries ← settingTable t
  entries.sorted.mapM settingOfEntry

/- The settings of a device file. -/
def settingsOfFile
    (text : String) :
    Except FileError (List (String × String)) :=
  match Toml.parse? text with
  | none => .error .notToml
  | some t => settingsOfTable t

end Device

end LightShow
