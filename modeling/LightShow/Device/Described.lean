import LightShow.Device.Resolve

/-
  What a list of settings says about a device.

  Every key has a usual spelling and values of a type of its
  own. A setting is good if its key is one of these and its
  value can be read as one of the key's type. Of all settings
  of a key the last one counts, and without any the default.

  Key definitions include:
    * `LightShow.Device.Key.Names`
    * `LightShow.Device.Key.Value`
    * `LightShow.Device.Key.read?`
    * `LightShow.Device.field`
    * `LightShow.Device.Good`
    * `LightShow.Device.described`
    * `LightShow.Device.Reorders`
-/

namespace LightShow

namespace Device

------------------------------------------------------------
-- Keys And Their Values
------------------------------------------------------------

namespace Key

/- The usual spelling of a key. -/
def text : Key → String
  | .name => "name"
  | .kind => "type"
  | .usbVendorId => "usbVendorId"
  | .usbProductId => "usbProductId"
  | .usbPacketBytes => "usbPacketByteLen"
  | .tickMillis => "tickIntervalMillisecs"
  | .ramBytes => "ramSpaceBytes"
  | .romBytes => "romSpaceBytes"
  | .ledCount => "ledCount"
  | .protocol => "protocolVersion"
  | .saveToRom => "saveToRom"

/- A text names the key that it spells in any ASCII case. -/
def Names (key : Key) (text : String) : Prop :=
  Text.lower text = Text.lower key.text

instance (key : Key) (text : String) :
    Decidable (key.Names text) :=
  inferInstanceAs (Decidable (_ = _))

/- The type of what is set under a key. -/
abbrev Value : Key → Type
  | .name => String
  | .kind => String
  | .usbVendorId => String
  | .usbProductId => String
  | .usbPacketBytes => Nat
  | .tickMillis => Nat
  | .ramBytes => Nat
  | .romBytes => Nat
  | .ledCount => Nat
  | .protocol => String
  | .saveToRom => Bool

/-
  Convert a text to a value of a key. Texts other than the
  name lose their capitals; numbers and truth values may not
  be there at all.
-/
def read? : (key : Key) → String → Option key.Value
  | .name, text => some text
  | .kind, text => some (Text.lower text)
  | .usbVendorId, text => some (Text.lower text)
  | .usbProductId, text => some (Text.lower text)
  | .usbPacketBytes, text => integer? text
  | .tickMillis, text => integer? text
  | .ramBytes, text => integer? text
  | .romBytes, text => integer? text
  | .ledCount, text => integer? text
  | .protocol, text => some (Text.lower text)
  | .saveToRom, text => bool? text

/- Why a text is no value of a key. -/
def complaint : Key → String → String → SettingError
  | .saveToRom => .invalidBool
  | _ => .invalidInteger

end Key

------------------------------------------------------------
-- Fields
------------------------------------------------------------

/- What a device holds under a key. -/
def field (d : Device) : (key : Key) → key.Value
  | .name => d.name
  | .kind => d.kind
  | .usbVendorId => d.usbVendorId
  | .usbProductId => d.usbProductId
  | .usbPacketBytes => d.usbPacketBytes
  | .tickMillis => d.tickMillis
  | .ramBytes => d.ramBytes
  | .romBytes => d.romBytes
  | .ledCount => d.ledCount
  | .protocol => d.protocol
  | .saveToRom => d.saveToRom

/- A device with another value under a key. -/
def set (d : Device) : (key : Key) → key.Value → Device
  | .name, v => { d with name := v }
  | .kind, v => { d with kind := v }
  | .usbVendorId, v => { d with usbVendorId := v }
  | .usbProductId, v => { d with usbProductId := v }
  | .usbPacketBytes, v => { d with usbPacketBytes := v }
  | .tickMillis, v => { d with tickMillis := v }
  | .ramBytes, v => { d with ramBytes := v }
  | .romBytes, v => { d with romBytes := v }
  | .ledCount, v => { d with ledCount := v }
  | .protocol, v => { d with protocol := v }
  | .saveToRom, v => { d with saveToRom := v }

------------------------------------------------------------
-- Lists Of Settings
------------------------------------------------------------

/- The settings of a script, then the overrides. -/
def settings
    (script : Script)
    (overrides : List (String × String)) :
    List (String × String) :=
  script.settings.map (fun s => (s.key.text, s.value))
    ++ overrides

/- The value of a setting is one of the type of its key. -/
def Good (setting : String × String) : Prop :=
  ∃ key : Key, key.Names setting.1 ∧
    (key.read? setting.2).isSome

/- The settings of one key. -/
def settingsOf
    (key : Key)
    (settings : List (String × String)) :
    List (String × String) :=
  settings.filter fun s => key.Names s.1

/-
  What the last setting of a key says, or the default if
  there is none.
-/
def described
    (settings : List (String × String))
    (key : Key) : key.Value :=
  ((settingsOf key settings).getLast?.bind
    fun s => key.read? s.2).getD (({} : Device).field key)

/-
  The same settings, those of each key in the same order,
  those of different keys in any.
-/
def Reorders (first second : List (String × String)) : Prop :=
  first.Perm second ∧
    ∀ key, settingsOf key first = settingsOf key second

end Device

end LightShow
