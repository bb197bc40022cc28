import LightShow.Device.Basic
import LightShow.Text.Blank
import LightShow.Text.Letters

/-
  Device settings: a key and a value, both texts.

  A key is looked up without regard to ASCII case. A bad
  setting leaves the device as it was.

  Key definitions include:
    * `LightShow.Device.Key`
    * `LightShow.Device.SettingError`
    * `LightShow.Device.apply`
    * `LightShow.Device.validate`

  Main statements:
    * `LightShow.Device.validate_eq_ok_iff`
-/

namespace LightShow

namespace Device

------------------------------------------------------------
-- Keys
------------------------------------------------------------

/- The settings that a device has. -/
inductive Key where
  | name
  | kind
  | usbVendorId
  | usbProductId
  | usbPacketBytes
  | tickMillis
  | ramBytes
  | romBytes
  | ledCount
  | protocol
  | saveToRom
deriving DecidableEq, Repr

/- The key written as a given text, in any ASCII case. -/
def Key.ofText? (text : String) : Option Key :=
  match Text.lower text with
  | "name" => some .name
  | "type" => some .kind
  | "usbvendorid" => some .usbVendorId
  | "usbproductid" => some .usbProductId
  | "usbpacketbytelen" => some .usbPacketBytes
  | "tickintervalmillisecs" => some .tickMillis
  | "ramspacebytes" => some .ramBytes
  | "romspacebytes" => some .romBytes
  | "ledcount" => some .ledCount
  | "protocolversion" => some .protocol
  | "savetorom" => some .saveToRom
  | _ => none

------------------------------------------------------------
-- Errors
------------------------------------------------------------

/- Why a setting, or the device as a whole, is refused. -/
inductive SettingError where
  | unknownKey (key : String)
  | invalidInteger (key value : String)
  | invalidBool (key value : String)
  | zero (key : String)
deriving DecidableEq, Repr

/- The wording of each refusal. -/
def SettingError.message : SettingError → String
  | .unknownKey key => s!"unknown device setting '{key}'"
  | .invalidInteger key value =>
      s!"device setting '{key}' expects an unsigned " ++
        s!"integer, found '{value}'"
  | .invalidBool key value =>
      s!"device setting '{key}' expects true/yes/false/no, "
        ++ s!"found '{value}'"
  | .zero key =>
      s!"device setting '{key}' must be greater than zero"

------------------------------------------------------------
-- Values
------------------------------------------------------------

/- Read a nonempty run of digits up to the largest setting. -/
def boundedDigits? (cs : List Char) : Option Nat :=
  if cs ≠ [] ∧ cs.all Char.isDigit ∧
      Text.digitsValue cs ≤ maxSetting then
    some (Text.digitsValue cs)
  else none

/- Drop one plus sign in front. -/
def dropPlus : List Char → List Char
  | '+' :: cs => cs
  | cs => cs

/-
  Read an unsigned integer: blanks around it are dropped and
  one plus sign may stand in front.
-/
def integer? (value : String) : Option Nat :=
  boundedDigits? (dropPlus (Text.trim value).toList)

/- Read a truth value, blanks around it dropped. -/
def bool? (value : String) : Option Bool :=
  match Text.lower (Text.trim value) with
  | "true" => some true
  | "yes" => some true
  | "false" => some false
  | "no" => some false
  | _ => none

/- Read an integer for a key. -/
def integer
    (key value : String) : Except SettingError Nat :=
  match integer? value with
  | some n => .ok n
  | none => .error (.invalidInteger key value)

/- Read a truth value for a key. -/
def bool
    (key value : String) : Except SettingError Bool :=
  match bool? value with
  | some b => .ok b
  | none => .error (.invalidBool key value)

------------------------------------------------------------
-- Applying Settings
------------------------------------------------------------

/-
  Apply one setting. Only the name keeps its case; messages
  quote key and value as they were given.
-/
def apply
    (d : Device)
    (key value : String) : Except SettingError Device :=
  match Key.ofText? key with
  | none => .error (.unknownKey key)
  | some .name => .ok { d with name := value }
  | some .kind => .ok { d with kind := Text.lower value }
  | some .usbVendorId =>
      .ok { d with usbVendorId := Text.lower value }
  | some .usbProductId =>
      .ok { d with usbProductId := Text.lower value }
  | some .usbPacketBytes => do
      let n ← integer key value
      return { d with usbPacketBytes := n }
  | some .tickMillis => do
      let n ← integer key value
      return { d with tickMillis := n }
  | some .ramBytes => do
      let n ← integer key value
      return { d with ramBytes := n }
  | some .romBytes => do
      let n ← integer key value
      return { d with romBytes := n }
  | some .ledCount => do
      let n ← integer key value
      return { d with ledCount := n }
  | some .protocol =>
      .ok { d with protocol := Text.lower value }
  | some .saveToRom => do
      let b ← bool key value
      return { d with saveToRom := b }

/- Check that no setting is zero that must not be. -/
def validate (d : Device) : Except SettingError Unit :=
  match d.zeroSetting? with
  | some key => .error (.zero key)
  | none => .ok ()

/- A usable device has LEDs, a tick and packets. -/
theorem validate_eq_ok_iff
    {d : Device} :
    d.validate = .ok () ↔
      d.ledCount ≠ 0 ∧ d.tickMillis ≠ 0 ∧
        d.usbPacketBytes ≠ 0 := by
  unfold validate zeroSetting?
  by_cases hLeds : d.ledCount = 0
  · simp [hLeds]
  by_cases hTick : d.tickMillis = 0
  · simp [hLeds, hTick]
  by_cases hPacket : d.usbPacketBytes = 0
  · simp [hLeds, hTick, hPacket]
  · simp [hLeds, hTick, hPacket]

end Device

end LightShow
