/-
  Numbered kinds of diagnostics and their categories.

  A code is a number; its hundreds give the category, and
  every number outside 100-599 counts as an encoding matter.

  Key definitions include:
    * `LightShow.Category`
    * `LightShow.Code`
    * `LightShow.Code.category`
-/

namespace LightShow

------------------------------------------------------------
-- Categories
------------------------------------------------------------

/- What a diagnostic is about. -/
inductive Category where
  | wording
  | meaning
  | shape
  | resource
  | configuration
  | encoding
deriving DecidableEq, Repr

/- The name of a category in diagnostics. -/
def Category.text : Category → String
  | .wording => "syntax"
  | .meaning => "semantic"
  | .shape => "structure"
  | .resource => "resource"
  | .configuration => "configuration"
  | .encoding => "encoding"

------------------------------------------------------------
-- Codes
------------------------------------------------------------

/- The number that names a kind of diagnostic. -/
structure Code where
  number : Nat
deriving DecidableEq, Repr

namespace Code

/- The category is read off the hundreds of the number. -/
def category (c : Code) : Category :=
  match c.number / 100 with
  | 1 => .wording
  | 2 => .meaning
  | 3 => .shape
  | 4 => .resource
  | 5 => .configuration
  | _ => .encoding

/- A code is written as its number after a capital E. -/
def text (c : Code) : String :=
  s!"E{c.number}"

/- Malformed text. -/
def unexpectedToken : Code := ⟨100⟩
def unknownInstruction : Code := ⟨101⟩
def invalidCharacter : Code := ⟨102⟩
def unterminatedString : Code := ⟨103⟩
def statementOutsideFunction : Code := ⟨104⟩
def invalidNumber : Code := ⟨105⟩

/- Values that make no sense. -/
def ledOutOfRange : Code := ⟨200⟩
def colorOutOfRange : Code := ⟨201⟩
def durationTooLong : Code := ⟨202⟩
def durationNotTickMultiple : Code := ⟨203⟩
def repeatOutOfRange : Code := ⟨204⟩
def zOrderOutOfRange : Code := ⟨205⟩
def unknownAlias : Code := ⟨206⟩
def aliasTooDeep : Code := ⟨207⟩
def duplicateAlias : Code := ⟨208⟩
def showNeverLights : Code := ⟨209⟩

/- Functions, labels and paths that do not fit together. -/
def unresolvedLabel : Code := ⟨300⟩
def misalignedPath : Code := ⟨301⟩
def unknownFunction : Code := ⟨302⟩
def duplicateFunction : Code := ⟨303⟩
def missingEntryPoint : Code := ⟨304⟩
def recursiveCall : Code := ⟨305⟩
def unresolvedPath : Code := ⟨306⟩
def duplicateLabel : Code := ⟨307⟩

/- Budgets that are exceeded. -/
def tooManyThreads : Code := ⟨400⟩
def ramExceeded : Code := ⟨401⟩
def romExceeded : Code := ⟨402⟩

/- Devices that cannot be compiled for. -/
def protocolMismatch : Code := ⟨500⟩
def missingDevice : Code := ⟨501⟩
def invalidDeviceSetting : Code := ⟨502⟩
def invalidDeviceValue : Code := ⟨503⟩

/- Values that do not fit their bit fields. -/
def fieldOverflow : Code := ⟨600⟩
def internal : Code := ⟨601⟩

end Code

end LightShow
