import LightShow.Color
import LightShow.Diagnostic.Code
import LightShow.Token.Basic

/-
  What can be wrong with a line of a script.

  Key definitions include:
    * `LightShow.Wanted`
    * `LightShow.LineFault`
    * `LightShow.LineError`
-/

namespace LightShow

/- What a line needs at some place. -/
inductive Wanted where
  | token (kind : Token.Kind)
  | identifier
  | functionName
  | number
  | settingValue
  | aliasText
  | timeUnit
  | lineEnd
deriving DecidableEq, Repr

/- The wording of what is needed. -/
def Wanted.text : Wanted → String
  | .token kind => s!"'{kind.text}'"
  | .identifier => "identifier"
  | .functionName => "function name like '@start'"
  | .number => "number"
  | .settingValue => "quoted value"
  | .aliasText => "quoted define text"
  | .timeUnit => "time unit (ms, s, m, h, t)"
  | .lineEnd => "end of line"

/- Why a line is not accepted. -/
inductive LineFault where
  | expected (wanted : Wanted) (found : Token.Kind)
  | unknownInstruction (found : Token.Kind)
  | outsideFunction (found : Token.Kind)
  | ledZero
  | ledAboveLimit (led : Nat)
  | ledRangeBackwards (first last : Nat)
  | channelTooLarge (channel : Channel) (value : Nat)
  | repeatOutOfRange (count : Nat)
  | zOrderOutOfRange (zOrder : Nat)
  | duplicateFunction (name : String) (firstLine : Nat)
deriving DecidableEq, Repr

namespace LineFault

/- The largest LED number that a script may name. -/
def maxLed : Nat := 65535

/- The largest repeat count of a call. -/
def maxRepeat : Nat := 2000000000

/- The largest z-order of an asynchronous call. -/
def maxZOrder : Nat := 1000

def code : LineFault → Code
  | .expected _ _ => .unexpectedToken
  | .unknownInstruction _ => .unknownInstruction
  | .outsideFunction _ => .statementOutsideFunction
  | .ledZero => .ledOutOfRange
  | .ledAboveLimit _ => .ledOutOfRange
  | .ledRangeBackwards _ _ => .ledOutOfRange
  | .channelTooLarge _ _ => .colorOutOfRange
  | .repeatOutOfRange _ => .repeatOutOfRange
  | .zOrderOutOfRange _ => .zOrderOutOfRange
  | .duplicateFunction _ _ => .duplicateFunction

def message : LineFault → String
  | .expected wanted found =>
      s!"expected {wanted.text}, got '{found.text}'"
  | .unknownInstruction found =>
      s!"unknown instruction '{found.text}'"
  | .outsideFunction found =>
      s!"'{found.text}' must appear inside a function"
  | .ledZero => "LED numbers start at 1"
  | .ledAboveLimit led =>
      s!"LED {led} is above the protocol limit of {maxLed}"
  | .ledRangeBackwards first last =>
      s!"LED range {first}-{last} runs backwards"
  | .channelTooLarge channel value =>
      s!"{channel.text} value {value} is outside " ++
        s!"0-{channel.maxValue}"
  | .repeatOutOfRange count =>
      s!"repeat count {count} is outside 1-{maxRepeat}"
  | .zOrderOutOfRange zOrder =>
      s!"zorder {zOrder} is outside 0-{maxZOrder}"
  | .duplicateFunction name _ =>
      s!"function '{name}' is already defined"

def suggestion : LineFault → Option String
  | .duplicateFunction _ line =>
      some s!"first defined on line {line}"
  | _ => none

end LineFault

/- A fault and the place it is reported at. -/
structure LineError where
  fault : LineFault
  span : Span
deriving DecidableEq, Repr

end LightShow
