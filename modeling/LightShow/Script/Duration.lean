import LightShow.Source.Span

/-
  Durations and their units.

  Key definitions include:
    * `LightShow.TimeUnit`
    * `LightShow.Duration`
    * `LightShow.Duration.millis?`
-/

namespace LightShow

/- The units in which durations are written. -/
inductive TimeUnit where
  | millis
  | seconds
  | minutes
  | hours
  | ticks
deriving DecidableEq, Repr

namespace TimeUnit

/- The suffix of each unit. -/
def suffix : TimeUnit → String
  | .millis => "ms"
  | .seconds => "s"
  | .minutes => "m"
  | .hours => "h"
  | .ticks => "t"

/- The name of each unit. -/
def text : TimeUnit → String
  | .millis => "millis"
  | .seconds => "seconds"
  | .minutes => "minutes"
  | .hours => "hours"
  | .ticks => "ticks"

/- All units. -/
def all : List TimeUnit :=
  [.millis, .seconds, .minutes, .hours, .ticks]

/- The unit of a suffix. -/
def ofSuffix? (s : String) : Option TimeUnit :=
  all.find? fun u => u.suffix == s

/- Milliseconds per unit; a tick is as long as the device's. -/
def factor (tick : Nat) : TimeUnit → Nat
  | .millis => 1
  | .seconds => 1000
  | .minutes => 60000
  | .hours => 3600000
  | .ticks => tick

end TimeUnit

/- An amount of a unit. -/
structure Duration where
  amount : Nat
  unit : TimeUnit
  span : Span
deriving DecidableEq, Repr

namespace Duration

/- Milliseconds are counted in words of sixty-four bits. -/
def millisBound : Nat := Nat.pow 2 64

/- The longest duration of a show: forty-five days. -/
def maxMillis : Nat := 3888000000

/- The duration in milliseconds, if it can be counted. -/
def millis? (d : Duration) (tick : Nat) : Option Nat :=
  let n := d.amount * d.unit.factor tick
  if n < millisBound then some n else none

end Duration

end LightShow
