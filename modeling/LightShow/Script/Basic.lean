import LightShow.Color
import LightShow.Script.Duration

/-
  Light-show scripts.

  A script holds device settings, aliases and functions, each
  in the order of its lines. A function is a list of
  statements.

  Key definitions include:
    * `LightShow.Name`
    * `LightShow.Action`
    * `LightShow.Statement`
    * `LightShow.Function`
    * `LightShow.Script`
    * `LightShow.Script.find?`
-/

namespace LightShow

------------------------------------------------------------
-- Statements
------------------------------------------------------------

/- A name and the place where it is written. -/
structure Name where
  text : String
  span : Span
deriving DecidableEq, Repr

/- LED numbers, counted from one, in order of mention. -/
structure LedList where
  numbers : List Nat
  span : Span
deriving DecidableEq, Repr

/- What a statement does. -/
inductive Action where
  | glow (leds : LedList) (color : Color)
  | ramp
      (leds : LedList)
      (start stop : Color)
      (duration : Duration)
  | pause (duration : Duration)
  | here (label : Name)
  | goto (label : Name)
  | call (function : Name) (count : Nat)
  | callAsync (function : Name) (zOrder : Option Nat)
deriving DecidableEq, Repr

/- One statement line. -/
structure Statement where
  action : Action
  span : Span
deriving DecidableEq, Repr

------------------------------------------------------------
-- Scripts
------------------------------------------------------------

/- A device setting line. -/
structure Setting where
  key : Name
  value : String
  span : Span
deriving DecidableEq, Repr

/- An alias line. -/
structure Alias where
  name : Name
  value : String
  span : Span
deriving DecidableEq, Repr

/- A function: its header and the statements below it. -/
structure Function where
  name : Name
  body : List Statement
  span : Span
deriving DecidableEq, Repr

/- A whole script. -/
structure Script where
  settings : List Setting := []
  aliases : List Alias := []
  functions : List Function := []
deriving DecidableEq, Repr

namespace Script

/- The name of the function with which a show starts. -/
def entryName : String := "@start"

/- The first function of a name. -/
def find? (s : Script) (name : String) : Option Function :=
  s.functions.find? fun f => f.name.text == name

end Script

end LightShow
