import LightShow.Script.Basic

/-
  Scripts as text, and scripts without places.

  A script is written one line per setting, alias, function
  header and statement, in this order. Reading the text gives
  the script back, but with the places of its new lines, so
  scripts are compared with all places taken away.

  Key definitions include:
    * `LightShow.Script.render`
    * `LightShow.Script.unplaced`
-/

namespace LightShow

------------------------------------------------------------
-- Text
------------------------------------------------------------

/- A text in quotes that it does not contain. -/
def quoted (s : String) : String :=
  let q := if s.toList.contains '"' then "'" else "\""
  q ++ s ++ q

/- An LED list in square brackets. -/
def LedList.text (l : LedList) : String :=
  "[" ++ ", ".intercalate (l.numbers.map fun n => s!"{n}")
    ++ "]"

/- An amount with its unit. -/
def Duration.text (d : Duration) : String :=
  s!"{d.amount}{d.unit.suffix}"

/- A statement without its line end. -/
def Action.text : Action → String
  | .glow leds color =>
      s!"glowImmediate: {leds.text} {color.text}"
  | .ramp leds start stop duration =>
      s!"glowRamp: {leds.text} {start.text} to " ++
        s!"{stop.text} in {duration.text}"
  | .pause duration => s!"pause: {duration.text}"
  | .here label => s!"here: {label.text}"
  | .goto label => s!"goto: {label.text}"
  | .call function count =>
      s!"call: {function.text} (repeat={count})"
  | .callAsync function none => s!"callAsync: {function.text}"
  | .callAsync function (some z) =>
      s!"callAsync: {function.text} (zorder={z})"

/- A device setting without its line end. -/
def Setting.text (s : Setting) : String :=
  s!"device: {s.key.text} = {quoted s.value}"

/- An alias without its line end. -/
def Alias.text (a : Alias) : String :=
  s!"define: {a.name.text} = {quoted a.value}"

/- The lines of a function. -/
def Function.lines (f : Function) : List String :=
  f.name.text :: f.body.map fun s => "  " ++ s.action.text

namespace Script

/- The lines of a script. -/
def lines (s : Script) : List String :=
  s.settings.map Setting.text ++ s.aliases.map Alias.text ++
    s.functions.flatMap Function.lines

/- The text of a script, each line ended. -/
def render (s : Script) : String :=
  String.join (s.lines.map (· ++ "\n"))

end Script

------------------------------------------------------------
-- Places
------------------------------------------------------------

/- A name without its place. -/
def Name.unplaced (n : Name) : Name :=
  { n with span := .origin }

/- An LED list without its place. -/
def LedList.unplaced (l : LedList) : LedList :=
  { l with span := .origin }

/- A duration without its place. -/
def Duration.unplaced (d : Duration) : Duration :=
  { d with span := .origin }

/- An action without places. -/
def Action.unplaced : Action → Action
  | .glow leds color => .glow leds.unplaced color
  | .ramp leds start stop duration =>
      .ramp leds.unplaced start stop duration.unplaced
  | .pause duration => .pause duration.unplaced
  | .here label => .here label.unplaced
  | .goto label => .goto label.unplaced
  | .call function count => .call function.unplaced count
  | .callAsync function z => .callAsync function.unplaced z

/- A statement without places. -/
def Statement.unplaced (s : Statement) : Statement :=
  ⟨s.action.unplaced, .origin⟩

/- A function without places. -/
def Function.unplaced (f : Function) : Function :=
  ⟨f.name.unplaced, f.body.map Statement.unplaced, .origin⟩

namespace Script

/- A script without places. -/
def unplaced (s : Script) : Script where
  settings := s.settings.map fun d =>
    ⟨d.key.unplaced, d.value, .origin⟩
  aliases := s.aliases.map fun a =>
    ⟨a.name.unplaced, a.value, .origin⟩
  functions := s.functions.map Function.unplaced

end Script

end LightShow
