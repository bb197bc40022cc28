import LightShow.Device.Basic
import LightShow.Expansion.State

/-
  Expanding a script into instructions.

  The show starts with an activation of path zero, on which
  the body of `@start` is expanded. A call inlines the body
  of its function as often as it says, on the path of the
  caller; an asynchronous call gives the body a path of its
  own. Every inlined body has a label scope of its own. A
  function that is being expanded cannot be called again, so
  bodies nest at most as deep as there are functions.

  Key definitions include:
    * `LightShow.Frame`
    * `LightShow.Expander`
    * `LightShow.Expander.body`
    * `LightShow.Script.expand`
-/

namespace LightShow

------------------------------------------------------------
-- What Is Fixed During An Expansion
------------------------------------------------------------

/- The script, its text and the device it is expanded for. -/
structure Expander where
  script : Script
  source : SourceText
  device : Device

/- Where a body is expanded: its path, z-order and callers. -/
structure Frame where
  path : Nat
  zOrder : Nat
  /- The functions being expanded, innermost first. -/
  callers : List String

namespace Expander

------------------------------------------------------------
-- Checks
------------------------------------------------------------

/- The LEDs of a list, counted from zero. -/
def leds
    (e : Expander)
    (list : LedList) :
    Except (ExpandFault × Span) (List Nat) :=
  let count := e.device.ledCount
  match list.numbers.find? fun n => n = 0 || count < n with
  | some n => .error (.ledOutOfRange n count, list.span)
  | none => .ok (list.numbers.map (· - 1))

/- The milliseconds of a duration that is not too long. -/
def millis
    (e : Expander)
    (d : Duration) : Except (ExpandFault × Span) Nat :=
  match d.millis? e.device.tickMillis with
  | none => .error (.tooLong, d.span)
  | some ms =>
      if ms ≤ Duration.maxMillis then .ok ms
      else .error (.tooLong, d.span)

/- The milliseconds of a duration of whole ticks. -/
def wholeTicks
    (e : Expander)
    (d : Duration) : Except (ExpandFault × Span) Nat := do
  let ms ← e.millis d
  let tick := e.device.tickMillis
  if tick ≠ 0 ∧ ms % tick ≠ 0 then
    throw (.notWholeTicks ms tick, d.span)
  return ms

/- The function that a call names. -/
def callee
    (e : Expander)
    (frame : Frame)
    (name : Name) :
    Except (ExpandFault × Span) Function :=
  match e.script.find? name.text with
  | none => .error (.unknownFunction name.text, name.span)
  | some f =>
      if frame.callers.contains f.name.text then
        .error (.recursion name.text frame.callers.reverse,
          name.span)
      else .ok f

/- Go on with the value of a check, or report its fault. -/
def attempt
    {α : Type}
    (e : Expander)
    (r : Except (ExpandFault × Span) α)
    (next : α → Expansion → Expansion)
    (s : Expansion) : Expansion :=
  match r with
  | .ok a => next a s
  | .error (fault, span) => s.report e.source fault span

/- Report the fault of a check, if it has one. -/
def note
    {α : Type}
    (e : Expander)
    (r : Except (ExpandFault × Span) α)
    (s : Expansion) : Expansion :=
  e.attempt r (fun _ s => s) s

------------------------------------------------------------
-- Statements
------------------------------------------------------------

/- Emit an operation of a statement. -/
def put
    (e : Expander)
    (frame : Frame)
    (span : Span)
    (op : Op)
    (s : Expansion) : Expansion :=
  s.emit e.source op (some frame.path) frame.zOrder span

/- How a body is inlined in a frame. -/
abbrev Inline := Function → Frame → Expansion → Expansion

/- Inline a body a number of times, while there is work. -/
def inlineTimes
    (inline : Expansion → Expansion) :
    Nat → Expansion → Expansion
  | 0, s => s
  | n + 1, s =>
      if s.exhausted then s
      else inlineTimes inline n (inline s)

/-
  Give a function a path of its own: an activation on the
  path of the caller, the body, and the end of the path.
-/
def spawn
    (e : Expander)
    (inline : Inline)
    (function : Function)
    (caller : Option Nat)
    (callerZ zOrder : Nat)
    (callers : List String)
    (span : Span)
    (s : Expansion) : Expansion :=
  let path := s.nextPath
  let frame : Frame := ⟨path, zOrder, callers⟩
  let s := { s with nextPath := path + 1 }
  let s := s.emit e.source (.activate path) caller callerZ span
  let s := inline function frame s
  e.put frame span .finish s

/- Snap to the start color, ramp, snap to the end color. -/
def ramp
    (e : Expander)
    (frame : Frame)
    (span : Span)
    (leds : List Nat)
    (start stop : Color)
    (millis : Nat)
    (s : Expansion) : Expansion :=
  let s := e.put frame span (.glow leds start) s
  let s := e.put frame span (.ramp leds start stop millis) s
  e.put frame span (.glow leds stop) s

/-
  Expand one statement of a body. `labels` are the labels of
  the statements before it in the same body.
-/
def statement
    (e : Expander)
    (inline : Inline)
    (frame : Frame)
    (scope : Nat)
    (labels : List String)
    (st : Statement)
    (s : Expansion) : Expansion :=
  match st.action with
  | .glow list color =>
      e.attempt (e.leds list)
        (fun leds =>
          e.put frame st.span (.glow leds color)) s
  | .ramp list start stop duration =>
      match e.leds list, e.millis duration with
      | .ok leds, .ok ms =>
          e.ramp frame st.span leds start stop ms s
      | leds, ms => e.note ms (e.note leds s)
  | .pause duration =>
      e.attempt (e.wholeTicks duration)
        (fun ms => e.put frame st.span (.pause ms)) s
  | .here label =>
      let s :=
        if labels.contains label.text then
          s.warnLabel e.source label.text st.span
        else s
      e.put frame st.span (.here label.text scope) s
  | .goto label =>
      e.put frame st.span (.goto label.text scope) s
  | .call name count =>
      e.attempt (e.callee frame name)
        (fun f => inlineTimes (inline f frame) count) s
  | .callAsync name zOrder =>
      e.attempt (e.callee frame name)
        (fun f =>
          e.spawn inline f (some frame.path) frame.zOrder
            (zOrder.getD frame.zOrder) frame.callers st.span)
        s

/- The labels known after a statement. -/
def labelsAfter (labels : List String) (st : Statement) :
    List String :=
  match st.action with
  | .here label => label.text :: labels
  | _ => labels

/- Expand statements in order, while the state allows it. -/
def statements
    (e : Expander)
    (inline : Inline)
    (frame : Frame)
    (scope : Nat) :
    List String → List Statement → Expansion → Expansion
  | _, [], s => s
  | labels, st :: sts, s =>
      if s.stopped then s
      else
        statements e inline frame scope
          (labelsAfter labels st) sts
          (e.statement inline frame scope labels st s)

------------------------------------------------------------
-- Bodies
------------------------------------------------------------

/-
  Inline a body, with at most `depth` bodies nested in one
  another.
-/
def body (e : Expander) : Nat → Inline
  | 0, _, _, s => s
  | depth + 1, f, frame, s =>
      let s := s.charge e.source f.span
      if s.exhausted then s
      else
        let scope := s.nextScope
        let inner : Frame :=
          { frame with callers := f.name.text :: frame.callers }
        statements e (body e depth) inner scope [] f.body
          { s with nextScope := scope + 1 }

/- Deep enough for every chain of different functions. -/
def maxDepth (e : Expander) : Nat :=
  e.script.functions.length + 1

/- Expand a whole script. -/
def run (e : Expander) : Expansion :=
  match e.script.find? Script.entryName with
  | none => ({} : Expansion).report e.source .missingEntry .origin
  | some start =>
      e.spawn (body e e.maxDepth) start none 0 0 [] start.span {}

end Expander

------------------------------------------------------------
-- Results
------------------------------------------------------------

/- The instructions of a show, and warnings about them. -/
structure Expanded where
  instructions : List Instruction
  warnings : Log

/- Expand a script for a device. -/
def Script.expand
    (script : Script)
    (source : SourceText)
    (device : Device) : Except Log Expanded :=
  let s := Expander.run ⟨script, source, device⟩
  if s.log.hasErrors then .error s.log
  else .ok ⟨s.emitted.toList, s.log⟩

end LightShow
