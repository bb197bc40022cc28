import LightShow.Expansion.Basic
import LightShow.Expansion.Copies

/-
  Which scripts expand, said without expanding them.

  Only the functions that `@start` calls, directly or not,
  matter. They must be there, must not call one another in
  a circle, and must ask nothing of the device that it does
  not have; and the whole show must not be too large.

  Bodies nest only as deep as there are functions. To say
  that nothing ever gets below that depth, bodies can be
  expanded over an inlining that stands for whatever would
  happen there.

  Key definitions include:
    * `LightShow.Action.FitsOn`
    * `LightShow.Script.Calls`
    * `LightShow.Script.Expandable`
    * `LightShow.Expander.runOver`
-/

namespace LightShow

------------------------------------------------------------
-- What Actions Ask Of A Device
------------------------------------------------------------

/- Every LED of a list is on the device. -/
def LedList.On (device : Device) (list : LedList) : Prop :=
  ∀ n ∈ list.numbers, 1 ≤ n ∧ n ≤ device.ledCount

/- A duration that can be counted and is not too long. -/
structure Duration.Allowed (tick : Nat) (d : Duration) :
    Prop where
  counted : d.amount * d.unit.factor tick < Nat.pow 2 64
  short : d.amount * d.unit.factor tick ≤ 3888000000

/- A duration of whole ticks, if the device has ticks. -/
def Duration.Whole (tick : Nat) (d : Duration) : Prop :=
  tick ≠ 0 → tick ∣ d.amount * d.unit.factor tick

/- An action that asks for nothing that is not there. -/
def Action.FitsOn (device : Device) : Action → Prop
  | .glow list _ => list.On device
  | .ramp list _ _ d =>
      list.On device ∧ d.Allowed device.tickMillis
  | .pause d =>
      d.Allowed device.tickMillis ∧ d.Whole device.tickMillis
  | _ => True

------------------------------------------------------------
-- Expandable Scripts
------------------------------------------------------------

namespace Script

/- A function calls another, on its own path or not. -/
def Calls (script : Script) (f g : Function) : Prop :=
  ∃ st ∈ f.body, ∃ name,
    st.action.callee? = some name ∧
      script.find? name.text = some g

/- What a script must satisfy to expand for a device. -/
structure Expandable
    (script : Script)
    (device : Device) : Prop where
  /- There is a function to start with. -/
  entry : ∃ start, script.find? entryName = some start
  /- Every function that is called is there. -/
  known : ∀ f, script.Reachable f → ∀ st ∈ f.body, ∀ name,
    st.action.callee? = some name →
      ∃ g, script.find? name.text = some g
  /- No function calls itself, directly or not. -/
  acyclic : ∀ f, script.Reachable f →
    ¬Relation.TransGen script.Calls f f
  /- Every LED and every duration is all right. -/
  fits : ∀ f, script.Reachable f → ∀ st ∈ f.body,
    st.action.FitsOn device
  /- There are few enough instructions and bodies. -/
  small : ∀ is, script.meaning device = some is →
    is.length + script.copies.length ≤ Nat.pow 2 24

end Script

------------------------------------------------------------
-- Below The Last Body
------------------------------------------------------------

namespace Expander

/- Inline a body whose calls are inlined in a given way. -/
def layer (e : Expander) (inline : Inline) : Inline :=
  fun f frame s =>
    let s := s.charge e.source f.span
    if s.exhausted then s
    else
      let scope := s.nextScope
      let inner : Frame :=
        { frame with callers := f.name.text :: frame.callers }
      statements e inline inner scope [] f.body
        { s with nextScope := scope + 1 }

/- Bodies down to a depth, over what happens below it. -/
def bodyOver
    (e : Expander)
    (beyond : Inline) : Nat → Inline
  | 0 => beyond
  | depth + 1 => e.layer (bodyOver e beyond depth)

/- Expand a whole script over what happens below it. -/
def runOver (e : Expander) (beyond : Inline) : Expansion :=
  match e.script.find? Script.entryName with
  | none => ({} : Expansion).report e.source .missingEntry .origin
  | some start =>
      e.spawn (bodyOver e beyond e.maxDepth) start none 0 0 []
        start.span {}

end Expander

end LightShow
