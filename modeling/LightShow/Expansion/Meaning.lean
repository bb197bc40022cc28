import LightShow.Device.Basic
import LightShow.Instruction
import LightShow.Script.Basic

/-
  What the expansion of a script is, without a state.

  Paths and label scopes are numbered in the order in which
  their activations and bodies come up. The numbers that a
  statement starts with are therefore those of its body plus
  what the statements before it use up, and every statement
  can be expanded for itself.

  Bodies are expanded down to a depth; a call below it, like
  a call of an unknown function, stands for nothing.

  Key definitions include:
    * `LightShow.Numbers`
    * `LightShow.Meaning.used`
    * `LightShow.Meaning.instructions`
    * `LightShow.Script.meaning`
-/

namespace LightShow

/- Numbers of paths and of label scopes. -/
structure Numbers where
  paths : Nat
  scopes : Nat
deriving DecidableEq, Repr

namespace Numbers

/- No path and no scope. -/
def zero : Numbers := ⟨0, 0⟩

def add (a b : Numbers) : Numbers :=
  ⟨a.paths + b.paths, a.scopes + b.scopes⟩

/- The numbers of a number of like parts. -/
def times (n : Nat) (a : Numbers) : Numbers :=
  ⟨n * a.paths, n * a.scopes⟩

end Numbers

namespace Meaning

------------------------------------------------------------
-- Numbers Used
------------------------------------------------------------

/- What a statement uses, given what bodies use. -/
def usedBy
    (script : Script)
    (body : Function → Numbers) : Action → Numbers
  | .call name count =>
      ((script.find? name.text).elim .zero body).times count
  | .callAsync name _ =>
      (script.find? name.text).elim .zero fun f =>
        (body f).add ⟨1, 0⟩
  | _ => .zero

/- What some statements use. -/
def usedByAll
    (script : Script)
    (body : Function → Numbers)
    (sts : List Statement) : Numbers :=
  sts.foldr (fun st n => (usedBy script body st.action).add n)
    .zero

/- What the body of a function uses, its own scope included. -/
def used (script : Script) : Nat → Function → Numbers
  | 0, _ => .zero
  | depth + 1, f =>
      (usedByAll script (used script depth) f.body).add ⟨0, 1⟩

------------------------------------------------------------
-- Instructions
------------------------------------------------------------

/- Where a body is expanded and which numbers come next. -/
structure Site where
  path : Nat
  zOrder : Nat
  next : Numbers

/- An instruction of a statement on its path. -/
def emit (site : Site) (span : Span) (op : Op) : Instruction :=
  ⟨op, some site.path, some site.zOrder, some span⟩

/- LEDs counted from zero. -/
def ledsOf (list : LedList) : List Nat :=
  list.numbers.map (· - 1)

/- The activation of a path, its body and its end. -/
def activated
    (body : Site → List Instruction)
    (caller : Option Nat)
    (callerZ zOrder : Nat)
    (span : Span)
    (next : Numbers) : List Instruction :=
  let site : Site := ⟨next.paths, zOrder, next.add ⟨1, 0⟩⟩
  ⟨.activate next.paths, caller, some callerZ, some span⟩ ::
    body site ++ [emit site span .finish]

/- The instructions of a statement, given those of bodies. -/
def ofStatement
    (script : Script)
    (tick : Nat)
    (size : Function → Numbers)
    (body : Function → Site → List Instruction)
    (scope : Nat)
    (st : Statement)
    (site : Site) : List Instruction :=
  match st.action with
  | .glow list color =>
      [emit site st.span (.glow (ledsOf list) color)]
  | .ramp list start stop d =>
      let millis := d.amount * d.unit.factor tick
      [emit site st.span (.glow (ledsOf list) start),
       emit site st.span (.ramp (ledsOf list) start stop millis),
       emit site st.span (.glow (ledsOf list) stop)]
  | .pause d =>
      [emit site st.span (.pause (d.amount * d.unit.factor tick))]
  | .here label =>
      [emit site st.span (.here label.text scope)]
  | .goto label =>
      [emit site st.span (.goto label.text scope)]
  | .call name count =>
      match script.find? name.text with
      | none => []
      | some f =>
          (List.range count).flatMap fun i =>
            body f { site with
              next := site.next.add ((size f).times i) }
  | .callAsync name zOrder =>
      match script.find? name.text with
      | none => []
      | some f =>
          activated (body f) (some site.path) site.zOrder
            (zOrder.getD site.zOrder) st.span site.next

/- The instructions of some statements, one after another. -/
def ofStatements
    (script : Script)
    (tick : Nat)
    (size : Function → Numbers)
    (body : Function → Site → List Instruction)
    (scope : Nat) :
    List Statement → Site → List Instruction
  | [], _ => []
  | st :: sts, site =>
      let next := site.next.add (usedBy script size st.action)
      ofStatement script tick size body scope st site ++
        ofStatements script tick size body scope sts
          { site with next := next }

/- The instructions of a body; its scope comes next. -/
def instructions
    (script : Script)
    (tick : Nat) :
    Nat → Function → Site → List Instruction
  | 0, _, _ => []
  | depth + 1, f, site =>
      ofStatements script tick (used script depth)
        (instructions script tick depth) site.next.scopes
        f.body { site with next := site.next.add ⟨0, 1⟩ }

end Meaning

/-
  The instructions of a whole script: `@start` on path zero,
  activated from no path. Chains of calls without recursion
  are no longer than there are functions.
-/
def Script.meaning
    (script : Script)
    (device : Device) : Option (List Instruction) :=
  (script.find? entryName).map fun start =>
    Meaning.activated
      (Meaning.instructions script device.tickMillis
        (script.functions.length + 1) start)
      none 0 0 start.span .zero

end LightShow
