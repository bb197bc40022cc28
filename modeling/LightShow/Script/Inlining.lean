import LightShow.Script.Basic

/-
  Writing the body of a function in place of a call.

  The statement that calls the function is replaced by as
  many copies of its body as it asks for. Labels belong to
  the body that they are written in, so those of the copies
  are given new names on the way.

  Key definitions include:
    * `LightShow.Statement.relabel`
    * `LightShow.Script.CallSite`
    * `LightShow.Script.CallSite.Fresh`
    * `LightShow.Script.CallSite.inlined`
-/

namespace LightShow

------------------------------------------------------------
-- Labels Of Statements
------------------------------------------------------------

/- The label that an action sets or jumps to. -/
def Action.label? : Action → Option String
  | .here label => some label.text
  | .goto label => some label.text
  | _ => none

/- Give the label of an action another name. -/
def Action.relabel (rename : String → String) :
    Action → Action
  | .here label => .here ⟨rename label.text, label.span⟩
  | .goto label => .goto ⟨rename label.text, label.span⟩
  | action => action

namespace Statement

def relabel
    (rename : String → String)
    (st : Statement) : Statement :=
  ⟨st.action.relabel rename, st.span⟩

/- The labels that some statements set or jump to. -/
def labels (sts : List Statement) : List String :=
  sts.filterMap fun st => st.action.label?

end Statement

------------------------------------------------------------
-- Calls In A Script
------------------------------------------------------------

namespace Script

/-
  A statement of a script that calls a function on its own
  path: the function and the statements around it, and what
  it calls.
-/
structure CallSite (script : Script) where
  before : List Function
  caller : Function
  after : List Function
  front : List Statement
  name : Name
  count : Nat
  span : Span
  back : List Statement
  callee : Function
  functions_eq : script.functions = before ++ caller :: after
  body_eq :
    caller.body = front ++ ⟨.call name count, span⟩ :: back
  find?_eq : script.find? name.text = some callee
  one_le_count : 1 ≤ count

namespace CallSite

variable {script : Script}
variable (site : script.CallSite)
variable (rename : Nat → String → String)

/-
  New names for the labels of each copy: different ones stay
  different, also in different copies, and none is a label
  of the calling function.
-/
structure Fresh : Prop where
  distinct : ∀ i < site.count, ∀ j < site.count,
    ∀ a ∈ Statement.labels site.callee.body,
    ∀ b ∈ Statement.labels site.callee.body,
      rename i a = rename j b → i = j ∧ a = b
  unused : ∀ i < site.count,
    ∀ a ∈ Statement.labels site.callee.body,
      rename i a ∉ Statement.labels site.caller.body

/- A copy of the body of the function that is called. -/
def copy (i : Nat) : List Statement :=
  site.callee.body.map (Statement.relabel (rename i))

/- The calling function with the copies in it. -/
def inlinedCaller : Function :=
  { site.caller with
    body := site.front ++
      ((List.range site.count).flatMap (site.copy rename) ++
        site.back) }

/- The script with the copies in it. -/
def inlined : Script :=
  { script with
    functions :=
      site.before ++ site.inlinedCaller rename ::
        site.after }

end CallSite

end Script

end LightShow
