import LightShow.Expansion.Meaning

/-
  The bodies that an expansion inlines.

  Key definitions include:
    * `LightShow.Script.Reachable`
    * `LightShow.Meaning.callees`
    * `LightShow.Meaning.Copy`
    * `LightShow.Meaning.copies`
    * `LightShow.Script.copies`
-/

namespace LightShow

------------------------------------------------------------
-- Calls
------------------------------------------------------------

/- The name of the function that an action calls. -/
def Action.callee? : Action → Option Name
  | .call name _ => some name
  | .callAsync name _ => some name
  | _ => none

/- A function that `@start` calls, directly or not. -/
inductive Script.Reachable (script : Script) : Function → Prop
  | start
      {f : Function}
      (hFind : script.find? entryName = some f) :
      Reachable script f
  | call
      {f g : Function}
      {st : Statement}
      {name : Name}
      (hCaller : Reachable script f)
      (hStatement : st ∈ f.body)
      (hCallee : st.action.callee? = some name)
      (hFind : script.find? name.text = some g) :
      Reachable script g

namespace Meaning

/- The functions that an action inlines at least once. -/
def callees (script : Script) : Action → List Function
  | .call name count =>
      if count = 0 then []
      else (script.find? name.text).toList
  | .callAsync name _ => (script.find? name.text).toList
  | _ => []

/- The bodies that an action inlines, and where it does. -/
def calls
    (script : Script)
    (size : Function → Numbers)
    (site : Site) : Action → List (Function × Site)
  | .call name count =>
      match script.find? name.text with
      | none => []
      | some f =>
          (List.range count).map fun i =>
            (f, { site with
              next := site.next.add ((size f).times i) })
  | .callAsync name zOrder =>
      match script.find? name.text with
      | none => []
      | some f =>
          [(f, ⟨site.next.paths, zOrder.getD site.zOrder,
            site.next.add ⟨1, 0⟩⟩)]
  | _ => []

/- The bodies that some statements inline, in order. -/
def callsOfAll
    (script : Script)
    (size : Function → Numbers) :
    List Statement → Site → List (Function × Site)
  | [], _ => []
  | st :: sts, site =>
      let next := site.next.add (usedBy script size st.action)
      calls script size site st.action ++
        callsOfAll script size sts { site with next := next }

/- One inlined body: its path, z-order and label scope. -/
structure Copy where
  function : Function
  path : Nat
  zOrder : Nat
  scope : Nat
deriving DecidableEq, Repr

/-
  The copies that a body and the bodies inlined in it make,
  each one before those inlined in it.
-/
def copies (script : Script) :
    Nat → Function → Site → List Copy
  | 0, _, _ => []
  | depth + 1, f, site =>
      ⟨f, site.path, site.zOrder, site.next.scopes⟩ ::
        (callsOfAll script (used script depth) f.body
          { site with next := site.next.add ⟨0, 1⟩ }).flatMap
            fun x => copies script depth x.1 x.2

------------------------------------------------------------
-- Labels Of A Copy
------------------------------------------------------------

/- The label or jump that an action is in a scope. -/
def labelOp? (scope : Nat) : Action → Option Op
  | .here label => some (.here label.text scope)
  | .goto label => some (.goto label.text scope)
  | _ => none

/- The labels and jumps of a copy, in order. -/
def Copy.labelOps (c : Copy) : List Op :=
  c.function.body.filterMap fun st =>
    labelOp? c.scope st.action

/- The paths that some instructions activate, in order. -/
def activations (is : List Instruction) : List Nat :=
  is.filterMap fun i =>
    match i.op with
    | .activate target => some target
    | _ => none

end Meaning

namespace Script

/- Where the body of a whole script is expanded. -/
def firstSite : Meaning.Site := ⟨0, 0, ⟨1, 0⟩⟩

/- The copies that a whole script makes. -/
def copies (script : Script) : List Meaning.Copy :=
  (script.find? entryName).elim [] fun start =>
    Meaning.copies script (script.functions.length + 1) start
      firstSite

end Script

namespace Op

/- The scope of a label or jump. -/
def scope? : Op → Option Nat
  | .here _ scope => some scope
  | .goto _ scope => some scope
  | _ => none

/- Whether an operation is a label or jump of a scope. -/
def inScope (scope : Nat) (op : Op) : Bool :=
  op.scope? == some scope

end Op

/- A body that jumps to a label it does not have. -/
def Function.Dangling (f : Function) : Prop :=
  ∃ st ∈ f.body, ∃ label,
    st.action = .goto label ∧
      ∀ other ∈ f.body, ∀ name,
        other.action = .here name → name.text ≠ label.text

end LightShow
