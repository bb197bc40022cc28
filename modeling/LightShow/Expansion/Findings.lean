import LightShow.Expansion.Basic
import LightShow.Expansion.Copies

/-
  What there is to report in a script.

  The findings of a script are listed without expanding it:
  statement by statement, and behind a call the findings of
  the called body, once for each call however often it is
  repeated. Diagnostics are taken from such a list in groups,
  one for each statement; a group is left out if the log is
  full, and a diagnostic if its like is already reported.

  Key definitions include:
    * `LightShow.Diagnostic.key`
    * `LightShow.Tally`
    * `LightShow.Tally.take`
    * `LightShow.Expander.findings`
    * `LightShow.Script.diagnostics`
    * `LightShow.Script.once`
-/

namespace LightShow

------------------------------------------------------------
-- Taking In Diagnostics
------------------------------------------------------------

/- Diagnostics of the same key are reported once. -/
def Diagnostic.key (d : Diagnostic) : Code × Span :=
  (d.code, d.span)

/- Count and store a diagnostic of either kind. -/
def Log.push (log : Log) (d : Diagnostic) : Log :=
  match d.severity with
  | .error => log.pushError d
  | .warning => log.pushWarning d

/- The diagnostics so far, and the keys of those reported. -/
structure Tally where
  log : Log := .empty
  reported : List (Code × Span) := []
deriving DecidableEq, Repr

namespace Tally

/- Take in a diagnostic, unless its like is reported. -/
def add (t : Tally) (d : Diagnostic) : Tally :=
  if t.reported.contains d.key then t
  else ⟨t.log.push d, d.key :: t.reported⟩

/- Take in the diagnostics of a statement, if there is room. -/
def take (t : Tally) (ds : List Diagnostic) : Tally :=
  if t.log.isFull then t else ds.foldl add t

end Tally

/- The diagnostics of an expansion so far. -/
def Expansion.tally (s : Expansion) : Tally :=
  ⟨s.log, s.reported⟩

------------------------------------------------------------
-- Findings
------------------------------------------------------------

namespace Expander

/- The diagnostic of a fault. -/
def finding
    (e : Expander)
    (x : ExpandFault × Span) : Diagnostic :=
  .error e.source x.1.code x.1.message x.2 x.1.suggestion

/- The diagnostic of a label that its body already has. -/
def labelFinding
    (e : Expander)
    (label : String)
    (span : Span) : Diagnostic :=
  .warning e.source.name .duplicateLabel
    (s!"label '{label}' appears more than once; goto " ++
      "uses the first") span

/- What a check finds. -/
def findingOf
    {α : Type}
    (e : Expander) :
    Except (ExpandFault × Span) α → List Diagnostic
  | .ok _ => []
  | .error x => [e.finding x]

/- The function that a call among some callers names. -/
def calleeOf
    (e : Expander)
    (callers : List String)
    (name : Name) :
    Except (ExpandFault × Span) Function :=
  e.callee ⟨0, 0, callers⟩ name

/-
  The findings of one statement, without those of the body
  that it inlines. `labels` are the labels before it.
-/
def findingsAt
    (e : Expander)
    (callers labels : List String)
    (st : Statement) : List Diagnostic :=
  match st.action with
  | .glow list _ => e.findingOf (e.leds list)
  | .ramp list _ _ duration =>
      e.findingOf (e.leds list) ++
        e.findingOf (e.millis duration)
  | .pause duration => e.findingOf (e.wholeTicks duration)
  | .here label =>
      if labels.contains label.text then
        [e.labelFinding label.text st.span]
      else []
  | .goto _ => []
  | .call name _ => e.findingOf (e.calleeOf callers name)
  | .callAsync name _ =>
      e.findingOf (e.calleeOf callers name)

/- The findings of what a statement inlines, if it does. -/
def findingsInside
    (e : Expander)
    (inner : Function → List (List Diagnostic))
    (callers : List String)
    (st : Statement) : List (List Diagnostic) :=
  match st.action.callee? with
  | none => []
  | some name =>
      match e.calleeOf callers name with
      | .error _ => []
      | .ok f => inner f

/- The findings of some statements in a row. -/
def findingsOfAll
    (e : Expander)
    (inner : Function → List (List Diagnostic))
    (callers : List String) :
    List String → List Statement → List (List Diagnostic)
  | _, [] => []
  | labels, st :: sts =>
      e.findingsAt callers labels st ::
        (e.findingsInside inner callers st ++
          findingsOfAll e inner callers
            (labelsAfter labels st) sts)

/- The findings of a body, called by some functions. -/
def findingsOf (e : Expander) :
    Nat → List String → Function → List (List Diagnostic)
  | 0, _, _ => []
  | depth + 1, callers, f =>
      e.findingsOfAll
        (findingsOf e depth (f.name.text :: callers))
        (f.name.text :: callers) [] f.body

/- The findings of a whole script. -/
def findings (e : Expander) : List (List Diagnostic) :=
  match e.script.find? Script.entryName with
  | none => [[e.finding (.missingEntry, .origin)]]
  | some start => e.findingsOf e.maxDepth [] start

end Expander

/- The diagnostics that expanding a script gives. -/
def Script.diagnostics
    (script : Script)
    (source : SourceText)
    (device : Device) : Log :=
  match script.expand source device with
  | .error log => log
  | .ok expanded => expanded.warnings

------------------------------------------------------------
-- Calling Once
------------------------------------------------------------

/- The action with one copy of the body that it calls. -/
def Action.once : Action → Action
  | .call name _ => .call name 1
  | other => other

def Statement.once (st : Statement) : Statement :=
  { st with action := st.action.once }

def Function.once (f : Function) : Function :=
  { f with body := f.body.map Statement.once }

/- The script with all calls made once. -/
def Script.once (script : Script) : Script :=
  { script with
    functions := script.functions.map Function.once }

end LightShow
