import LightShow.Diagnostic.Log
import LightShow.Instruction
import LightShow.Script.Basic

/-
  The state of an expansion.

  Emitted instructions and inlined bodies are charged
  against one budget. Each kind of diagnostic is reported
  once per place, however often a body is inlined.

  Key definitions include:
    * `LightShow.ExpandFault`
    * `LightShow.Expansion`
    * `LightShow.Expansion.charge`
    * `LightShow.Expansion.emit`
    * `LightShow.Expansion.report`
-/

namespace LightShow

------------------------------------------------------------
-- Faults
------------------------------------------------------------

/- Why a script does not expand to a show. -/
inductive ExpandFault where
  | missingEntry
  | unknownFunction (name : String)
  | recursion (name : String) (callers : List String)
  | ledOutOfRange (led count : Nat)
  | tooLong
  | notWholeTicks (millis tick : Nat)
  | tooLarge
deriving DecidableEq, Repr

namespace ExpandFault

/- The most instructions and bodies that a show may have. -/
def maxWork : Nat := Nat.pow 2 24

def code : ExpandFault → Code
  | .missingEntry => .missingEntryPoint
  | .unknownFunction _ => .unknownFunction
  | .recursion _ _ => .recursiveCall
  | .ledOutOfRange _ _ => .ledOutOfRange
  | .tooLong => .durationTooLong
  | .notWholeTicks _ _ => .durationNotTickMultiple
  | .tooLarge => .ramExceeded

def message : ExpandFault → String
  | .missingEntry =>
      s!"script has no '{Script.entryName}' function"
  | .unknownFunction name => s!"unknown function '{name}'"
  | .recursion name callers =>
      let chain := " -> ".intercalate callers
      s!"'{name}' calls itself ({chain} -> {name})"
  | .ledOutOfRange led count =>
      s!"LED {led} is outside the device range 1-{count}"
  | .tooLong => "duration is longer than 45 days"
  | .notWholeTicks millis tick =>
      s!"{millis}ms is not a multiple of the {tick}ms " ++
        "device tick"
  | .tooLarge =>
      s!"show expands to more than {maxWork} instructions " ++
        "and calls"

def suggestion : ExpandFault → Option String
  | .missingEntry =>
      some (s!"add a line '{Script.entryName}' before the " ++
        "first instruction")
  | .recursion _ _ => some "use 'goto' to loop instead"
  | .notWholeTicks _ _ => some "use a tick count such as '5t'"
  | _ => none

end ExpandFault

------------------------------------------------------------
-- States
------------------------------------------------------------

/- An expansion under way. -/
structure Expansion where
  /- The number of the next path. -/
  nextPath : Nat := 0
  /- The number of the next label scope. -/
  nextScope : Nat := 0
  /- Instructions and bodies charged so far. -/
  work : Nat := 0
  /- Whether the budget is exhausted. -/
  exhausted : Bool := false
  /- The instructions emitted so far. -/
  emitted : Array Instruction := #[]
  /- Errors and warnings so far. -/
  log : Log := .empty
  /- The codes and places already reported. -/
  reported : List (Code × Span) := []

namespace Expansion

------------------------------------------------------------
-- Reports
------------------------------------------------------------

/- Report an error, unless its like is already reported. -/
def report
    (source : SourceText)
    (fault : ExpandFault)
    (span : Span)
    (s : Expansion) : Expansion :=
  if s.reported.contains (fault.code, span) then s
  else
    let d := Diagnostic.error source fault.code fault.message
      span fault.suggestion
    { s with
      log := s.log.pushError d
      reported := (fault.code, span) :: s.reported }

/- Warn of a label that its body already has. -/
def warnLabel
    (source : SourceText)
    (label : String)
    (span : Span)
    (s : Expansion) : Expansion :=
  if s.reported.contains (.duplicateLabel, span) then s
  else
    let d := Diagnostic.warning source.name .duplicateLabel
      (s!"label '{label}' appears more than once; goto " ++
        "uses the first") span
    { s with
      log := s.log.pushWarning d
      reported := (.duplicateLabel, span) :: s.reported }

------------------------------------------------------------
-- The Budget
------------------------------------------------------------

/-
  Charge one unit of work for something at a place. When
  nothing is left, that is reported once and the state is
  exhausted; then nothing more happens.
-/
def charge
    (source : SourceText)
    (span : Span)
    (s : Expansion) : Expansion :=
  if s.exhausted then s
  else if s.work < ExpandFault.maxWork then
    { s with work := s.work + 1 }
  else
    { s with exhausted := true }.report source .tooLarge span

/- Emit an instruction, if there is work left for it. -/
def emit
    (source : SourceText)
    (op : Op)
    (path : Option Nat)
    (zOrder : Nat)
    (span : Span)
    (s : Expansion) : Expansion :=
  let s := s.charge source span
  if s.exhausted then s
  else
    { s with
      emitted := s.emitted.push
        ⟨op, path, some zOrder, some span⟩ }

/- Whether no further statement is expanded. -/
def stopped (s : Expansion) : Bool :=
  s.exhausted || s.log.isFull

end Expansion

end LightShow
