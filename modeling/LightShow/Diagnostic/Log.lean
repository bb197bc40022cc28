import LightShow.Diagnostic.Basic

/-
  Logs of diagnostics that keep the first twenty errors.

  A log counts every error but stores only the first
  `Log.capacity` of them; warnings are all stored. Joining
  two logs counts the errors the second one dropped.

  Key definitions include:
    * `LightShow.Log`
    * `LightShow.Log.pushError`
    * `LightShow.Log.pushWarning`
    * `LightShow.Log.extend`
    * `LightShow.Log.isFull`
-/

namespace LightShow

/- Errors up to a cap, their true number, and warnings. -/
structure Log where
  errors : List Diagnostic
  warnings : List Diagnostic
  totalErrors : Nat
  totalWarnings : Nat
deriving DecidableEq, Repr

namespace Log

/- The number of errors that a log stores. -/
def capacity : Nat := 20

/- The log without diagnostics. -/
def empty : Log := ⟨[], [], 0, 0⟩

instance : Inhabited Log := ⟨empty⟩

/- Count an error, and store it while there is room. -/
def pushError (log : Log) (d : Diagnostic) : Log :=
  { log with
    errors :=
      if log.errors.length < capacity then log.errors ++ [d]
      else log.errors
    totalErrors := log.totalErrors + 1 }

/- Count and store a warning. -/
def pushWarning (log : Log) (d : Diagnostic) : Log :=
  { log with
    warnings := log.warnings ++ [d]
    totalWarnings := log.totalWarnings + 1 }

/- The log of one error. -/
def single (d : Diagnostic) : Log :=
  empty.pushError d

/- The number of errors beyond the cap. -/
def dropped (log : Log) : Nat :=
  log.totalErrors - min log.totalErrors capacity

/-
  Append a second log: its stored errors in order, the number
  of those it dropped, and its warnings.
-/
def extend (log other : Log) : Log :=
  let joined := other.errors.foldl pushError log
  let counted :=
    { joined with
      totalErrors := joined.totalErrors + other.dropped }
  other.warnings.foldl pushWarning counted

/- Whether any error was counted. -/
def hasErrors (log : Log) : Bool :=
  0 < log.totalErrors

/- Whether the errors counted have reached the cap. -/
def isFull (log : Log) : Bool :=
  capacity ≤ log.totalErrors

/- The one-line forms of all stored diagnostics. -/
def lines (log : Log) : List String :=
  (log.errors ++ log.warnings).map Diagnostic.text

end Log

end LightShow
