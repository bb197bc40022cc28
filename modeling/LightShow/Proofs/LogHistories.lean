import Mathlib
import LightShow.Diagnostic.Log

/-
  What logs keep of all that they were told.

  The history of a log is the full sequence of the errors and
  the warnings that were put into it, those included that a
  joined log had dropped. A log keeps the first errors of its
  history, the number of all of them and every warning; it
  follows that joining logs is joining their histories.

  Key definitions include:
    * `History`
    * `History.log`
    * `LogStep`

  Main statements:
    * `History.extend_log`
    * `LogStep.perform_logs`
    * `Log.logs_keep_their_histories`
-/

namespace LightShow

open Log (capacity)

/- Warnings that are pushed one by one are stored in order. -/
theorem Log.foldl_pushWarning
    (start : Log)
    (ds : List Diagnostic) :
    ds.foldl pushWarning start =
      { start with
        warnings := start.warnings ++ ds
        totalWarnings := start.totalWarnings + ds.length }
    := by
  induction ds generalizing start with
  | nil => simp
  | cons d ds ih =>
      rw [List.foldl_cons, ih]
      simp only [pushWarning, List.append_assoc,
        List.singleton_append, List.length_cons,
        mk.injEq, true_and]
      omega

------------------------------------------------------------
-- Histories
------------------------------------------------------------

/- All errors and warnings that a log was told, in order. -/
structure History where
  errors : List Diagnostic := []
  warnings : List Diagnostic := []

namespace History

/- The log of a history: errors up to the capacity, and how
many there were. -/
def log (told : History) : Log where
  errors := told.errors.take capacity
  warnings := told.warnings
  totalErrors := told.errors.length
  totalWarnings := told.warnings.length

def pushError (told : History) (d : Diagnostic) : History :=
  { told with errors := told.errors ++ [d] }

def pushWarning
    (told : History)
    (d : Diagnostic) : History :=
  { told with warnings := told.warnings ++ [d] }

/- One history after another. -/
def append (first second : History) : History where
  errors := first.errors ++ second.errors
  warnings := first.warnings ++ second.warnings

theorem append_assoc
    (first second third : History) :
    (first.append second).append third =
      first.append (second.append third) := by
  simp only [append, List.append_assoc]

------------------------------------------------------------
-- Logs Of Histories
------------------------------------------------------------

/- A log is that of a history if all its parts are. -/
theorem eq_log
    {log : Log}
    {told : History}
    (hErrors : log.errors = told.errors.take capacity)
    (hWarnings : log.warnings = told.warnings)
    (hErrorCount : log.totalErrors = told.errors.length)
    (hWarningCount :
      log.totalWarnings = told.warnings.length) :
    log = told.log := by
  rw [History.log, ← hErrors, ← hErrorCount, ← hWarningCount,
    ← hWarnings]

/- The first errors, one more if there is room for it. -/
theorem take_append_of_room
    (ds : List Diagnostic)
    (d : Diagnostic) :
    (if (ds.take capacity).length < capacity then
        ds.take capacity ++ [d]
      else ds.take capacity) =
      (ds ++ [d]).take capacity := by
  have hStored :
      (ds.take capacity).length = min capacity ds.length :=
    List.length_take
  by_cases hRoom : ds.length < capacity
  · have hFits : (ds ++ [d]).length ≤ capacity := by
      simpa using hRoom
    rw [if_pos (by omega),
      List.take_of_length_le (Nat.le_of_lt hRoom),
      List.take_of_length_le hFits]
  · rw [if_neg (by omega),
      List.take_append_of_le_length (Nat.not_lt.mp hRoom)]

/- A log with room stores the error, a full one counts it. -/
theorem pushError_log
    (told : History)
    (d : Diagnostic) :
    told.log.pushError d = (told.pushError d).log := by
  apply eq_log
  · exact take_append_of_room told.errors d
  · rfl
  · rw [pushError, List.length_append]
    rfl
  · rfl

theorem pushWarning_log
    (told : History)
    (d : Diagnostic) :
    told.log.pushWarning d = (told.pushWarning d).log := by
  apply eq_log
  · rfl
  · rfl
  · rfl
  · rw [pushWarning, List.length_append]
    rfl

/- Errors that are pushed one by one are told in order. -/
theorem foldl_pushError_log
    (told : History)
    (ds : List Diagnostic) :
    ds.foldl Log.pushError told.log =
      (told.append ⟨ds, []⟩).log := by
  induction ds generalizing told with
  | nil => simp [append]
  | cons d ds ih =>
      rw [List.foldl_cons, pushError_log, ih]
      simp [append, pushError]

/-
  Joining logs joins histories. The joined log has seen only
  the stored errors of the second one, but those it dropped
  would have come behind the capacity here as well.
-/
theorem extend_log
    (first second : History) :
    first.log.extend second.log =
      (first.append second).log := by
  have hStored :
      second.log.errors = second.errors.take capacity :=
    rfl
  simp only [Log.extend, hStored, foldl_pushError_log,
    Log.foldl_pushWarning]
  apply eq_log
  · simp only [log, append, List.take_append, List.take_take,
      Nat.min_eq_left (Nat.sub_le _ _)]
  · simp only [log, append, List.append_nil]
  · simp only [log, append, Log.dropped, List.length_append,
      List.length_take]
    omega
  · simp only [log, append, List.append_nil,
      List.length_append]

end History

------------------------------------------------------------
-- Operations On Many Logs
------------------------------------------------------------

/-
  What is done to logs that have names. A log that is moved
  into another one is a log that no later step names.
-/
inductive LogStep (ι : Type) where
  | error (target : ι) (d : Diagnostic)
  | warning (target : ι) (d : Diagnostic)
  | extend (target other : ι)

namespace LogStep

variable {ι : Type} [DecidableEq ι]

/- Take a step with the logs. -/
def perform (logs : ι → Log) : LogStep ι → ι → Log
  | .error i d =>
      Function.update logs i ((logs i).pushError d)
  | .warning i d =>
      Function.update logs i ((logs i).pushWarning d)
  | .extend i j =>
      Function.update logs i ((logs i).extend (logs j))

/- Take a step with all that the logs were told. -/
def tell (told : ι → History) : LogStep ι → ι → History
  | .error i d =>
      Function.update told i ((told i).pushError d)
  | .warning i d =>
      Function.update told i ((told i).pushWarning d)
  | .extend i j =>
      Function.update told i ((told i).append (told j))

/- A changed history changes one log. -/
theorem log_update
    (told : ι → History)
    (i : ι)
    (new : History) :
    Function.update (History.log ∘ told) i new.log =
      History.log ∘ Function.update told i new :=
  (Function.comp_update History.log told i new).symm

/- One step keeps all logs those of their histories. -/
theorem perform_log
    (told : ι → History)
    (step : LogStep ι) :
    perform (History.log ∘ told) step =
      History.log ∘ tell told step := by
  cases step with
  | error i d =>
      simp only [perform, tell, Function.comp_apply,
        History.pushError_log, log_update]
  | warning i d =>
      simp only [perform, tell, Function.comp_apply,
        History.pushWarning_log, log_update]
  | extend i j =>
      simp only [perform, tell, Function.comp_apply,
        History.extend_log, log_update]

/- So does every run of steps. -/
theorem perform_logs
    (told : ι → History)
    (steps : List (LogStep ι)) :
    steps.foldl perform (History.log ∘ told) =
      History.log ∘ steps.foldl tell told :=
  List.foldl_hom (History.log ∘ ·) perform_log

end LogStep

------------------------------------------------------------
-- Logs That Start Empty
------------------------------------------------------------

namespace Log

/-
  Whatever is done to logs that start empty, each keeps the
  first twenty errors that it was told, counts them all and
  keeps every warning. Joining such logs is associative.
-/
theorem logs_keep_their_histories
    {ι : Type}
    [DecidableEq ι]
    (steps : List (LogStep ι)) :
    let logs := steps.foldl LogStep.perform fun _ => empty
    let told := steps.foldl LogStep.tell fun _ => {}
    (∀ i,
      (logs i).errors = (told i).errors.take 20 ∧
        (logs i).totalErrors = (told i).errors.length ∧
        (logs i).warnings = (told i).warnings ∧
        (logs i).totalWarnings = (told i).warnings.length ∧
        (logs i).errors.length =
          min 20 (logs i).totalErrors) ∧
      ∀ i j k,
        ((logs i).extend (logs j)).extend (logs k) =
          (logs i).extend ((logs j).extend (logs k)) := by
  intro logs told
  have hLogs : ∀ i, logs i = (told i).log := by
    intro i
    exact congrFun (LogStep.perform_logs (fun _ => {}) steps)
      i
  constructor
  · intro i
    rw [hLogs i]
    exact ⟨rfl, rfl, rfl, rfl, List.length_take⟩
  · intro i j k
    rw [hLogs i, hLogs j, hLogs k]
    simp only [History.extend_log, History.append_assoc]

end Log

end LightShow
