import LightShow.Proofs.LogHistories

/-
  How logs count errors.

  A log that was filled error by error stores as many errors
  as it counts, up to its capacity, so joining it to another
  one loses no error.

  Key definitions include:
    * `Log.Exact`

  Main statements:
    * `Log.Exact.pushError`
    * `Log.totalErrors_extend`
    * `Log.Exact.extend`
    * `Log.Exact.errors_eq_nil_iff`
-/

namespace LightShow

namespace Log

/- A log that stores all errors it counts, up to the cap. -/
def Exact (log : Log) : Prop :=
  log.errors.length = min log.totalErrors capacity

theorem exact_empty : empty.Exact := rfl

theorem Exact.pushError
    {log : Log}
    (h : log.Exact)
    (d : Diagnostic) :
    (log.pushError d).Exact := by
  unfold Exact at h ⊢
  simp only [Log.pushError]
  split
  · rw [List.length_append, List.length_singleton]
    omega
  · omega

section Folds

variable {α : Type} (f : α → Diagnostic)

theorem Exact.foldl
    {log : Log}
    (h : log.Exact)
    (xs : List α) :
    (xs.foldl (fun log x => log.pushError (f x)) log).Exact
    := by
  induction xs generalizing log with
  | nil => exact h
  | cons x xs ih => exact ih (h.pushError (f x))

theorem totalErrors_foldl
    (log : Log)
    (xs : List α) :
    (xs.foldl (fun log x => log.pushError (f x))
        log).totalErrors =
      log.totalErrors + xs.length := by
  induction xs generalizing log with
  | nil => rfl
  | cons x xs ih =>
      rw [List.foldl_cons, ih, List.length_cons]
      simp only [pushError]
      omega

end Folds

/- While there is room, all errors are stored. -/
theorem foldl_pushError_empty
    {ds : List Diagnostic}
    (h : ds.length ≤ capacity) :
    ds.foldl pushError empty = ⟨ds, [], ds.length, 0⟩ := by
  have hAll := History.foldl_pushError_log {} ds
  simp only [History.append, History.log, List.nil_append,
    List.take_of_length_le h] at hAll
  exact hAll

theorem totalErrors_foldl_pushWarning
    (log : Log)
    (ds : List Diagnostic) :
    (ds.foldl pushWarning log).totalErrors =
      log.totalErrors := by
  rw [foldl_pushWarning]

/- Warnings change neither errors nor their number. -/
theorem Exact.foldl_pushWarning
    {log : Log}
    (h : log.Exact)
    (ds : List Diagnostic) :
    (ds.foldl pushWarning log).Exact := by
  rw [Log.foldl_pushWarning]
  exact h

/- Joining logs adds up their errors. -/
theorem totalErrors_extend
    (log : Log)
    {other : Log}
    (h : other.Exact) :
    (log.extend other).totalErrors =
      log.totalErrors + other.totalErrors := by
  have hJoined := totalErrors_foldl id log other.errors
  simp only [id] at hJoined
  unfold Exact at h
  simp only [extend, totalErrors_foldl_pushWarning, dropped,
    hJoined]
  omega

/- Joined, exact logs are an exact log. -/
theorem Exact.extend
    {log other : Log}
    (h : log.Exact)
    (hOther : other.Exact) :
    (log.extend other).Exact := by
  have hJoined :
      (other.errors.foldl Log.pushError log).Exact :=
    h.foldl id other.errors
  have hTotal :
      (other.errors.foldl Log.pushError log).totalErrors =
        log.totalErrors + other.errors.length :=
    totalErrors_foldl id log other.errors
  refine Exact.foldl_pushWarning ?_ other.warnings
  unfold Exact at hJoined hOther ⊢
  simp only [dropped]
  omega

/- A log that counts an error stores one. -/
theorem Exact.errors_eq_nil_iff
    {log : Log}
    (h : log.Exact) :
    log.errors = [] ↔ log.hasErrors = false := by
  have hCapacity : 0 < capacity := Nat.zero_lt_succ _
  unfold Exact at h
  rw [← List.length_eq_zero_iff, hasErrors,
    decide_eq_false_iff_not]
  omega

end Log

end LightShow
