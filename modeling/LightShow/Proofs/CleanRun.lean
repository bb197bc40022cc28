import LightShow.Expansion.Basic
import LightShow.Expansion.Meaning

/-
  Expansions without errors.

  Errors never go away, so an expansion that ends without
  any has none in between either. While there are none, each
  operation appends its instructions, uses up its numbers
  and pays for both.

  Key definitions include:
    * `Expansion.Clean`
    * `Expansion.Yields`
    * `Expansion.Keeps`

  Main statements:
    * `Expansion.Yields.trans`
    * `Expansion.yields_emit`
-/

namespace LightShow

------------------------------------------------------------
-- Numbers
------------------------------------------------------------

namespace Numbers

@[simp] theorem add_zero
    (a : Numbers) :
    a.add .zero = a := rfl

@[simp] theorem zero_add
    (a : Numbers) :
    Numbers.zero.add a = a := by
  simp [add, zero]

theorem add_assoc
    (a b c : Numbers) :
    (a.add b).add c = a.add (b.add c) := by
  simp [add, Nat.add_assoc]

theorem add_comm
    (a b : Numbers) :
    a.add b = b.add a := by
  simp [add, Nat.add_comm]

@[simp] theorem times_zero
    (a : Numbers) :
    a.times 0 = .zero := by
  simp [times, zero]

/- One more part comes before the others. -/
theorem times_succ
    (n : Nat)
    (a : Numbers) :
    a.times (n + 1) = a.add (a.times n) := by
  simp [times, add, Nat.succ_mul, Nat.add_comm]

end Numbers

namespace Expansion

------------------------------------------------------------
-- Errors Stay
------------------------------------------------------------

/- The number of errors so far. -/
def errors (s : Expansion) : Nat :=
  s.log.totalErrors

/- An operation that takes no error back. -/
def Keeps (op : Expansion → Expansion) : Prop :=
  ∀ s, s.errors ≤ (op s).errors

theorem Keeps.errors_eq_zero
    {op : Expansion → Expansion}
    (h : Keeps op)
    {s : Expansion}
    (hErrors : (op s).errors = 0) :
    s.errors = 0 :=
  Nat.eq_zero_of_le_zero (hErrors ▸ h s)

theorem keeps_report
    (source : SourceText)
    (fault : ExpandFault)
    (span : Span) :
    Keeps (report source fault span) := by
  intro s
  unfold report
  split
  · exact Nat.le_refl _
  · exact Nat.le_succ _

theorem keeps_warnLabel
    (source : SourceText)
    (label : String)
    (span : Span) :
    Keeps (warnLabel source label span) := by
  intro s
  unfold warnLabel
  split <;> exact Nat.le_refl _

theorem keeps_charge
    (source : SourceText)
    (span : Span) :
    Keeps (charge source span) := by
  intro s
  unfold charge
  split
  · exact Nat.le_refl _
  · split
    · exact Nat.le_refl _
    · exact keeps_report source .tooLarge span
        { s with exhausted := true }

theorem keeps_emit
    (source : SourceText)
    (op : Op)
    (path : Option Nat)
    (zOrder : Nat)
    (span : Span) :
    Keeps (emit source op path zOrder span) := by
  intro s
  have hCharge := keeps_charge source span s
  unfold emit
  simp only
  split <;> exact hCharge

------------------------------------------------------------
-- Clean States
------------------------------------------------------------

/- Nothing has gone wrong so far, and there is work left. -/
structure Clean (s : Expansion) : Prop where
  noErrors : s.errors = 0
  running : s.exhausted = false
  work_le : s.work ≤ ExpandFault.maxWork
  /- Only doubled labels have been reported. -/
  warned : ∀ x ∈ s.reported, x.1 = Code.duplicateLabel

theorem clean_initial : Clean {} where
  noErrors := rfl
  running := rfl
  work_le := Nat.zero_le _
  warned := by
    intro x hx
    cases hx

theorem Clean.stopped_eq_false
    {s : Expansion}
    (h : s.Clean) :
    s.stopped = false := by
  have hErrors : s.log.totalErrors = 0 := h.noErrors
  simp [stopped, h.running, Log.isFull, hErrors,
    Log.capacity]

/- A fault is an error if only labels were reported. -/
theorem errors_report_ne_zero
    {s : Expansion}
    (hWarned :
      ∀ x ∈ s.reported, x.1 = Code.duplicateLabel)
    (source : SourceText)
    (fault : ExpandFault)
    (span : Span) :
    (s.report source fault span).errors ≠ 0 := by
  have hCode : fault.code ≠ .duplicateLabel := by
    cases fault <;> exact nofun
  have hNew :
      s.reported.contains (fault.code, span) = false := by
    rw [List.contains_eq_mem, decide_eq_false_iff_not]
    intro hMem
    exact hCode (hWarned _ hMem)
  unfold report
  rw [hNew]
  exact Nat.succ_ne_zero _

------------------------------------------------------------
-- What Operations Yield
------------------------------------------------------------

/- The numbers that come next. -/
def next (s : Expansion) : Numbers :=
  ⟨s.nextPath, s.nextScope⟩

/-
  Between two states some instructions were emitted and some
  numbers used, and instructions and scopes were paid for.
-/
structure Yields
    (is : List Instruction)
    (used : Numbers)
    (s t : Expansion) : Prop where
  clean : t.Clean
  emitted : t.emitted.toList = s.emitted.toList ++ is
  next : t.next = s.next.add used
  work : t.work = s.work + is.length + used.scopes

theorem Clean.yields_nothing
    {s : Expansion}
    (h : s.Clean) :
    Yields [] .zero s s where
  clean := h
  emitted := (List.append_nil _).symm
  next := rfl
  work := rfl

theorem Yields.trans
    {is js : List Instruction}
    {a b : Numbers}
    {s t u : Expansion}
    (hFirst : Yields is a s t)
    (hSecond : Yields js b t u) :
    Yields (is ++ js) (a.add b) s u where
  clean := hSecond.clean
  emitted := by
    rw [hSecond.emitted, hFirst.emitted, List.append_assoc]
  next := by
    rw [hSecond.next, hFirst.next, Numbers.add_assoc]
  work := by
    have hScopes :
        (a.add b).scopes = a.scopes + b.scopes := rfl
    rw [hSecond.work, hFirst.work, List.length_append,
      hScopes]
    omega

/- A unit of work is all that a clean charge takes. -/
theorem Clean.charge_eq
    {s : Expansion}
    (h : s.Clean)
    {source : SourceText}
    {span : Span}
    (hErrors : (s.charge source span).errors = 0) :
    s.charge source span = { s with work := s.work + 1 } ∧
      s.work < ExpandFault.maxWork := by
  have hRunning : ¬s.exhausted = true := by
    simp [h.running]
  by_cases hWork : s.work < ExpandFault.maxWork
  · rw [charge, if_neg hRunning, if_pos hWork]
    exact ⟨rfl, hWork⟩
  · rw [charge, if_neg hRunning, if_neg hWork] at hErrors
    -- Running out of work is a fault like any other.
    have hFault := errors_report_ne_zero
      (s := { s with exhausted := true }) h.warned source
      .tooLarge span
    exact absurd hErrors hFault

theorem yields_emit
    {s : Expansion}
    (h : s.Clean)
    {source : SourceText}
    {op : Op}
    {path : Option Nat}
    {zOrder : Nat}
    {span : Span}
    (hErrors :
      (s.emit source op path zOrder span).errors = 0) :
    Yields [⟨op, path, some zOrder, some span⟩] .zero s
      (s.emit source op path zOrder span) := by
  have hPaid : (s.charge source span).errors = 0 := by
    unfold emit at hErrors
    simp only at hErrors
    split at hErrors <;> exact hErrors
  rcases h.charge_eq hPaid with ⟨hCharge, hWork⟩
  have hEmit :
      s.emit source op path zOrder span =
        { s with
          work := s.work + 1
          emitted := s.emitted.push
            ⟨op, path, some zOrder, some span⟩ } := by
    unfold emit
    rw [hCharge]
    simp [h.running]
  rw [hEmit]
  exact {
    clean := ⟨h.noErrors, h.running, hWork, h.warned⟩
    emitted := by simp
    next := rfl
    work := rfl }

theorem yields_warnLabel
    {s : Expansion}
    (h : s.Clean)
    (source : SourceText)
    (label : String)
    (span : Span) :
    Yields [] .zero s (s.warnLabel source label span) := by
  unfold warnLabel
  split
  · exact h.yields_nothing
  · refine ⟨⟨h.noErrors, h.running, h.work_le, ?_⟩,
      (List.append_nil _).symm, rfl, rfl⟩
    intro x hx
    rcases List.mem_cons.mp hx with rfl | hx
    · rfl
    · exact h.warned x hx

end Expansion

end LightShow
