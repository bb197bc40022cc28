import LightShow.Expansion.Basic

/-
  Two expansions, step by step.

  A script is expanded for one device twice, with the texts
  of two sources for the diagnostics. Both expansions do the
  same to states that decide alike how to go on. So what a
  relation between states survives, one operation on both
  states at a time, it survives for the whole expansion.

  Key definitions include:
    * `Expansion.Paired`
    * `Expander.withSource`
    * `Expander.Follows`

  Main statements:
    * `Expander.follows_statement`
    * `Expander.follows_body`
    * `Expander.paired_run`
    * `Expander.reports_run`
-/

namespace LightShow

------------------------------------------------------------
-- Paired States
------------------------------------------------------------

/-
  A relation between the states of two expansions that holds
  only of states that go on alike, and that is kept by all
  that happens to both of them.
-/
structure Expansion.Paired
    (source other : SourceText)
    (R : Expansion → Expansion → Prop) : Prop where
  exhausted : ∀ {s t}, R s t → t.exhausted = s.exhausted
  stopped : ∀ {s t}, R s t → t.stopped = s.stopped
  nextPath : ∀ {s t}, R s t → t.nextPath = s.nextPath
  nextScope : ∀ {s t}, R s t → t.nextScope = s.nextScope
  openPath : ∀ {s t}, R s t →
    R { s with nextPath := s.nextPath + 1 }
      { t with nextPath := t.nextPath + 1 }
  openScope : ∀ {s t}, R s t →
    R { s with nextScope := s.nextScope + 1 }
      { t with nextScope := t.nextScope + 1 }
  push : ∀ {s t}, R s t → ∀ i,
    R { s with emitted := s.emitted.push i }
      { t with emitted := t.emitted.push i }
  charge : ∀ {s t}, R s t → ∀ span,
    R (s.charge source span) (t.charge other span)
  report : ∀ {s t}, R s t → ∀ fault span,
    R (s.report source fault span) (t.report other fault span)
  warnLabel : ∀ {s t}, R s t → ∀ label span,
    R (s.warnLabel source label span)
      (t.warnLabel other label span)

/- Emitting is charging, and pushing if there is work. -/
theorem Expansion.Paired.emit
    {source other : SourceText}
    {R : Expansion → Expansion → Prop}
    (h : Paired source other R)
    {s t : Expansion}
    (hR : R s t)
    (op : Op)
    (path : Option Nat)
    (zOrder : Nat)
    (span : Span) :
    R (s.emit source op path zOrder span)
      (t.emit other op path zOrder span) := by
  have hCharge := h.charge hR span
  have hSame := h.exhausted hCharge
  unfold Expansion.emit
  by_cases hOut : (s.charge source span).exhausted = true
  · rw [if_pos hOut, if_pos (hSame.trans hOut)]
    exact hCharge
  · rw [if_neg hOut, if_neg (hSame ▸ hOut)]
    exact h.push hCharge _

namespace Expander

/- The same expansion with another text for diagnostics. -/
def withSource (e : Expander) (other : SourceText) : Expander :=
  { e with source := other }

/- Two operations lead from related states to such. -/
def Follows
    (R : Expansion → Expansion → Prop)
    (f g : Expansion → Expansion) : Prop :=
  ∀ ⦃s t⦄, R s t → R (f s) (g t)

open Expansion (Paired)

variable {e : Expander}
variable {other : SourceText}
variable {R : Expansion → Expansion → Prop}

------------------------------------------------------------
-- Statements
------------------------------------------------------------

theorem follows_put
    (h : Paired e.source other R)
    (frame : Frame)
    (span : Span)
    (op : Op) :
    Follows R (e.put frame span op)
      ((e.withSource other).put frame span op) := by
  intro s t hR
  exact h.emit hR op (some frame.path) frame.zOrder span

theorem follows_attempt
    {α : Type}
    (h : Paired e.source other R)
    (r : Except (ExpandFault × Span) α)
    {next next' : α → Expansion → Expansion}
    (hNext : ∀ a, Follows R (next a) (next' a)) :
    Follows R (e.attempt r next)
      ((e.withSource other).attempt r next') := by
  intro s t hR
  cases r with
  | ok a => exact hNext a hR
  | error x => exact h.report hR x.1 x.2

theorem follows_note
    {α : Type}
    (h : Paired e.source other R)
    (r : Except (ExpandFault × Span) α) :
    Follows R (e.note r) ((e.withSource other).note r) :=
  follows_attempt h r fun _ _ _ hR => hR

theorem follows_ramp
    (h : Paired e.source other R)
    (frame : Frame)
    (span : Span)
    (leds : List Nat)
    (start stop : Color)
    (millis : Nat) :
    Follows R (e.ramp frame span leds start stop millis)
      ((e.withSource other).ramp frame span leds start stop
        millis) := by
  intro s t hR
  have hStart := follows_put h frame span (.glow leds start) hR
  have hRamp := follows_put h frame span
    (.ramp leds start stop millis) hStart
  exact follows_put h frame span (.glow leds stop) hRamp

theorem follows_inlineTimes
    (h : Paired e.source other R)
    {inline inline' : Expansion → Expansion}
    (hInline : Follows R inline inline')
    (count : Nat) :
    Follows R (inlineTimes inline count)
      (inlineTimes inline' count) := by
  intro s t hR
  induction count generalizing s t with
  | zero => exact hR
  | succ count ih =>
      simp only [inlineTimes, h.exhausted hR]
      split
      · exact hR
      · exact ih (hInline hR)

theorem follows_spawn
    (h : Paired e.source other R)
    {inline inline' : Inline}
    (hInline : ∀ f frame,
      Follows R (inline f frame) (inline' f frame))
    (f : Function)
    (caller : Option Nat)
    (callerZ zOrder : Nat)
    (callers : List String)
    (span : Span) :
    Follows R
      (e.spawn inline f caller callerZ zOrder callers span)
      ((e.withSource other).spawn inline' f caller callerZ
        zOrder callers span) := by
  intro s t hR
  have hEmit := h.emit (h.openPath hR) (.activate s.nextPath)
    caller callerZ span
  simp only [h.nextPath hR] at hEmit
  simp only [spawn, h.nextPath hR]
  exact follows_put h _ _ _ (hInline f _ hEmit)

/- Checks depend on the script and the device only. -/
theorem follows_statement
    (h : Paired e.source other R)
    {inline inline' : Inline}
    (hInline : ∀ f frame,
      Follows R (inline f frame) (inline' f frame))
    (frame : Frame)
    (scope : Nat)
    (labels : List String)
    (st : Statement) :
    Follows R (e.statement inline frame scope labels st)
      ((e.withSource other).statement inline' frame scope
        labels st) := by
  intro s t hR
  rcases st with ⟨action, span⟩
  cases action with
  | glow list color =>
      exact follows_attempt h (e.leds list)
        (fun leds =>
          follows_put h frame span (.glow leds color))
        hR
  | ramp list start stop duration =>
      have hLeds :
          (e.withSource other).leds list = e.leds list := rfl
      have hMillis :
          (e.withSource other).millis duration =
            e.millis duration := rfl
      simp only [statement, hLeds, hMillis]
      split
      · exact follows_ramp h frame span _ _ _ _ hR
      · exact follows_note h _ (follows_note h _ hR)
  | pause duration =>
      exact follows_attempt h (e.wholeTicks duration)
        (fun ms => follows_put h frame span (.pause ms)) hR
  | here label =>
      simp only [statement]
      apply follows_put h frame span
      split
      · exact h.warnLabel hR _ _
      · exact hR
  | goto label => exact follows_put h frame span _ hR
  | call name count =>
      exact follows_attempt h _
        (fun f => follows_inlineTimes h (hInline f frame) _) hR
  | callAsync name zOrder =>
      exact follows_attempt h _
        (fun f => follows_spawn h hInline f _ _ _ _ _) hR

theorem follows_statements
    (h : Paired e.source other R)
    {inline inline' : Inline}
    (hInline : ∀ f frame,
      Follows R (inline f frame) (inline' f frame))
    (frame : Frame)
    (scope : Nat)
    (labels : List String)
    (sts : List Statement) :
    Follows R (statements e inline frame scope labels sts)
      (statements (e.withSource other) inline' frame scope
        labels sts) := by
  intro s t hR
  induction sts generalizing labels s t with
  | nil => exact hR
  | cons st sts ih =>
      simp only [statements, h.stopped hR]
      split
      · exact hR
      · exact ih _
          (follows_statement h hInline frame scope labels st
            hR)

------------------------------------------------------------
-- Bodies And Scripts
------------------------------------------------------------

theorem follows_body
    (h : Paired e.source other R)
    (depth : Nat)
    (f : Function)
    (frame : Frame) :
    Follows R (body e depth f frame)
      (body (e.withSource other) depth f frame) := by
  intro s t hR
  induction depth generalizing f frame s t with
  | zero => exact hR
  | succ depth ih =>
      have hCharge := h.charge hR f.span
      have hSame := h.exhausted hCharge
      unfold body
      by_cases hOut :
          (s.charge e.source f.span).exhausted = true
      · have hOut' : (t.charge (e.withSource other).source
            f.span).exhausted = true := hSame.trans hOut
        simp only [if_pos hOut, if_pos hOut']
        exact hCharge
      · have hOut' : ¬(t.charge (e.withSource other).source
            f.span).exhausted = true := fun h =>
          hOut (hSame.symm.trans h)
        simp only [if_neg hOut, if_neg hOut']
        have hScope :
            (t.charge (e.withSource other).source
                f.span).nextScope =
              (s.charge e.source f.span).nextScope :=
          h.nextScope hCharge
        have hOpen := h.openScope hCharge
        rw [hScope]
        rw [h.nextScope hCharge] at hOpen
        exact follows_statements h (fun g frame => ih g frame)
          _ _ _ _ hOpen

/- What holds at the start and is kept holds at the end. -/
theorem paired_run
    (h : Paired e.source other R)
    (hStart : R {} {}) :
    R e.run (e.withSource other).run := by
  unfold run
  have hScript :
      (e.withSource other).script = e.script := rfl
  rw [hScript]
  split
  · exact h.report hStart _ _
  · exact follows_spawn h
      (fun f frame => follows_body h _ f frame) _ _ _ _ _ _
      hStart

------------------------------------------------------------
-- One Expansion
------------------------------------------------------------

/-
  What is said of the log and of the reports of a state, and
  is kept by each report, holds of both in the end.
-/
theorem reports_run
    {Q : Log → List (Code × Span) → Prop}
    (hReport : ∀ (s : Expansion) fault span,
      Q s.log s.reported →
        Q (s.report e.source fault span).log
          (s.report e.source fault span).reported)
    (hWarn : ∀ (s : Expansion) label span,
      Q s.log s.reported →
        Q (s.warnLabel e.source label span).log
          (s.warnLabel e.source label span).reported)
    (hStart : Q .empty []) :
    Q e.run.log e.run.reported := by
  have hCharge (s : Expansion) (span : Span)
      (h : Q s.log s.reported) :
      Q (s.charge e.source span).log
        (s.charge e.source span).reported := by
    unfold Expansion.charge
    split
    · exact h
    · split
      · exact h
      · exact hReport { s with exhausted := true } _ span h
  -- both expansions are the same one here
  have hPaired :
      Paired e.source e.source
        fun s t => t = s ∧ Q s.log s.reported := {
    exhausted := fun h => congrArg Expansion.exhausted h.1
    stopped := fun h => congrArg Expansion.stopped h.1
    nextPath := fun h => congrArg Expansion.nextPath h.1
    nextScope := fun h => congrArg Expansion.nextScope h.1
    openPath := fun h => ⟨by rw [h.1], h.2⟩
    openScope := fun h => ⟨by rw [h.1], h.2⟩
    push := fun h _ => ⟨by rw [h.1], h.2⟩
    charge := fun h span =>
      ⟨by rw [h.1], hCharge _ span h.2⟩
    report := fun h fault span =>
      ⟨by rw [h.1], hReport _ fault span h.2⟩
    warnLabel := fun h label span =>
      ⟨by rw [h.1], hWarn _ label span h.2⟩ }
  exact (paired_run (e := e) hPaired ⟨rfl, hStart⟩).2

end Expander

end LightShow
