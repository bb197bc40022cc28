import LightShow.Expansion.Findings
import LightShow.Proofs.Scopes

/-
  An expansion reports the findings of its script.

  Once a list of findings was taken in, taking it in again
  changes nothing: each of them is reported, or the log is
  full. So all copies of a body but the first one leave the
  diagnostics as they are, and an expansion with work left
  ends with those of the findings of its script, in which
  each called body is listed once.

  Key definitions include:
    * `Tally.Grows`
    * `Tally.Settled`
    * `Expansion.Folds`
    * `Expander.InlinesFindings`

  Main statements:
    * `Tally.foldl_take_foldl_take`
    * `Expander.folds_inlineTimes`
    * `Expander.folds_body`
    * `Expander.tally_run`
-/

namespace LightShow

------------------------------------------------------------
-- Taking In Findings Twice
------------------------------------------------------------

theorem Log.totalErrors_le_push
    (log : Log)
    (d : Diagnostic) :
    log.totalErrors ≤ (log.push d).totalErrors := by
  unfold push
  split
  · exact Nat.le_succ _
  · exact Nat.le_refl _

namespace Tally

variable {t : Tally}
variable {ds : List Diagnostic}

/- What is reported stays reported. -/
structure Grows (t u : Tally) : Prop where
  errors : t.log.totalErrors ≤ u.log.totalErrors
  reported : ∀ key ∈ t.reported, key ∈ u.reported

theorem Grows.refl (t : Tally) : t.Grows t :=
  ⟨Nat.le_refl _, fun _ h => h⟩

theorem Grows.trans
    {u v : Tally}
    (hFirst : t.Grows u)
    (hSecond : u.Grows v) :
    t.Grows v :=
  ⟨Nat.le_trans hFirst.errors hSecond.errors,
    fun key h => hSecond.reported key (hFirst.reported key h)⟩

theorem grows_add
    (t : Tally)
    (d : Diagnostic) :
    t.Grows (t.add d) := by
  unfold add
  split
  · exact .refl t
  · exact ⟨t.log.totalErrors_le_push d,
      fun _ h => List.mem_cons_of_mem _ h⟩

theorem grows_foldl_add
    (t : Tally)
    (ds : List Diagnostic) :
    t.Grows (ds.foldl add t) := by
  induction ds generalizing t with
  | nil => exact .refl t
  | cons d ds ih => exact (grows_add t d).trans (ih _)

theorem grows_take
    (t : Tally)
    (ds : List Diagnostic) :
    t.Grows (t.take ds) := by
  unfold take
  split
  · exact .refl t
  · exact grows_foldl_add t ds

/- A list with nothing that could still be reported. -/
def Settled (t : Tally) (ds : List Diagnostic) : Prop :=
  t.log.isFull = true ∨ ∀ d ∈ ds, d.key ∈ t.reported

theorem Grows.settled
    {u : Tally}
    (h : t.Grows u)
    (hSettled : t.Settled ds) :
    u.Settled ds := by
  rcases hSettled with hFull | hReported
  · left
    simp only [Log.isFull, decide_eq_true_eq] at hFull ⊢
    exact Nat.le_trans hFull h.errors
  · exact .inr fun d hd => h.reported _ (hReported d hd)

theorem mem_reported_add
    (t : Tally)
    (d : Diagnostic) :
    d.key ∈ (t.add d).reported := by
  unfold add
  split
  · rename_i hOld
    simpa using hOld
  · exact List.mem_cons_self ..

theorem mem_reported_foldl_add
    (t : Tally)
    (ds : List Diagnostic) :
    ∀ d ∈ ds, d.key ∈ (ds.foldl add t).reported := by
  induction ds generalizing t with
  | nil => exact nofun
  | cons d ds ih =>
      refine List.forall_mem_cons.mpr ⟨?_, ih _⟩
      exact (grows_foldl_add (t.add d) ds).reported _
        (mem_reported_add t d)

theorem settled_take
    (t : Tally)
    (ds : List Diagnostic) :
    (t.take ds).Settled ds := by
  unfold take
  split
  · rename_i hFull
    exact .inl hFull
  · exact .inr (mem_reported_foldl_add t ds)

theorem foldl_add_of_mem
    (h : ∀ d ∈ ds, d.key ∈ t.reported) :
    ds.foldl add t = t := by
  induction ds with
  | nil => rfl
  | cons d ds ih =>
      rcases List.forall_mem_cons.mp h with ⟨hFirst, hRest⟩
      have hSame : t.add d = t := by
        simp [add, hFirst]
      rw [List.foldl_cons, hSame, ih hRest]

theorem Settled.take_eq
    (h : t.Settled ds) :
    t.take ds = t := by
  unfold take
  rcases h with hFull | hReported
  · exact if_pos hFull
  · rw [foldl_add_of_mem hReported, ite_self]

theorem take_of_isFull
    (h : t.log.isFull = true)
    (gs : List (List Diagnostic)) :
    gs.foldl take t = t := by
  induction gs with
  | nil => rfl
  | cons ds gs ih =>
      have hSettled : t.Settled ds := .inl h
      rw [List.foldl_cons, hSettled.take_eq, ih]

theorem grows_foldl_take
    (t : Tally)
    (gs : List (List Diagnostic)) :
    t.Grows (gs.foldl take t) := by
  induction gs generalizing t with
  | nil => exact .refl t
  | cons ds gs ih => exact (grows_take t ds).trans (ih _)

theorem settled_foldl_take
    (t : Tally)
    (gs : List (List Diagnostic)) :
    ∀ ds ∈ gs, (gs.foldl take t).Settled ds := by
  induction gs generalizing t with
  | nil => exact nofun
  | cons ds gs ih =>
      refine List.forall_mem_cons.mpr ⟨?_, ih _⟩
      exact (grows_foldl_take (t.take ds) gs).settled
        (settled_take t ds)

theorem foldl_take_of_settled
    {gs : List (List Diagnostic)}
    (h : ∀ ds ∈ gs, t.Settled ds) :
    gs.foldl take t = t := by
  induction gs with
  | nil => rfl
  | cons ds gs ih =>
      rcases List.forall_mem_cons.mp h with ⟨hFirst, hRest⟩
      rw [List.foldl_cons, hFirst.take_eq, ih hRest]

/- Findings are taken in once, however often they come. -/
theorem foldl_take_foldl_take
    (t : Tally)
    (gs : List (List Diagnostic)) :
    gs.foldl take (gs.foldl take t) = gs.foldl take t :=
  foldl_take_of_settled (settled_foldl_take t gs)

end Tally

------------------------------------------------------------
-- Operations That Take In Findings
------------------------------------------------------------

namespace Expansion

/-
  An operation that takes in some findings one by one, unless
  work runs out, and that brings no work back.
-/
structure Folds
    {β : Type}
    (f : Tally → β → Tally)
    (op : Expansion → Expansion)
    (bs : List β) : Prop where
  spent : ∀ s, s.exhausted = true → (op s).exhausted = true
  tally : ∀ s, (op s).exhausted = false →
    (op s).tally = bs.foldl f s.tally

variable {β : Type}
variable {f : Tally → β → Tally}
variable {op next : Expansion → Expansion}

/- Where work is left, there was work before. -/
theorem Folds.running
    {bs : List β}
    (h : Folds f op bs)
    {s : Expansion}
    (hRunning : (op s).exhausted = false) :
    s.exhausted = false := by
  cases hOut : s.exhausted with
  | false => rfl
  | true => rw [h.spent s hOut] at hRunning; cases hRunning

theorem Folds.comp
    {bs cs : List β}
    (hFirst : Folds f op bs)
    (hSecond : Folds f next cs) :
    Folds f (fun s => next (op s)) (bs ++ cs) where
  spent s h := hSecond.spent _ (hFirst.spent s h)
  tally s h := by
    rw [hSecond.tally _ h,
      hFirst.tally s (hSecond.running h), List.foldl_append]

/- Findings that come twice in a row are taken in once. -/
theorem Folds.of_twice
    {gs : List (List Diagnostic)}
    (h : Folds Tally.take op (gs ++ gs)) :
    Folds Tally.take op gs where
  spent := h.spent
  tally s hRunning := by
    rw [h.tally s hRunning, List.foldl_append,
      Tally.foldl_take_foldl_take]

/- Where no work is left, nothing needs to be done. -/
theorem Folds.unlessSpent
    {bs : List β}
    (h : Folds f op bs) :
    Folds f (fun s => if s.exhausted then s else op s) bs where
  spent s hOut := by
    rw [if_pos hOut]
    exact hOut
  tally s hRunning := by
    split at hRunning
    · rename_i hOut
      rw [hOut] at hRunning
      cases hRunning
    · rename_i hOut
      rw [if_neg hOut]
      exact h.tally s hRunning

theorem folds_charge
    (source : SourceText)
    (span : Span) :
    Folds f (charge source span) [] where
  spent s h := by rw [charge, if_pos h]; exact h
  tally s h := by
    unfold charge at h ⊢
    split at h
    · rename_i hOut
      rw [hOut] at h
      cases h
    · split at h
      · rename_i hOut hWork
        rw [if_neg hOut, if_pos hWork]
        rfl
      · unfold report at h
        split at h <;> cases h

theorem folds_emit
    (source : SourceText)
    (op : Op)
    (path : Option Nat)
    (zOrder : Nat)
    (span : Span) :
    Folds f (emit source op path zOrder span) [] where
  spent s h := by
    have hCharge :=
      (folds_charge (f := Tally.add) source span).spent s h
    rw [emit, if_pos hCharge]
    exact hCharge
  tally s h := by
    unfold emit at h ⊢
    simp only at h ⊢
    split at h
    · rename_i hOut
      rw [hOut] at h
      cases h
    · rename_i hOut
      have hRunning :
          (s.charge source span).exhausted = false :=
        Bool.eq_false_iff.mpr hOut
      rw [if_neg hOut]
      exact (folds_charge source span).tally s hRunning

theorem tally_report
    (e : Expander)
    (x : ExpandFault × Span)
    (s : Expansion) :
    (s.report e.source x.1 x.2).tally =
      s.tally.add (e.finding x) := by
  unfold report Tally.add
  split
  · rename_i hOld
    exact (if_pos hOld).symm
  · rename_i hNew
    exact (if_neg hNew).symm

theorem tally_warnLabel
    (e : Expander)
    (label : String)
    (span : Span)
    (s : Expansion) :
    (s.warnLabel e.source label span).tally =
      s.tally.add (e.labelFinding label span) := by
  unfold warnLabel Tally.add
  split
  · rename_i hOld
    exact (if_pos hOld).symm
  · rename_i hNew
    exact (if_neg hNew).symm

theorem exhausted_report
    (source : SourceText)
    (fault : ExpandFault)
    (span : Span)
    (s : Expansion) :
    (s.report source fault span).exhausted = s.exhausted := by
  unfold report
  split <;> rfl

theorem exhausted_warnLabel
    (source : SourceText)
    (label : String)
    (span : Span)
    (s : Expansion) :
    (s.warnLabel source label span).exhausted =
      s.exhausted := by
  unfold warnLabel
  split <;> rfl

/- What is done only while statements are expanded. -/
def unlessStopped
    (op : Expansion → Expansion)
    (s : Expansion) : Expansion :=
  if s.stopped then s else op s

/- If the log is full, nothing would be taken in anyway. -/
theorem folds_unlessStopped
    {gs : List (List Diagnostic)}
    (hSpent : ∀ s, s.exhausted = true →
      (op s).exhausted = true)
    (h : ∀ s, s.log.isFull = false →
      (op s).exhausted = false →
        (op s).tally = gs.foldl Tally.take s.tally) :
    Folds Tally.take (unlessStopped op) gs where
  spent s hOut := by
    unfold unlessStopped
    split
    · exact hOut
    · exact hSpent s hOut
  tally s hRunning := by
    unfold unlessStopped at hRunning ⊢
    split at hRunning
    · rename_i hStopped
      have hFull : s.log.isFull = true := by
        simpa [stopped, hRunning] using hStopped
      rw [if_pos hStopped, Tally.take_of_isFull hFull]
    · rename_i hStopped
      have hRoom : s.log.isFull = false := by
        simp only [stopped, Bool.or_eq_true, not_or,
          Bool.not_eq_true] at hStopped
        exact hStopped.2
      rw [if_neg hStopped]
      exact h s hRoom hRunning

/- Diagnostics that come without a break are one group. -/
theorem Folds.group
    {ds : List Diagnostic}
    (h : Folds Tally.add op ds) :
    Folds Tally.take (unlessStopped op) [ds] := by
  refine folds_unlessStopped h.spent ?_
  intro s hRoom hRunning
  have hRoom' : s.tally.log.isFull = false := hRoom
  simp [h.tally s hRunning, Tally.take, hRoom']

end Expansion

------------------------------------------------------------
-- Statements
------------------------------------------------------------

namespace Expander

open Expansion (Folds unlessStopped)

variable {e : Expander}

section Operations

variable {β : Type}
variable {f : Tally → β → Tally}

theorem folds_put
    (frame : Frame)
    (span : Span)
    (op : Op) :
    Folds f (e.put frame span op) [] :=
  Expansion.folds_emit e.source op (some frame.path)
    frame.zOrder span

theorem folds_ramp
    (frame : Frame)
    (span : Span)
    (leds : List Nat)
    (start stop : Color)
    (millis : Nat) :
    Folds f (e.ramp frame span leds start stop millis) [] :=
  ((folds_put frame span _).comp
    (folds_put frame span _)).comp (folds_put frame span _)

end Operations

theorem folds_report
    (x : ExpandFault × Span) :
    Folds Tally.add
      (fun s => s.report e.source x.1 x.2) [e.finding x] where
  spent s h := by
    rw [Expansion.exhausted_report]
    exact h
  tally s _ := Expansion.tally_report e x s

theorem folds_attempt
    {α : Type}
    {r : Except (ExpandFault × Span) α}
    {next : α → Expansion → Expansion}
    (h : ∀ a, Folds Tally.add (next a) []) :
    Folds Tally.add (e.attempt r next) (e.findingOf r) := by
  cases r with
  | ok a => exact h a
  | error x => exact folds_report x

theorem folds_note
    {α : Type}
    (r : Except (ExpandFault × Span) α) :
    Folds Tally.add (e.note r) (e.findingOf r) :=
  folds_attempt fun _ => ⟨fun _ h => h, fun _ _ => rfl⟩

theorem folds_warnLabel
    (label : String)
    (span : Span) :
    Folds Tally.add
      (fun s => s.warnLabel e.source label span)
      [e.labelFinding label span] where
  spent s h := by
    rw [Expansion.exhausted_warnLabel]
    exact h
  tally s _ := Expansion.tally_warnLabel e label span s

/- All copies but the first one add nothing. -/
theorem folds_inlineTimes
    {inline : Expansion → Expansion}
    {gs : List (List Diagnostic)}
    (h : Folds Tally.take inline gs)
    {count : Nat}
    (hCount : count ≠ 0) :
    Folds Tally.take (inlineTimes inline count) gs := by
  induction count with
  | zero => exact absurd rfl hCount
  | succ count ih =>
      by_cases hLast : count = 0
      · subst hLast
        exact h.unlessSpent
      · exact (h.comp (ih hLast)).of_twice.unlessSpent

theorem folds_spawn
    {inline : Inline}
    {g : Function}
    {gs : List (List Diagnostic)}
    {callers : List String}
    (h : ∀ frame, frame.callers = callers →
      Folds Tally.take (inline g frame) gs)
    (caller : Option Nat)
    (callerZ zOrder : Nat)
    (span : Span) :
    Folds Tally.take
      (e.spawn inline g caller callerZ zOrder callers span)
      gs := by
  have hPath (path : Nat) :
      Folds Tally.take
        (fun s =>
          e.put ⟨path, zOrder, callers⟩ span .finish
            (inline g ⟨path, zOrder, callers⟩
              (s.emit e.source (.activate path) caller callerZ
                span)))
        gs := by
    have hOpen := Expansion.folds_emit (f := Tally.take)
      e.source (.activate path) caller callerZ span
    have hInside := hOpen.comp (h ⟨path, zOrder, callers⟩ rfl)
    have hClosed := hInside.comp
      (folds_put (e := e) ⟨path, zOrder, callers⟩ span
        .finish)
    simpa using hClosed
  exact {
    spent := fun s hOut =>
      (hPath s.nextPath).spent
        { s with nextPath := s.nextPath + 1 } hOut
    tally := fun s hRunning =>
      (hPath s.nextPath).tally
        { s with nextPath := s.nextPath + 1 } hRunning }

/- What inlines nothing has one group of findings. -/
theorem folds_statement_of_plain
    (inline : Inline)
    (frame : Frame)
    (scope : Nat)
    (labels : List String)
    {st : Statement}
    (hPlain : st.action.callee? = none) :
    Folds Tally.add
      (e.statement inline frame scope labels st)
      (e.findingsAt frame.callers labels st) := by
  rcases st with ⟨action, span⟩
  cases action with
  | glow list color =>
      exact folds_attempt fun leds =>
        folds_put frame span (.glow leds color)
  | ramp list start stop duration =>
      simp only [findingsAt]
      unfold statement
      simp only
      split
      · rename_i leds ms hLeds hMillis
        rw [hLeds, hMillis]
        exact folds_ramp frame span _ _ _ _
      · exact (folds_note _).comp (folds_note _)
  | pause duration =>
      exact folds_attempt fun ms =>
        folds_put frame span (.pause ms)
  | here label =>
      have hPut := folds_put (e := e) (f := Tally.add) frame
        span (.here label.text scope)
      simp only [findingsAt]
      unfold statement
      simp only
      split
      · exact (folds_warnLabel label.text span).comp hPut
      · exact hPut
  | goto label => exact folds_put frame span _
  | call name count => cases hPlain
  | callAsync name zOrder => cases hPlain

/- A call has the findings of its function, or a fault. -/
theorem folds_call
    {name : Name}
    {frame : Frame}
    {next : Function → Expansion → Expansion}
    {inner : Function → List (List Diagnostic)}
    (h : ∀ g, e.callee frame name = .ok g →
      Folds Tally.take (next g) (inner g)) :
    Folds Tally.take
      (unlessStopped (e.attempt (e.callee frame name) next))
      (e.findingOf (e.callee frame name) ::
        match e.callee frame name with
        | .error _ => []
        | .ok g => inner g) := by
  cases hCallee : e.callee frame name with
  | error x => exact (folds_report x).group
  | ok g =>
      have hInside := h g hCallee
      refine Expansion.folds_unlessStopped hInside.spent ?_
      intro s _ hRunning
      have hNothing : Tally.take s.tally [] = s.tally :=
        ite_self _
      rw [findingOf, List.foldl_cons, hNothing]
      exact hInside.tally s hRunning

/- Statements are expanded while the state allows it. -/
theorem statements_cons
    (inline : Inline)
    (frame : Frame)
    (scope : Nat)
    (labels : List String)
    (st : Statement)
    (sts : List Statement)
    (s : Expansion) :
    statements e inline frame scope labels (st :: sts) s =
      statements e inline frame scope (labelsAfter labels st)
        sts
        (unlessStopped
          (e.statement inline frame scope labels st) s) := by
  unfold unlessStopped
  by_cases hStopped : s.stopped = true
  · rw [statements, if_pos hStopped, if_pos hStopped]
    cases sts with
    | nil => rfl
    | cons _ _ => rw [statements, if_pos hStopped]
  · rw [statements, if_neg hStopped, if_neg hStopped]

/-
  Functions whose bodies are inlined with their findings, on
  whatever path it is, when some functions call them.
-/
def InlinesFindings
    (e : Expander)
    (inline : Inline)
    (callers : List String)
    (inner : Function → List (List Diagnostic)) : Prop :=
  ∀ g ∈ e.script.functions, ∀ frame,
    frame.callers = callers →
      Folds Tally.take (inline g frame) (inner g)

/- A statement has its findings, those inside it behind. -/
theorem folds_statement
    {inline : Inline}
    {frame : Frame}
    {inner : Function → List (List Diagnostic)}
    (hInline : e.InlinesFindings inline frame.callers inner)
    (scope : Nat)
    (labels : List String)
    {st : Statement}
    (hCalls : ∀ name count,
      st.action = .call name count → count ≠ 0) :
    Folds Tally.take
      (unlessStopped
        (e.statement inline frame scope labels st))
      (e.findingsAt frame.callers labels st ::
        e.findingsInside inner frame.callers st) := by
  rcases st with ⟨action, span⟩
  cases action with
  | call name count =>
      refine folds_call fun g hCallee => ?_
      exact folds_inlineTimes
        (hInline g (callee_eq_ok hCallee).2.1 frame rfl)
        (hCalls name count rfl)
  | callAsync name zOrder =>
      refine folds_call fun g hCallee => ?_
      exact folds_spawn
        (hInline g (callee_eq_ok hCallee).2.1) _ _ _ _
  | _ =>
      exact (folds_statement_of_plain inline frame scope labels
        rfl).group

theorem folds_statements
    {inline : Inline}
    {frame : Frame}
    {inner : Function → List (List Diagnostic)}
    (hInline : e.InlinesFindings inline frame.callers inner)
    (scope : Nat)
    (labels : List String)
    {sts : List Statement}
    (hCalls : ∀ st ∈ sts, ∀ name count,
      st.action = .call name count → count ≠ 0) :
    Folds Tally.take
      (statements e inline frame scope labels sts)
      (e.findingsOfAll inner frame.callers labels sts) := by
  induction sts generalizing labels with
  | nil => exact ⟨fun _ h => h, fun _ _ => rfl⟩
  | cons st sts ih =>
      rcases List.forall_mem_cons.mp hCalls
        with ⟨hFirst, hRest⟩
      have hBoth :=
        (folds_statement hInline scope labels hFirst).comp
          (ih (labelsAfter labels st) hRest)
      rw [funext (statements_cons inline frame scope labels st
        sts)]
      exact hBoth

------------------------------------------------------------
-- Bodies And Scripts
------------------------------------------------------------

/-
  Inlining a body once, twice or more often takes in the
  findings of the body, by induction on how deep bodies nest.
-/
theorem folds_body
    (hCalls : e.script.CallsInline)
    (depth : Nat)
    (callers : List String) :
    e.InlinesFindings (body e depth) callers
      (e.findingsOf depth callers) := by
  induction depth generalizing callers with
  | zero =>
      intro g _ frame _
      exact ⟨fun _ h => h, fun _ _ => rfl⟩
  | succ depth ih =>
      intro g hg frame hFrame
      subst hFrame
      let inner : Frame :=
        { frame with callers := g.name.text :: frame.callers }
      have hInside (scope : Nat) :
          Folds Tally.take
            (statements e (body e depth) inner scope [] g.body)
            (e.findingsOf (depth + 1) frame.callers g) :=
        folds_statements (ih inner.callers) scope []
          (hCalls g hg)
      have hOpen :
          Folds Tally.take
            (fun s =>
              statements e (body e depth) inner s.nextScope []
                g.body { s with nextScope := s.nextScope + 1 })
            (e.findingsOf (depth + 1) frame.callers g) := {
        spent := fun s hOut =>
          (hInside s.nextScope).spent
            { s with nextScope := s.nextScope + 1 } hOut
        tally := fun s hRunning =>
          (hInside s.nextScope).tally
            { s with nextScope := s.nextScope + 1 } hRunning }
      exact (Expansion.folds_charge e.source g.span).comp
        hOpen.unlessSpent

/- With work left, only the findings of a script matter. -/
theorem tally_run
    (hCalls : e.script.CallsInline)
    (hRunning : e.run.exhausted = false) :
    e.run.tally = e.findings.foldl Tally.take {} := by
  unfold run at hRunning ⊢
  unfold findings
  cases hStart : e.script.find? Script.entryName with
  | none =>
      exact Expansion.tally_report e
        (.missingEntry, .origin) {}
  | some start =>
      simp only [hStart] at hRunning ⊢
      have hBody := folds_body hCalls e.maxDepth [] start
        (List.mem_of_find?_eq_some hStart)
      exact (folds_spawn hBody none 0 0 start.span).tally {}
        hRunning

end Expander

end LightShow
