import LightShow.Expansion.Copies
import LightShow.Proofs.CleanRun
import LightShow.Proofs.Success

/-
  Expansions without errors follow their meaning.

  The state of an expansion changes statement by statement;
  its meaning has no state. Both are compared depth by depth:
  from a clean state to a state without errors, a body emits
  what it means and uses up the numbers that it is said to
  use.

  Key definitions include:
    * `Meaning.Fits`
    * `Frame.Sound`
    * `Expander.Inlines`

  Main statements:
    * `Expander.inlines_body`
    * `Expander.run_yields`
-/

namespace LightShow

------------------------------------------------------------
-- Chains Of Calls
------------------------------------------------------------

/- No chain of calls from a function exceeds a depth. -/
def Meaning.Fits (script : Script) : Nat → Function → Prop
  | 0, _ => False
  | depth + 1, f =>
      ∀ st ∈ f.body, ∀ g ∈ callees script st.action,
        Fits script depth g

/-
  The callers of a frame are different functions of the
  script, few enough to nest `depth` more.
-/
structure Frame.Sound
    (script : Script)
    (depth : Nat)
    (frame : Frame) : Prop where
  nodup : frame.callers.Nodup
  known : ∀ name ∈ frame.callers,
    name ∈ script.functions.map fun f => f.name.text
  room :
    script.functions.length < depth + frame.callers.length

namespace Frame.Sound

variable {script : Script}
variable {depth : Nat}
variable {frame : Frame}

/- There are no more callers than functions. -/
theorem length_le
    (h : frame.Sound script depth) :
    frame.callers.length ≤ script.functions.length := by
  have hLe := List.Nodup.length_le_of_subset h.nodup h.known
  rwa [List.length_map] at hLe

/- Some level of depth is always left. -/
theorem depth_pos
    (h : frame.Sound script depth) :
    0 < depth := by
  have hLe := h.length_le
  have hRoom := h.room
  omega

/- A new caller takes one level of depth. -/
theorem push
    (h : frame.Sound script (depth + 1))
    {f : Function}
    (hFunction : f ∈ script.functions)
    (hNew : f.name.text ∉ frame.callers) :
    Sound script depth
      { frame with
        callers := f.name.text :: frame.callers } where
  nodup := List.nodup_cons.mpr ⟨hNew, h.nodup⟩
  known := by
    intro name hName
    rcases List.mem_cons.mp hName with rfl | hName
    · exact List.mem_map_of_mem hFunction
    · exact h.known name hName
  room := by
    have hRoom := h.room
    rw [List.length_cons]
    omega

/- Only the callers of a frame make it sound. -/
theorem on
    (h : frame.Sound script depth)
    (path zOrder : Nat) :
    Sound script depth ⟨path, zOrder, frame.callers⟩ :=
  ⟨h.nodup, h.known, h.room⟩

end Frame.Sound

/- Without callers there is room for all functions. -/
theorem Frame.sound_nil
    (script : Script)
    (path zOrder : Nat) :
    Frame.Sound script (script.functions.length + 1)
      ⟨path, zOrder, []⟩ where
  nodup := .nil
  known := nofun
  room := Nat.lt_succ_self _

namespace Expander

open Expansion (Keeps Clean Yields)
open Meaning (Fits Site)

variable {e : Expander}

------------------------------------------------------------
-- Running Clean States
------------------------------------------------------------

/- From a clean state no statement is left out. -/
theorem statements_cons_of_clean
    {s : Expansion}
    (h : s.Clean)
    {inline : Inline}
    {frame : Frame}
    {scope : Nat}
    {labels : List String}
    {st : Statement}
    {sts : List Statement} :
    statements e inline frame scope labels (st :: sts) s =
      statements e inline frame scope (labelsAfter labels st)
        sts (e.statement inline frame scope labels st s) := by
  rw [statements, h.stopped_eq_false]
  rfl

/- A body whose charge was paid has a scope of its own. -/
theorem body_of_running
    {depth : Nat}
    {f : Function}
    {frame : Frame}
    {s : Expansion}
    (h : (s.charge e.source f.span).exhausted = false) :
    body e (depth + 1) f frame s =
      statements e (body e depth)
        { frame with callers := f.name.text :: frame.callers }
        (s.charge e.source f.span).nextScope [] f.body
        { s.charge e.source f.span with
          nextScope :=
            (s.charge e.source f.span).nextScope + 1 } := by
  simp only [body]
  rw [if_neg (by simp [h])]

/- Without an entry there is only its fault. -/
theorem run_of_missing
    (h : e.script.find? Script.entryName = none) :
    e.run =
      ({} : Expansion).report e.source .missingEntry
        .origin := by
  simp only [run, h]

/- The entry is spawned from the initial state. -/
theorem run_of_start
    {start : Function}
    (h : e.script.find? Script.entryName = some start) :
    e.run =
      e.spawn (body e e.maxDepth) start none 0 0 []
        start.span {} := by
  simp only [run, h]

------------------------------------------------------------
-- Errors Stay
------------------------------------------------------------

theorem keeps_attempt
    {α : Type}
    (r : Except (ExpandFault × Span) α)
    {next : α → Expansion → Expansion}
    (hNext : ∀ a, Keeps (next a)) :
    Keeps (e.attempt r next) := by
  intro s
  cases r with
  | ok a => exact hNext a s
  | error x =>
      exact Expansion.keeps_report e.source x.1 x.2 s

theorem keeps_note
    {α : Type}
    (r : Except (ExpandFault × Span) α) :
    Keeps (e.note r) :=
  keeps_attempt r fun _ _ => Nat.le_refl _

theorem keeps_put
    (frame : Frame)
    (span : Span)
    (op : Op) :
    Keeps (e.put frame span op) :=
  Expansion.keeps_emit e.source op (some frame.path)
    frame.zOrder span

theorem keeps_inlineTimes
    {inline : Expansion → Expansion}
    (h : Keeps inline)
    (count : Nat) :
    Keeps (inlineTimes inline count) := by
  intro s
  induction count generalizing s with
  | zero => exact Nat.le_refl _
  | succ count ih =>
      unfold inlineTimes
      split
      · exact Nat.le_refl _
      · exact Nat.le_trans (h s) (ih (inline s))

theorem keeps_spawn
    {inline : Inline}
    (h : ∀ f frame, Keeps (inline f frame))
    (f : Function)
    (caller : Option Nat)
    (callerZ zOrder : Nat)
    (callers : List String)
    (span : Span) :
    Keeps (e.spawn inline f caller callerZ zOrder callers
      span) := by
  intro s
  let frame : Frame := ⟨s.nextPath, zOrder, callers⟩
  have hEmit := Expansion.keeps_emit e.source
    (.activate s.nextPath) caller callerZ span
    { s with nextPath := s.nextPath + 1 }
  exact Nat.le_trans hEmit
    (Nat.le_trans (h f frame _) (keeps_put frame span _ _))

theorem keeps_ramp
    (frame : Frame)
    (span : Span)
    (leds : List Nat)
    (start stop : Color)
    (millis : Nat) :
    Keeps (e.ramp frame span leds start stop millis) := by
  intro s
  exact Nat.le_trans (keeps_put frame span _ s)
    (Nat.le_trans (keeps_put frame span _ _)
      (keeps_put frame span _ _))

theorem keeps_statement
    {inline : Inline}
    (h : ∀ f frame, Keeps (inline f frame))
    (frame : Frame)
    (scope : Nat)
    (labels : List String)
    (st : Statement) :
    Keeps (e.statement inline frame scope labels st) := by
  intro s
  unfold statement
  split
  · exact keeps_attempt _ (fun _ => keeps_put frame _ _) s
  · split
    · exact keeps_ramp frame _ _ _ _ _ s
    · exact Nat.le_trans (keeps_note _ s) (keeps_note _ _)
  · exact keeps_attempt _ (fun _ => keeps_put frame _ _) s
  · simp only
    split
    · exact Nat.le_trans
        (Expansion.keeps_warnLabel e.source _ _ s)
        (keeps_put frame _ _ _)
    · exact keeps_put frame _ _ s
  · exact keeps_put frame _ _ s
  · exact keeps_attempt _
      (fun f => keeps_inlineTimes (h f frame) _) s
  · exact keeps_attempt _
      (fun f => keeps_spawn h f _ _ _ _ _) s

theorem keeps_statements
    {inline : Inline}
    (h : ∀ f frame, Keeps (inline f frame))
    (frame : Frame)
    (scope : Nat)
    (labels : List String)
    (sts : List Statement) :
    Keeps (statements e inline frame scope labels sts) := by
  intro s
  induction sts generalizing labels s with
  | nil => exact Nat.le_refl _
  | cons st sts ih =>
      unfold statements
      split
      · exact Nat.le_refl _
      · exact Nat.le_trans
          (keeps_statement h frame scope labels st s)
          (ih _ _)

/- What is inside a body keeps the errors of its charge. -/
theorem errors_charge_le_body
    {depth : Nat}
    (h : ∀ f frame, Keeps (body e depth f frame))
    (f : Function)
    (frame : Frame)
    (s : Expansion) :
    (s.charge e.source f.span).errors ≤
      (body e (depth + 1) f frame s).errors := by
  let t := s.charge e.source f.span
  have hStatements :
      Keeps (statements e (body e depth)
        { frame with callers := f.name.text :: frame.callers }
        t.nextScope [] f.body) :=
    keeps_statements h _ _ _ _
  unfold body
  simp only
  split
  · exact Nat.le_refl _
  · exact hStatements { t with nextScope := t.nextScope + 1 }

theorem keeps_body
    (depth : Nat)
    (f : Function)
    (frame : Frame) :
    Keeps (body e depth f frame) := by
  intro s
  induction depth generalizing f frame s with
  | zero => exact Nat.le_refl _
  | succ depth ih =>
      exact Nat.le_trans
        (Expansion.keeps_charge e.source f.span s)
        (errors_charge_le_body ih f frame s)

------------------------------------------------------------
-- Checks That Succeed
------------------------------------------------------------

/- Without errors, a check has succeeded. -/
theorem attempt_eq_ok
    {α : Type}
    {r : Except (ExpandFault × Span) α}
    {next : α → Expansion → Expansion}
    {s : Expansion}
    (hClean : s.Clean)
    (hErrors : (e.attempt r next s).errors = 0) :
    ∃ a, r = .ok a ∧ e.attempt r next s = next a s := by
  cases r with
  | ok a => exact ⟨a, rfl, rfl⟩
  | error x =>
      exact absurd hErrors
        (Expansion.errors_report_ne_zero hClean.warned
          e.source x.1 x.2)

theorem leds_eq_ok
    {list : LedList}
    {leds : List Nat}
    (h : e.leds list = .ok leds) :
    leds = Meaning.ledsOf list := by
  unfold Expander.leds at h
  simp only at h
  split at h
  · cases h
  · exact (Except.ok.inj h).symm

theorem millis_eq_ok
    {d : Duration}
    {ms : Nat}
    (h : e.millis d = .ok ms) :
    ms = d.amount * d.unit.factor e.device.tickMillis := by
  unfold Expander.millis Duration.millis? at h
  simp only at h
  split at h
  · cases h
  · rename_i counted hCounted
    split at hCounted
    · cases hCounted
      split at h
      · exact (Except.ok.inj h).symm
      · cases h
    · cases hCounted

theorem wholeTicks_eq_ok
    {d : Duration}
    {ms : Nat}
    (h : e.wholeTicks d = .ok ms) :
    ms = d.amount * d.unit.factor e.device.tickMillis := by
  rcases Success.bind_eq_ok h with ⟨counted, hCounted, h⟩
  have hSame : counted = ms := by
    simp only at h
    split at h
    · cases h
    · exact Success.pure_eq_ok h
  rw [← hSame]
  exact millis_eq_ok hCounted

/- A function that may be called is none of the callers. -/
theorem callee_eq_ok
    {frame : Frame}
    {name : Name}
    {f : Function}
    (h : e.callee frame name = .ok f) :
    e.script.find? name.text = some f ∧
      f ∈ e.script.functions ∧
      f.name.text ∉ frame.callers := by
  unfold callee at h
  split at h
  · cases h
  · rename_i g hFind
    split at h
    · cases h
    · rename_i hNew
      cases h
      refine ⟨hFind, List.mem_of_find?_eq_some hFind, ?_⟩
      simpa using hNew

------------------------------------------------------------
-- What Statements Yield
------------------------------------------------------------

/- Where a frame is, as far as its meaning is concerned. -/
def site (frame : Frame) (s : Expansion) : Site :=
  ⟨frame.path, frame.zOrder, s.next⟩

theorem site_of_yields
    {frame : Frame}
    {is : List Instruction}
    {used : Numbers}
    {s t : Expansion}
    (h : Yields is used s t) :
    site frame t =
      { site frame s with next := s.next.add used } := by
  rw [site, h.next]
  rfl

/- An inlining follows the meaning of bodies at a depth. -/
structure Inlines
    (e : Expander)
    (depth : Nat)
    (inline : Inline) : Prop where
  keeps : ∀ f frame, Keeps (inline f frame)
  yields : ∀ {f frame s},
    f ∈ e.script.functions →
    f.name.text ∉ frame.callers →
    frame.Sound e.script depth →
    s.Clean →
    (inline f frame s).errors = 0 →
    Fits e.script depth f ∧
      Yields
        (Meaning.instructions e.script e.device.tickMillis
          depth f (site frame s))
        (Meaning.used e.script depth f)
        s (inline f frame s)

theorem put_yields
    {frame : Frame}
    {span : Span}
    {op : Op}
    {s : Expansion}
    (hClean : s.Clean)
    (hErrors : (e.put frame span op s).errors = 0) :
    Yields [Meaning.emit (site frame s) span op] .zero s
      (e.put frame span op s) :=
  Expansion.yields_emit hClean hErrors

theorem ramp_yields
    {frame : Frame}
    {span : Span}
    {leds : List Nat}
    {start stop : Color}
    {millis : Nat}
    {s : Expansion}
    (hClean : s.Clean)
    (hErrors :
      (e.ramp frame span leds start stop millis s).errors =
        0) :
    Yields
      [Meaning.emit (site frame s) span (.glow leds start),
       Meaning.emit (site frame s) span
         (.ramp leds start stop millis),
       Meaning.emit (site frame s) span (.glow leds stop)]
      .zero s
      (e.ramp frame span leds start stop millis s) := by
  have hSecond :=
    (keeps_put frame span _).errors_eq_zero hErrors
  have hFirst :=
    (keeps_put frame span _).errors_eq_zero hSecond
  have hStart := put_yields hClean hFirst
  have hRamp := put_yields hStart.clean hSecond
  have hStop := put_yields hRamp.clean hErrors
  exact (hStart.trans hRamp).trans hStop

variable {depth : Nat}
variable {inline : Inline}

/- Copies of a body follow one another. -/
theorem inlineTimes_yields
    (hInline : Inlines e depth inline)
    {f : Function}
    {frame : Frame}
    (hFunction : f ∈ e.script.functions)
    (hNew : f.name.text ∉ frame.callers)
    (hSound : frame.Sound e.script depth)
    {count : Nat}
    {s : Expansion}
    (hClean : s.Clean)
    (hErrors :
      (inlineTimes (inline f frame) count s).errors = 0) :
    (count ≠ 0 → Fits e.script depth f) ∧
      Yields
        ((List.range count).flatMap fun i =>
          Meaning.instructions e.script e.device.tickMillis
            depth f
            { site frame s with
              next := s.next.add
                ((Meaning.used e.script depth f).times i) })
        ((Meaning.used e.script depth f).times count)
        s (inlineTimes (inline f frame) count s) := by
  induction count generalizing s with
  | zero =>
      refine ⟨fun h => absurd rfl h, ?_⟩
      rw [Numbers.times_zero]
      exact hClean.yields_nothing
  | succ count ih =>
      have hStep :
          inlineTimes (inline f frame) (count + 1) s =
            inlineTimes (inline f frame) count
              (inline f frame s) := by
        simp [inlineTimes, hClean.running]
      rw [hStep] at hErrors ⊢
      have hKeeps := keeps_inlineTimes
        (hInline.keeps f frame) count
      rcases hInline.yields hFunction hNew hSound hClean
        (hKeeps.errors_eq_zero hErrors)
        with ⟨hFits, hFirst⟩
      rcases ih hFirst.clean hErrors with ⟨-, hRest⟩
      refine ⟨fun _ => hFits, ?_⟩
      have hBoth := hFirst.trans hRest
      rw [← Numbers.times_succ] at hBoth
      rw [List.range_succ_eq_map, List.flatMap_cons,
        List.flatMap_map]
      simpa [Numbers.times_succ, Numbers.add_assoc, site,
        hFirst.next] using hBoth

/- A path of its own: its activation, its body, its end. -/
theorem spawn_yields
    (hInline : Inlines e depth inline)
    {f : Function}
    {caller : Option Nat}
    {callerZ zOrder : Nat}
    {callers : List String}
    {span : Span}
    {s : Expansion}
    (hFunction : f ∈ e.script.functions)
    (hNew : f.name.text ∉ callers)
    (hSound : Frame.Sound e.script depth
      ⟨s.nextPath, zOrder, callers⟩)
    (hClean : s.Clean)
    (hErrors :
      (e.spawn inline f caller callerZ zOrder callers span
        s).errors = 0) :
    Fits e.script depth f ∧
      Yields
        (Meaning.activated
          (Meaning.instructions e.script e.device.tickMillis
            depth f)
          caller callerZ zOrder span s.next)
        ((Meaning.used e.script depth f).add ⟨1, 0⟩)
        s
        (e.spawn inline f caller callerZ zOrder callers span
          s) := by
  let frame : Frame := ⟨s.nextPath, zOrder, callers⟩
  let numbered := { s with nextPath := s.nextPath + 1 }
  let activated := numbered.emit e.source
    (.activate s.nextPath) caller callerZ span
  have hBody :
      (inline f frame activated).errors = 0 :=
    (keeps_put frame span _).errors_eq_zero hErrors
  have hActivated : activated.errors = 0 :=
    (hInline.keeps f frame).errors_eq_zero hBody
  have hNumbered : Yields [] ⟨1, 0⟩ s numbered := {
    clean := ⟨hClean.noErrors, hClean.running,
      hClean.work_le, hClean.warned⟩
    emitted := (List.append_nil _).symm
    next := rfl
    work := rfl }
  have hLaunch :=
    Expansion.yields_emit hNumbered.clean hActivated
  rcases hInline.yields hFunction hNew hSound hLaunch.clean
    hBody
    with ⟨hFits, hInner⟩
  have hFinish := put_yields hInner.clean hErrors
  refine ⟨hFits, ?_⟩
  have hAll :=
    ((hNumbered.trans hLaunch).trans hInner).trans hFinish
  have hSite :
      site frame activated =
        ⟨s.nextPath, zOrder, s.next.add ⟨1, 0⟩⟩ := by
    rw [site, (hNumbered.trans hLaunch).next]
    rfl
  rw [hSite] at hAll
  rw [Numbers.add_comm]
  exact hAll

/- Without errors, a ramp has LEDs and a duration. -/
theorem ramp_eq_ok
    {frame : Frame}
    {scope : Nat}
    {labels : List String}
    {span : Span}
    {list : LedList}
    {start stop : Color}
    {d : Duration}
    {s : Expansion}
    (hClean : s.Clean)
    (hErrors :
      (e.statement inline frame scope labels
        ⟨.ramp list start stop d, span⟩ s).errors = 0) :
    ∃ leds ms,
      e.leds list = .ok leds ∧ e.millis d = .ok ms := by
  have hNoted :
      (e.note (e.millis d) (e.note (e.leds list) s)).errors =
        0 := by
    simp only [statement] at hErrors
    split at hErrors
    · rename_i hLeds hMillis
      rw [hLeds, hMillis]
      exact hClean.noErrors
    · exact hErrors
  rcases attempt_eq_ok hClean ((keeps_note (e.millis
    d)).errors_eq_zero hNoted)
    with ⟨leds, hLeds, hNext⟩
  have hSame : e.note (e.leds list) s = s := hNext
  rw [hSame] at hNoted
  rcases attempt_eq_ok hClean hNoted with ⟨ms, hMillis, -⟩
  exact ⟨leds, ms, hLeds, hMillis⟩

/- A statement emits what it means. -/
theorem statement_yields
    (hInline : Inlines e depth inline)
    {frame : Frame}
    {scope : Nat}
    {labels : List String}
    {st : Statement}
    {s : Expansion}
    (hSound : frame.Sound e.script depth)
    (hClean : s.Clean)
    (hErrors :
      (e.statement inline frame scope labels st s).errors =
        0) :
    (∀ g ∈ Meaning.callees e.script st.action,
        Fits e.script depth g) ∧
      Yields
        (Meaning.ofStatement e.script e.device.tickMillis
          (Meaning.used e.script depth)
          (Meaning.instructions e.script e.device.tickMillis
            depth)
          scope st (site frame s))
        (Meaning.usedBy e.script
          (Meaning.used e.script depth) st.action)
        s (e.statement inline frame scope labels st s) := by
  rcases st with ⟨action, span⟩
  cases action with
  | glow list color =>
      rcases attempt_eq_ok hClean hErrors
        with ⟨leds, hLeds, hNext⟩
      cases leds_eq_ok hLeds
      simp only [statement, hNext] at hErrors ⊢
      exact ⟨nofun, put_yields hClean hErrors⟩
  | ramp list start stop d =>
      rcases ramp_eq_ok hClean hErrors
        with ⟨leds, ms, hLeds, hMillis⟩
      cases leds_eq_ok hLeds
      cases millis_eq_ok hMillis
      simp only [statement, hLeds, hMillis] at hErrors ⊢
      exact ⟨nofun, ramp_yields hClean hErrors⟩
  | pause d =>
      rcases attempt_eq_ok hClean hErrors
        with ⟨ms, hMillis, hNext⟩
      cases wholeTicks_eq_ok hMillis
      simp only [statement, hNext] at hErrors ⊢
      exact ⟨nofun, put_yields hClean hErrors⟩
  | here label =>
      simp only [statement] at hErrors ⊢
      refine ⟨nofun, ?_⟩
      split at hErrors
      · rename_i hDouble
        rw [if_pos hDouble]
        have hWarn := Expansion.yields_warnLabel hClean
          e.source label.text span
        exact hWarn.trans (put_yields hWarn.clean hErrors)
      · rename_i hFirst
        rw [if_neg hFirst]
        exact put_yields hClean hErrors
  | goto label =>
      exact ⟨nofun, put_yields hClean hErrors⟩
  | call name count =>
      rcases attempt_eq_ok hClean hErrors
        with ⟨f, hCallee, hNext⟩
      rcases callee_eq_ok hCallee
        with ⟨hFind, hFunction, hNew⟩
      simp only [statement, hNext] at hErrors ⊢
      rcases inlineTimes_yields hInline hFunction hNew
        hSound hClean hErrors
        with ⟨hFits, hTimes⟩
      constructor
      · intro g hg
        simp only [Meaning.callees, hFind] at hg
        split at hg
        · cases hg
        · rename_i hCount
          cases List.mem_singleton.mp hg
          exact hFits hCount
      · simp only [Meaning.ofStatement, Meaning.usedBy, hFind]
        exact hTimes
  | callAsync name zOrder =>
      rcases attempt_eq_ok hClean hErrors
        with ⟨f, hCallee, hNext⟩
      rcases callee_eq_ok hCallee
        with ⟨hFind, hFunction, hNew⟩
      simp only [statement, hNext] at hErrors ⊢
      have hOwn :=
        hSound.on s.nextPath (zOrder.getD frame.zOrder)
      rcases spawn_yields hInline hFunction hNew hOwn hClean
        hErrors
        with ⟨hFits, hSpawn⟩
      constructor
      · intro g hg
        simp only [Meaning.callees, hFind] at hg
        cases List.mem_singleton.mp hg
        exact hFits
      · simp only [Meaning.ofStatement, Meaning.usedBy, hFind]
        exact hSpawn

/- Statements emit what they mean, one after another. -/
theorem statements_yields
    (hInline : Inlines e depth inline)
    {frame : Frame}
    {scope : Nat}
    {labels : List String}
    {sts : List Statement}
    {s : Expansion}
    (hSound : frame.Sound e.script depth)
    (hClean : s.Clean)
    (hErrors :
      (statements e inline frame scope labels sts s).errors =
        0) :
    (∀ st ∈ sts, ∀ g ∈ Meaning.callees e.script st.action,
        Fits e.script depth g) ∧
      Yields
        (Meaning.ofStatements e.script e.device.tickMillis
          (Meaning.used e.script depth)
          (Meaning.instructions e.script e.device.tickMillis
            depth)
          scope sts (site frame s))
        (Meaning.usedByAll e.script
          (Meaning.used e.script depth) sts)
        s (statements e inline frame scope labels sts s) := by
  induction sts generalizing labels s with
  | nil => exact ⟨nofun, hClean.yields_nothing⟩
  | cons st sts ih =>
      rw [statements_cons_of_clean hClean] at hErrors ⊢
      have hKeeps := keeps_statements hInline.keeps frame
        scope (labelsAfter labels st) sts (e := e)
      rcases statement_yields hInline hSound hClean
        (hKeeps.errors_eq_zero hErrors)
        with ⟨hCallees, hFirst⟩
      rcases ih hFirst.clean hErrors with ⟨hRest, hOthers⟩
      refine ⟨List.forall_mem_cons.mpr ⟨hCallees, hRest⟩, ?_⟩
      have hBoth := hFirst.trans hOthers
      rw [site_of_yields hFirst] at hBoth
      exact hBoth

------------------------------------------------------------
-- What Bodies Yield
------------------------------------------------------------

/- Bodies follow their meaning at every depth. -/
theorem inlines_body
    (e : Expander)
    (depth : Nat) :
    Inlines e depth (body e depth) := by
  induction depth with
  | zero =>
      refine ⟨keeps_body 0, ?_⟩
      intro f frame s _ _ hSound
      exact absurd hSound.depth_pos (Nat.lt_irrefl 0)
  | succ depth ih =>
      refine ⟨keeps_body (depth + 1), ?_⟩
      intro f frame s hFunction hNew hSound hClean hErrors
      have hCharged :
          (s.charge e.source f.span).errors = 0 :=
        Nat.eq_zero_of_le_zero (hErrors ▸
          errors_charge_le_body ih.keeps f frame s)
      rcases hClean.charge_eq hCharged with ⟨hCharge, hWork⟩
      let opened :=
        { s with
          work := s.work + 1
          nextScope := s.nextScope + 1 }
      have hOpened : Yields [] ⟨0, 1⟩ s opened := {
        clean := ⟨hClean.noErrors, hClean.running, hWork,
          hClean.warned⟩
        emitted := (List.append_nil _).symm
        next := rfl
        work := rfl }
      have hRunning :
          (s.charge e.source f.span).exhausted = false := by
        rw [hCharge]
        exact hClean.running
      rw [body_of_running hRunning, hCharge] at hErrors ⊢
      rcases statements_yields ih (hSound.push hFunction
        hNew) hOpened.clean hErrors
        with ⟨hFits, hStatements⟩
      refine ⟨hFits, ?_⟩
      have hBoth := hOpened.trans hStatements
      rw [Numbers.add_comm] at hBoth
      exact hBoth

/- A run without errors emits what its script means. -/
theorem run_yields
    (e : Expander)
    (hErrors : e.run.errors = 0) :
    ∃ start,
      e.script.find? Script.entryName = some start ∧
        Fits e.script e.maxDepth start ∧
        Yields
          (Meaning.activated
            (Meaning.instructions e.script
              e.device.tickMillis e.maxDepth start)
            none 0 0 start.span .zero)
          ((Meaning.used e.script e.maxDepth start).add
            ⟨1, 0⟩)
          {} e.run := by
  cases hFind : e.script.find? Script.entryName with
  | none =>
      rw [run_of_missing hFind] at hErrors
      exact absurd hErrors
        (Expansion.errors_report_ne_zero
          Expansion.clean_initial.warned _ _ _)
  | some start =>
      rw [run_of_start hFind] at hErrors ⊢
      have hSound :
          Frame.Sound e.script e.maxDepth ⟨0, 0, []⟩ :=
        Frame.sound_nil e.script 0 0
      exact ⟨start, rfl,
        spawn_yields (inlines_body e e.maxDepth)
          (List.mem_of_find?_eq_some hFind) List.not_mem_nil
          hSound
          Expansion.clean_initial hErrors⟩

end Expander

end LightShow
