import LightShow.Expansion.Expandable
import LightShow.Numeric.Total
import LightShow.Proofs.Expansion

/-
  When an expansion ends without errors.

  From a clean state an operation ends without errors
  exactly if a condition on the script holds and the budget
  has room for what the operation costs. Such operations can
  be put one after another: their conditions are joined and
  their costs added. Statement by statement and depth by
  depth this gives the condition and the cost of a body.

  Key definitions include:
    * `Expansion.CleanIff`
    * `Meaning.work`
    * `Expander.Admits`

  Main statements:
    * `Expansion.CleanIff.trans`
    * `Expander.decides_body`
    * `Expander.errors_run_eq_zero_iff`
-/

namespace LightShow

------------------------------------------------------------
-- Clean Under A Condition
------------------------------------------------------------

namespace Expansion

/-
  A state is reached without errors exactly if a condition
  holds and there is work left for a cost; then it is clean
  and the cost is paid.
-/
structure CleanIff
    (holds : Prop)
    (cost : Nat)
    (s t : Expansion) : Prop where
  necessary : t.errors = 0 →
    holds ∧ t.Clean ∧ t.work = s.work + cost
  sufficient : holds →
    s.work + cost ≤ ExpandFault.maxWork → t.errors = 0

theorem Clean.cleanIff_nothing
    {s : Expansion}
    (h : s.Clean) :
    CleanIff True 0 s s where
  necessary := fun _ => ⟨trivial, h, rfl⟩
  sufficient := fun _ _ => h.noErrors

namespace CleanIff

variable {P Q : Prop}
variable {m n : Nat}
variable {s t u : Expansion}

theorem of_iff
    (h : CleanIff P m s t)
    (hIff : P ↔ Q)
    (hCost : m = n) :
    CleanIff Q n s t := by
  subst hCost
  constructor
  · intro hErrors
    rcases h.necessary hErrors with ⟨hHolds, hClean⟩
    exact ⟨hIff.mp hHolds, hClean⟩
  · intro hHolds
    exact h.sufficient (hIff.mpr hHolds)

/- One after the other: both conditions and both costs. -/
theorem trans
    (hFirst : CleanIff P m s t)
    (hSecond : t.Clean → CleanIff Q n t u)
    (hKeeps : t.errors ≤ u.errors) :
    CleanIff (P ∧ Q) (m + n) s u := by
  constructor
  · intro hErrors
    have hBetween : t.errors = 0 :=
      Nat.eq_zero_of_le_zero (hErrors ▸ hKeeps)
    rcases hFirst.necessary hBetween
      with ⟨hP, hClean, hPaid⟩
    rcases (hSecond hClean).necessary hErrors
      with ⟨hQ, hFinal, hRest⟩
    exact ⟨⟨hP, hQ⟩, hFinal, by omega⟩
  · rintro ⟨hP, hQ⟩ hRoom
    have hBetween : t.errors = 0 :=
      hFirst.sufficient hP (by omega)
    rcases hFirst.necessary hBetween with ⟨-, hClean, hPaid⟩
    exact (hSecond hClean).sufficient hQ (by omega)

end CleanIff

variable {s : Expansion}

/- A report is an error, whatever is left. -/
theorem cleanIff_report
    (h : s.Clean)
    (source : SourceText)
    (fault : ExpandFault)
    (span : Span)
    (cost : Nat) :
    CleanIff False cost s (s.report source fault span) where
  necessary := fun hErrors => absurd hErrors
    (errors_report_ne_zero h.warned source fault span)
  sufficient := False.elim

/- A charge costs one unit and asks for nothing else. -/
theorem cleanIff_charge
    (h : s.Clean)
    (source : SourceText)
    (span : Span) :
    CleanIff True 1 s (s.charge source span) := by
  constructor
  · intro hErrors
    rcases h.charge_eq hErrors with ⟨hCharge, hWork⟩
    rw [hCharge]
    exact ⟨trivial,
      ⟨h.noErrors, h.running, hWork, h.warned⟩, rfl⟩
  · intro _ hRoom
    have hWork : s.work < ExpandFault.maxWork := hRoom
    have hCharge :
        s.charge source span =
          { s with work := s.work + 1 } := by
      simp [charge, h.running, hWork]
    rw [hCharge]
    exact h.noErrors

theorem cleanIff_emit
    (h : s.Clean)
    (source : SourceText)
    (op : Op)
    (path : Option Nat)
    (zOrder : Nat)
    (span : Span) :
    CleanIff True 1 s
      (s.emit source op path zOrder span) := by
  have hCharge := cleanIff_charge h source span
  have hSame :
      (s.emit source op path zOrder span).errors =
        (s.charge source span).errors := by
    unfold emit
    simp only
    split <;> rfl
  constructor
  · intro hErrors
    have hYields := yields_emit h hErrors
    exact ⟨trivial, hYields.clean, hYields.work⟩
  · intro hHolds hRoom
    rw [hSame]
    exact hCharge.sufficient hHolds hRoom

theorem cleanIff_warnLabel
    (h : s.Clean)
    (source : SourceText)
    (label : String)
    (span : Span) :
    CleanIff True 0 s (s.warnLabel source label span) := by
  have hYields := yields_warnLabel h source label span
  constructor
  · exact fun _ => ⟨trivial, hYields.clean, hYields.work⟩
  · exact fun _ _ => hYields.clean.noErrors

end Expansion

------------------------------------------------------------
-- The Work Of Bodies
------------------------------------------------------------

namespace Meaning

/- The work of a statement, given the work of bodies. -/
def workBy
    (script : Script)
    (body : Function → Nat) : Action → Nat
  | .ramp _ _ _ _ => 3
  | .call name count =>
      count * (script.find? name.text).elim 0 body
  | .callAsync name _ =>
      (script.find? name.text).elim 0 fun f => body f + 2
  | _ => 1

/- The work of some statements. -/
def workByAll
    (script : Script)
    (body : Function → Nat)
    (sts : List Statement) : Nat :=
  total (sts.map fun st => workBy script body st.action)

/- The instructions and bodies that a body comes to. -/
def work (script : Script) : Nat → Function → Nat
  | 0, _ => 0
  | depth + 1, f =>
      1 + workByAll script (work script depth) f.body

section

variable (script : Script)
variable (tick : Nat)
variable {size : Function → Numbers}
variable {body : Function → Site → List Instruction}
variable {cost : Function → Nat}

/- Copies of like cost come to the cost of all. -/
theorem length_flatMap_range
    (copy : Nat → List Instruction)
    {scopes each : Nat}
    (h : ∀ i, (copy i).length + scopes = each)
    (count : Nat) :
    ((List.range count).flatMap copy).length +
        count * scopes =
      count * each := by
  induction count with
  | zero => simp
  | succ count ih =>
      have hLast := h count
      rw [List.range_succ, List.flatMap_append,
        List.length_append, List.flatMap_singleton,
        Nat.succ_mul, Nat.succ_mul]
      omega

/- A statement is paid for by instructions and scopes. -/
theorem length_ofStatement_add
    (hBody : ∀ f site,
      (body f site).length + (size f).scopes = cost f)
    (scope : Nat)
    (st : Statement)
    (site : Site) :
    (ofStatement script tick size body scope st site).length +
        (usedBy script size st.action).scopes =
      workBy script cost st.action := by
  rcases st with ⟨action, span⟩
  cases action with
  | call name count =>
      cases hFind : script.find? name.text with
      | none =>
          simp [ofStatement, usedBy, workBy, hFind,
            Numbers.times, Numbers.zero]
      | some f =>
          have hAll := length_flatMap_range
            (fun i => body f
              { site with
                next := site.next.add ((size f).times i) })
            (fun i => hBody f _) count
          simpa [ofStatement, usedBy, workBy, hFind,
            Numbers.times] using hAll
  | callAsync name zOrder =>
      cases hFind : script.find? name.text with
      | none =>
          simp [ofStatement, usedBy, workBy, hFind,
            Numbers.zero]
      | some f =>
          have hOne := hBody f
            ⟨site.next.paths, zOrder.getD site.zOrder,
              site.next.add ⟨1, 0⟩⟩
          simp only [ofStatement, usedBy, workBy, hFind,
            activated, Option.elim_some, Numbers.add,
            List.length_append, List.length_cons,
            List.length_nil] at hOne ⊢
          omega
  | _ => rfl

theorem length_ofStatements_add
    (hBody : ∀ f site,
      (body f site).length + (size f).scopes = cost f)
    (scope : Nat)
    (sts : List Statement)
    (site : Site) :
    (ofStatements script tick size body scope sts
        site).length +
        (usedByAll script size sts).scopes =
      workByAll script cost sts := by
  induction sts generalizing site with
  | nil => rfl
  | cons st sts ih =>
      have hFirst := length_ofStatement_add script tick
        hBody scope st site
      have hRest := ih
        { site with
          next := site.next.add
            (usedBy script size st.action) }
      simp only [ofStatements, usedByAll, workByAll,
        List.length_append, List.foldr_cons, List.map_cons,
        total_cons, Numbers.add] at hFirst hRest ⊢
      omega

end

/- The work of a body is what its meaning comes to. -/
theorem length_instructions_add
    (script : Script)
    (tick depth : Nat)
    (f : Function)
    (site : Site) :
    (instructions script tick depth f site).length +
        (used script depth f).scopes =
      work script depth f := by
  induction depth generalizing f site with
  | zero => rfl
  | succ depth ih =>
      have hBody := length_ofStatements_add script tick ih
        site.next.scopes f.body
        { site with next := site.next.add ⟨0, 1⟩ }
      simp only [instructions, used, work, Numbers.add]
        at hBody ⊢
      omega

end Meaning

------------------------------------------------------------
-- Checks
------------------------------------------------------------

namespace Expander

open Expansion (Keeps Clean CleanIff)

variable {e : Expander}

theorem exists_leds_iff
    {list : LedList} :
    (∃ leds, e.leds list = .ok leds) ↔ list.On e.device := by
  have hNone :
      (list.numbers.find? fun n =>
          n = 0 || e.device.ledCount < n) = none ↔
        list.On e.device := by
    rw [List.find?_eq_none]
    apply forall₂_congr
    intro n _
    simp only [Bool.or_eq_true, decide_eq_true_eq]
    omega
  rw [← hNone]
  unfold Expander.leds
  simp only
  split <;> simp_all

theorem exists_millis_iff
    {d : Duration} :
    (∃ ms, e.millis d = .ok ms) ↔
      d.Allowed e.device.tickMillis := by
  have hAllowed :
      d.Allowed e.device.tickMillis ↔
        d.amount * d.unit.factor e.device.tickMillis <
            Duration.millisBound ∧
          d.amount * d.unit.factor e.device.tickMillis ≤
            Duration.maxMillis :=
    ⟨fun h => ⟨h.counted, h.short⟩, fun h => ⟨h.1, h.2⟩⟩
  rw [hAllowed]
  unfold Expander.millis Duration.millis?
  simp only
  split
  · rename_i hCounted
    split at hCounted
    · cases hCounted
    · rename_i hLong
      constructor
      · rintro ⟨ms, hOk⟩
        cases hOk
      · rintro ⟨hFew, -⟩
        exact absurd hFew hLong
  · rename_i ms hCounted
    split at hCounted
    · cases hCounted
      split <;> simp_all
    · cases hCounted

/- The second check of a pause, after that of its length. -/
theorem wholeTicks_eq
    {d : Duration}
    {ms : Nat}
    (h : e.millis d = .ok ms) :
    e.wholeTicks d =
      if e.device.tickMillis ≠ 0 ∧
          ms % e.device.tickMillis ≠ 0 then
        .error (.notWholeTicks ms e.device.tickMillis, d.span)
      else .ok ms := by
  unfold wholeTicks
  rw [h]
  by_cases hBad :
      e.device.tickMillis ≠ 0 ∧ ms % e.device.tickMillis ≠ 0
  · rw [if_pos hBad]
    simp only [bind, Except.bind, if_pos hBad]
    rfl
  · rw [if_neg hBad]
    simp only [bind, Except.bind, if_neg hBad]
    rfl

theorem exists_wholeTicks_iff
    {d : Duration} :
    (∃ ms, e.wholeTicks d = .ok ms) ↔
      d.Allowed e.device.tickMillis ∧
        d.Whole e.device.tickMillis := by
  rw [← exists_millis_iff]
  cases hMillis : e.millis d with
  | error x =>
      constructor
      · rintro ⟨ms, hOk⟩
        rw [wholeTicks, hMillis] at hOk
        cases hOk
      · rintro ⟨⟨ms, hOk⟩, -⟩
        cases hOk
  | ok ms =>
      rw [wholeTicks_eq hMillis, Duration.Whole,
        ← millis_eq_ok hMillis, Nat.dvd_iff_mod_eq_zero]
      split
      · rename_i hBad
        constructor
        · rintro ⟨other, hOk⟩
          cases hOk
        · rintro ⟨-, hWhole⟩
          exact absurd (hWhole hBad.1) hBad.2
      · rename_i hGood
        constructor
        · rintro -
          refine ⟨⟨ms, rfl⟩, fun hTick => ?_⟩
          exact Classical.not_not.mp fun hMod =>
            hGood ⟨hTick, hMod⟩
        · rintro -
          exact ⟨ms, rfl⟩

theorem callee_eq_ok_iff
    {frame : Frame}
    {name : Name}
    {f : Function} :
    e.callee frame name = .ok f ↔
      e.script.find? name.text = some f ∧
        f.name.text ∉ frame.callers := by
  constructor
  · intro h
    rcases callee_eq_ok h with ⟨hFind, -, hNew⟩
    exact ⟨hFind, hNew⟩
  · rintro ⟨hFind, hNew⟩
    simp [callee, hFind, hNew]

------------------------------------------------------------
-- Scripts That Are Admitted
------------------------------------------------------------

/-
  A statement passes its checks below some callers, and so
  do the bodies that it inlines.
-/
def Allows
    (e : Expander)
    (inner : Function → Prop)
    (callers : List String) : Action → Prop
  | .call name count =>
      ∃ g, e.script.find? name.text = some g ∧
        g.name.text ∉ callers ∧ (count ≠ 0 → inner g)
  | .callAsync name _ =>
      ∃ g, e.script.find? name.text = some g ∧
        g.name.text ∉ callers ∧ inner g
  | action => action.FitsOn e.device

/- Every statement of a body passes, down to a depth. -/
def Admits (e : Expander) :
    Nat → List String → Function → Prop
  | 0, _, _ => False
  | depth + 1, callers, f =>
      ∀ st ∈ f.body,
        e.Allows (Admits e depth (f.name.text :: callers))
          (f.name.text :: callers) st.action

------------------------------------------------------------
-- Parts Of Statements
------------------------------------------------------------

section Parts

variable {s : Expansion}
variable {P : Prop}
variable {cost : Nat}

theorem cleanIff_put
    (h : s.Clean)
    (frame : Frame)
    (span : Span)
    (op : Op) :
    CleanIff True 1 s (e.put frame span op s) :=
  Expansion.cleanIff_emit h e.source op (some frame.path)
    frame.zOrder span

/- A check that fails is an error. -/
theorem cleanIff_attempt
    {α : Type}
    {r : Except (ExpandFault × Span) α}
    {next : α → Expansion → Expansion}
    {Q : α → Prop}
    (h : s.Clean)
    (hNext : ∀ a, r = .ok a → CleanIff (Q a) cost s (next a s)) :
    CleanIff (∃ a, r = .ok a ∧ Q a) cost s
      (e.attempt r next s) := by
  cases r with
  | ok a =>
      refine (hNext a rfl).of_iff ?_ rfl
      constructor
      · exact fun hQ => ⟨a, rfl, hQ⟩
      · rintro ⟨b, hb, hQ⟩
        cases hb
        exact hQ
  | error x =>
      refine (Expansion.cleanIff_report h e.source x.1 x.2
        cost).of_iff ?_ rfl
      constructor
      · exact False.elim
      · rintro ⟨a, ha, -⟩
        cases ha

theorem cleanIff_ramp
    (h : s.Clean)
    (frame : Frame)
    (span : Span)
    (leds : List Nat)
    (start stop : Color)
    (millis : Nat) :
    CleanIff True 3 s
      (e.ramp frame span leds start stop millis s) := by
  have hStart := cleanIff_put (e := e) h frame span
    (.glow leds start)
  have hRamp := hStart.trans
    (fun h => cleanIff_put (e := e) h frame span
      (.ramp leds start stop millis))
    (keeps_put frame span _ _)
  have hStop := hRamp.trans
    (fun h => cleanIff_put (e := e) h frame span
      (.glow leds stop))
    (keeps_put frame span _ _)
  exact hStop.of_iff (by simp) rfl

/- Copies pass if one does, unless there are none. -/
theorem cleanIff_inlineTimes
    {inline : Expansion → Expansion}
    (hKeeps : Keeps inline)
    (hInline : ∀ s, s.Clean → CleanIff P cost s (inline s))
    (count : Nat)
    (h : s.Clean) :
    CleanIff (count ≠ 0 → P) (count * cost) s
      (inlineTimes inline count s) := by
  induction count generalizing s with
  | zero =>
      refine h.cleanIff_nothing.of_iff (by simp) ?_
      exact (Nat.zero_mul cost).symm
  | succ count ih =>
      have hStep :
          inlineTimes inline (count + 1) s =
            inlineTimes inline count (inline s) := by
        simp [inlineTimes, h.running]
      rw [hStep]
      have hBoth := (hInline s h).trans ih
        (keeps_inlineTimes hKeeps count (inline s))
      refine hBoth.of_iff ?_ ?_
      · constructor
        · exact fun hP _ => hP.1
        · exact fun hP => ⟨hP (Nat.succ_ne_zero count),
            fun _ => hP (Nat.succ_ne_zero count)⟩
      · rw [Nat.succ_mul, Nat.add_comm]

/- An activation and an end are two more instructions. -/
theorem cleanIff_spawn
    {inline : Inline}
    (hKeeps : ∀ f frame, Keeps (inline f frame))
    {f : Function}
    {zOrder : Nat}
    {callers : List String}
    (hInline : ∀ path t, Clean t →
      CleanIff P cost t
        (inline f ⟨path, zOrder, callers⟩ t))
    (caller : Option Nat)
    (callerZ : Nat)
    (span : Span)
    (h : s.Clean) :
    CleanIff P (cost + 2) s
      (e.spawn inline f caller callerZ zOrder callers span
        s) := by
  let frame : Frame := ⟨s.nextPath, zOrder, callers⟩
  let numbered := { s with nextPath := s.nextPath + 1 }
  have hNumbered : numbered.Clean :=
    ⟨h.noErrors, h.running, h.work_le, h.warned⟩
  have hLaunch := Expansion.cleanIff_emit hNumbered e.source
    (.activate s.nextPath) caller callerZ span
  have hBody := hLaunch.trans (hInline s.nextPath _)
    (hKeeps f frame _)
  have hFinish := hBody.trans
    (fun h => cleanIff_put (e := e) h frame span .finish)
    (keeps_put frame span _ _)
  -- The number of the path costs nothing.
  have hAll := hFinish.of_iff (Q := P) (n := cost + 2)
    (by simp) (by omega)
  exact ⟨hAll.necessary, hAll.sufficient⟩

end Parts

------------------------------------------------------------
-- Statements And Bodies
------------------------------------------------------------

/-
  An inlining ends without errors exactly if the body is
  admitted below its callers and there is work for it.
-/
structure Decides
    (e : Expander)
    (depth : Nat)
    (inline : Inline) : Prop where
  keeps : ∀ f frame, Keeps (inline f frame)
  cleanIff : ∀ (frame : Frame) {f s},
    f ∈ e.script.functions →
    f.name.text ∉ frame.callers →
    frame.Sound e.script depth →
    s.Clean →
    CleanIff (e.Admits depth frame.callers f)
      (Meaning.work e.script depth f) s (inline f frame s)

variable {depth : Nat}
variable {inline : Inline}
variable {frame : Frame}
variable {s : Expansion}

/- A ramp is checked twice before anything is emitted. -/
theorem cleanIff_rampStatement
    (h : s.Clean)
    (scope : Nat)
    (labels : List String)
    (span : Span)
    (list : LedList)
    (start stop : Color)
    (d : Duration) :
    CleanIff
      (list.On e.device ∧ d.Allowed e.device.tickMillis) 3 s
      (e.statement inline frame scope labels
        ⟨.ramp list start stop d, span⟩ s) := by
  rw [← exists_leds_iff, ← exists_millis_iff]
  cases hLeds : e.leds list with
  | error x =>
      have hStep :
          e.statement inline frame scope labels
              ⟨.ramp list start stop d, span⟩ s =
            e.note (e.millis d)
              (s.report e.source x.1 x.2) := by
        simp [statement, hLeds, note, attempt]
      rw [hStep]
      constructor
      · intro hErrors
        have hFirst :=
          (keeps_note (e.millis d)).errors_eq_zero hErrors
        exact absurd hFirst
          (Expansion.errors_report_ne_zero h.warned _ _ _)
      · rintro ⟨⟨leds, hOk⟩, -⟩
        cases hOk
  | ok leds =>
      cases hMillis : e.millis d with
      | error x =>
          have hStep :
              e.statement inline frame scope labels
                  ⟨.ramp list start stop d, span⟩ s =
                s.report e.source x.1 x.2 := by
            simp [statement, hLeds, hMillis, note, attempt]
          rw [hStep]
          refine (Expansion.cleanIff_report h e.source x.1
            x.2 3).of_iff ?_ rfl
          constructor
          · exact False.elim
          · rintro ⟨-, ms, hOk⟩
            cases hOk
      | ok ms =>
          simp only [statement, hLeds, hMillis]
          exact (cleanIff_ramp h frame span leds start stop
            ms).of_iff (by simp) rfl

/- The condition and the cost of a statement. -/
theorem cleanIff_statement
    (hInline : Decides e depth inline)
    (hSound : frame.Sound e.script depth)
    (h : s.Clean)
    (scope : Nat)
    (labels : List String)
    (st : Statement) :
    CleanIff
      (e.Allows (e.Admits depth frame.callers) frame.callers
        st.action)
      (Meaning.workBy e.script (Meaning.work e.script depth)
        st.action)
      s (e.statement inline frame scope labels st s) := by
  rcases st with ⟨action, span⟩
  cases action with
  | glow list color =>
      refine (cleanIff_attempt h fun leds _ =>
        cleanIff_put h frame span (.glow leds color)).of_iff
        ?_ rfl
      simpa [Allows, Action.FitsOn] using exists_leds_iff
  | ramp list start stop d =>
      exact cleanIff_rampStatement h scope labels span list
        start stop d
  | pause d =>
      refine (cleanIff_attempt h fun ms _ =>
        cleanIff_put h frame span (.pause ms)).of_iff ?_ rfl
      simpa [Allows, Action.FitsOn] using
        exists_wholeTicks_iff
  | here label =>
      simp only [statement]
      split
      · have hWarn := Expansion.cleanIff_warnLabel h e.source
          label.text span
        refine (hWarn.trans
          (fun h => cleanIff_put h frame span _)
          (keeps_put frame span _ _)).of_iff ?_ rfl
        exact and_self_iff
      · exact cleanIff_put h frame span _
  | goto label => exact cleanIff_put h frame span _
  | call name count =>
      refine (cleanIff_attempt h
        (Q := fun g =>
          count ≠ 0 → e.Admits depth frame.callers g)
        ?_).of_iff ?_ rfl
      · intro g hCallee
        rcases callee_eq_ok hCallee
          with ⟨hFind, hFunction, hNew⟩
        simp only [Meaning.workBy, hFind]
        exact cleanIff_inlineTimes (hInline.keeps g frame)
          (fun s => hInline.cleanIff frame hFunction hNew
            hSound)
          count h
      · simp only [callee_eq_ok_iff, Allows, and_assoc]
  | callAsync name zOrder =>
      refine (cleanIff_attempt h
        (Q := e.Admits depth frame.callers) ?_).of_iff ?_ rfl
      · intro g hCallee
        rcases callee_eq_ok hCallee
          with ⟨hFind, hFunction, hNew⟩
        simp only [Meaning.workBy, hFind]
        apply cleanIff_spawn hInline.keeps _ _ _ _ h
        intro path t hClean
        let own : Frame :=
          ⟨path, zOrder.getD frame.zOrder, frame.callers⟩
        have hOwn : own.Sound e.script depth := hSound.on _ _
        exact hInline.cleanIff own hFunction hNew hOwn hClean
      · simp only [callee_eq_ok_iff, Allows, and_assoc]

theorem cleanIff_statements
    (hInline : Decides e depth inline)
    (hSound : frame.Sound e.script depth)
    (h : s.Clean)
    (scope : Nat)
    (labels : List String)
    (sts : List Statement) :
    CleanIff
      (∀ st ∈ sts,
        e.Allows (e.Admits depth frame.callers) frame.callers
          st.action)
      (Meaning.workByAll e.script
        (Meaning.work e.script depth) sts)
      s (statements e inline frame scope labels sts s) := by
  induction sts generalizing labels s with
  | nil => exact h.cleanIff_nothing.of_iff (by simp) rfl
  | cons st sts ih =>
      rw [statements_cons_of_clean h]
      have hFirst := cleanIff_statement hInline hSound h
        scope labels st
      refine (hFirst.trans (fun h => ih h _)
        (keeps_statements hInline.keeps frame scope _ sts
          _)).of_iff ?_ rfl
      simp only [List.forall_mem_cons]

/- The condition and the cost of a body, at every depth. -/
theorem decides_body
    (e : Expander)
    (depth : Nat) :
    Decides e depth (body e depth) := by
  induction depth with
  | zero =>
      refine ⟨keeps_body 0, ?_⟩
      intro frame f s _ _ hSound
      exact absurd hSound.depth_pos (Nat.lt_irrefl 0)
  | succ depth ih =>
      refine ⟨keeps_body (depth + 1), ?_⟩
      intro frame f s hFunction hNew hSound h
      let inner : Frame :=
        { frame with callers := f.name.text :: frame.callers }
      have hCharge :=
        Expansion.cleanIff_charge h e.source f.span
      have hBody : ∀ t : Expansion, t.Clean →
          CleanIff (e.Admits (depth + 1) frame.callers f)
            (Meaning.workByAll e.script
              (Meaning.work e.script depth) f.body) t
            (statements e (body e depth) inner t.nextScope []
              f.body
              { t with nextScope := t.nextScope + 1 }) := by
        intro t ht
        have hOpened :
            Clean { t with nextScope := t.nextScope + 1 } :=
          ⟨ht.noErrors, ht.running, ht.work_le, ht.warned⟩
        have hAll := cleanIff_statements ih
          (hSound.push hFunction hNew) hOpened t.nextScope []
          f.body
        exact ⟨hAll.necessary, hAll.sufficient⟩
      refine (hCharge.trans (Q := e.Admits (depth + 1)
        frame.callers f) ?_ ?_).of_iff (true_and _).to_iff rfl
      · intro hClean
        rw [body_of_running hClean.running]
        exact hBody _ hClean
      · exact errors_charge_le_body ih.keeps f frame s

/- When a whole run ends without errors. -/
theorem errors_run_eq_zero_iff
    (e : Expander) :
    e.run.errors = 0 ↔
      ∃ start,
        e.script.find? Script.entryName = some start ∧
          e.Admits e.maxDepth [] start ∧
          Meaning.work e.script e.maxDepth start + 2 ≤
            ExpandFault.maxWork := by
  cases hFind : e.script.find? Script.entryName with
  | none =>
      rw [run_of_missing hFind]
      constructor
      · intro hErrors
        exact absurd hErrors
          (Expansion.errors_report_ne_zero
            Expansion.clean_initial.warned _ _ _)
      · rintro ⟨start, hStart, -⟩
        cases hStart
  | some start =>
      have hDecides := decides_body e e.maxDepth
      have hInline (path : Nat) (t : Expansion)
          (hClean : t.Clean) :
          CleanIff (e.Admits e.maxDepth [] start)
            (Meaning.work e.script e.maxDepth start) t
            (body e e.maxDepth start ⟨path, 0, []⟩ t) :=
        hDecides.cleanIff ⟨path, 0, []⟩
          (List.mem_of_find?_eq_some hFind) List.not_mem_nil
          (Frame.sound_nil e.script path 0) hClean
      have hSpawn := cleanIff_spawn (e := e) hDecides.keeps
        hInline none 0 start.span Expansion.clean_initial
      rw [run_of_start hFind]
      constructor
      · intro hErrors
        rcases hSpawn.necessary hErrors
          with ⟨hAdmits, hClean, hPaid⟩
        have hLe := hClean.work_le
        refine ⟨start, rfl, hAdmits, ?_⟩
        rw [hPaid] at hLe
        simpa using hLe
      · rintro ⟨_, ⟨⟩, hAdmits, hWork⟩
        exact hSpawn.sufficient hAdmits (by simpa using hWork)

end Expander

end LightShow
