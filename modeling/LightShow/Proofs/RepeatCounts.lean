import LightShow.Proofs.Findings
import LightShow.Proofs.PairedRuns

/-
  Diagnostics do not depend on how often calls repeat.

  The findings of a script do not mention how often a body is
  inlined, so two scripts that differ in their counts alone
  have the same ones, and with work left their expansions
  report the same. No expansion reports two diagnostics of
  one code at one place, whether work is left or not.

  Key definitions include:
    * `Log.Lists`
    * `Tally.Distinct`

  Main statements:
    * `Expander.findings_once`
    * `Expander.distinct_run`
    * `Script.diagnostics_ignore_counts`
-/

namespace LightShow

------------------------------------------------------------
-- Findings Without Counts
------------------------------------------------------------

/- Calling once changes no function that a call names. -/
@[simp] theorem Action.callee?_once
    (a : Action) :
    a.once.callee? = a.callee? := by
  cases a <;> rfl

namespace Script

@[simp] theorem find?_once
    (script : Script)
    (name : String) :
    script.once.find? name =
      (script.find? name).map Function.once := by
  rw [find?, once, List.find?_map]
  rfl

end Script

namespace Expander

/- The same expansion with all calls made once. -/
def once (e : Expander) : Expander :=
  { e with script := e.script.once }

variable {e : Expander}

theorem calleeOf_once
    (callers : List String)
    (name : Name) :
    e.once.calleeOf callers name =
      (e.calleeOf callers name).map Function.once := by
  have hFind :
      e.once.script.find? name.text =
        (e.script.find? name.text).map Function.once :=
    e.script.find?_once name.text
  unfold calleeOf callee
  rw [hFind]
  cases e.script.find? name.text with
  | none => rfl
  | some f =>
      simp only [Option.map_some]
      have hName : f.once.name = f.name := rfl
      rw [hName]
      split <;> rfl

theorem findingOf_once
    (callers : List String)
    (name : Name) :
    e.once.findingOf (e.once.calleeOf callers name) =
      e.findingOf (e.calleeOf callers name) := by
  rw [calleeOf_once]
  cases e.calleeOf callers name <;> rfl

theorem findingsAt_once
    (callers labels : List String)
    (st : Statement) :
    e.once.findingsAt callers labels st.once =
      e.findingsAt callers labels st := by
  rcases st with ⟨action, span⟩
  cases action with
  | call name count => exact findingOf_once callers name
  | callAsync name zOrder => exact findingOf_once callers name
  | _ => rfl

theorem labelsAfter_once
    (labels : List String)
    (st : Statement) :
    labelsAfter labels st.once = labelsAfter labels st := by
  rcases st with ⟨action, span⟩
  cases action <;> rfl

theorem findingsInside_once
    {inner inner' : Function → List (List Diagnostic)}
    (hInner : ∀ f : Function, inner' f.once = inner f)
    (callers : List String)
    (st : Statement) :
    e.once.findingsInside inner' callers st.once =
      e.findingsInside inner callers st := by
  have hCallee : st.once.action.callee? = st.action.callee? :=
    Action.callee?_once st.action
  unfold findingsInside
  rw [hCallee]
  cases st.action.callee? with
  | none => rfl
  | some name =>
      simp only [calleeOf_once]
      cases e.calleeOf callers name with
      | error x => rfl
      | ok f => exact hInner f

theorem findingsOfAll_once
    {inner inner' : Function → List (List Diagnostic)}
    (hInner : ∀ f : Function, inner' f.once = inner f)
    (callers labels : List String)
    (sts : List Statement) :
    e.once.findingsOfAll inner' callers labels
        (sts.map Statement.once) =
      e.findingsOfAll inner callers labels sts := by
  induction sts generalizing labels with
  | nil => rfl
  | cons st sts ih =>
      simp only [List.map_cons, findingsOfAll, findingsAt_once,
        findingsInside_once hInner, labelsAfter_once, ih]

theorem findingsOf_once
    (depth : Nat)
    (callers : List String)
    (f : Function) :
    e.once.findingsOf depth callers f.once =
      e.findingsOf depth callers f := by
  induction depth generalizing callers f with
  | zero => rfl
  | succ depth ih =>
      exact findingsOfAll_once (ih (f.name.text :: callers)) _
        _ f.body

/- How often calls repeat is no part of the findings. -/
theorem findings_once
    (e : Expander) :
    e.once.findings = e.findings := by
  have hFind :
      e.once.script.find? Script.entryName =
        (e.script.find? Script.entryName).map Function.once :=
    e.script.find?_once Script.entryName
  have hDepth : e.once.maxDepth = e.maxDepth := by
    simp [maxDepth, once, Script.once]
  unfold findings
  rw [hFind, hDepth]
  cases e.script.find? Script.entryName with
  | none => rfl
  | some start => exact findingsOf_once _ _ start

end Expander

------------------------------------------------------------
-- No Two Reports Of One Key
------------------------------------------------------------

/-
  A log of some errors, of which it stores the first ones,
  and some warnings.
-/
structure Log.Lists
    (log : Log)
    (errors warnings : List Diagnostic) : Prop where
  errors_eq : log.errors = errors.take Log.capacity
  totalErrors_eq : log.totalErrors = errors.length
  warnings_eq : log.warnings = warnings
  totalWarnings_eq : log.totalWarnings = warnings.length

namespace Log

theorem lists_empty : empty.Lists [] [] :=
  ⟨rfl, rfl, rfl, rfl⟩

variable {log : Log}
variable {errors warnings : List Diagnostic}

theorem Lists.pushError
    (h : log.Lists errors warnings)
    (d : Diagnostic) :
    (log.pushError d).Lists (errors ++ [d]) warnings where
  errors_eq := by
    unfold Log.pushError
    rw [h.errors_eq, List.length_take]
    by_cases hRoom : errors.length < capacity
    · have hStored :
          min capacity errors.length < capacity := by
        omega
      have hMore : (errors ++ [d]).length ≤ capacity := by
        rw [List.length_append]
        exact hRoom
      rw [if_pos hStored,
        List.take_of_length_le (Nat.le_of_lt hRoom),
        List.take_of_length_le hMore]
    · have hFull : capacity ≤ errors.length :=
        Nat.le_of_not_lt hRoom
      rw [Nat.min_eq_left hFull, if_neg (Nat.lt_irrefl _),
        List.take_append_of_le_length hFull]
  totalErrors_eq := by
    simp [Log.pushError, h.totalErrors_eq]
  warnings_eq := h.warnings_eq
  totalWarnings_eq := h.totalWarnings_eq

theorem Lists.pushWarning
    (h : log.Lists errors warnings)
    (d : Diagnostic) :
    (log.pushWarning d).Lists errors (warnings ++ [d]) where
  errors_eq := h.errors_eq
  totalErrors_eq := h.totalErrors_eq
  warnings_eq := by simp [Log.pushWarning, h.warnings_eq]
  totalWarnings_eq := by
    simp [Log.pushWarning, h.totalWarnings_eq]

/- Stored diagnostics are some of all that were counted. -/
theorem Lists.sublist
    (h : log.Lists errors warnings) :
    (log.errors ++ log.warnings).Sublist
      (errors ++ warnings) := by
  rw [h.errors_eq, h.warnings_eq]
  exact (List.take_sublist ..).append (.refl _)

end Log

namespace Tally

/- All that was reported has a key of its own. -/
def Distinct (t : Tally) : Prop :=
  ∃ errors warnings,
    t.log.Lists errors warnings ∧
      t.reported.Perm
        ((errors ++ warnings).map Diagnostic.key) ∧
      t.reported.Nodup

theorem distinct_empty : Distinct {} :=
  ⟨[], [], Log.lists_empty, .nil, List.nodup_nil⟩

/- A key that is added is a new one. -/
theorem Distinct.add
    {t : Tally}
    (h : t.Distinct)
    (d : Diagnostic) :
    (t.add d).Distinct := by
  rcases h with ⟨errors, warnings, hLog, hKeys, hNodup⟩
  unfold Tally.add
  split
  · exact ⟨errors, warnings, hLog, hKeys, hNodup⟩
  · rename_i hNew
    have hMore : (d.key :: t.reported).Nodup :=
      List.nodup_cons.mpr ⟨by simpa using hNew, hNodup⟩
    have hFront :
        (d.key :: t.reported).Perm
          ((d :: (errors ++ warnings)).map Diagnostic.key) :=
      hKeys.cons d.key
    unfold Log.push
    split
    · refine ⟨_, _, hLog.pushError d, hFront.trans ?_, hMore⟩
      rw [List.append_assoc, List.singleton_append]
      exact List.perm_middle.symm.map _
    · refine ⟨_, _, hLog.pushWarning d, hFront.trans ?_, hMore⟩
      rw [← List.append_assoc]
      exact (List.perm_append_singleton d _).symm.map _

end Tally

/- Whatever is reported in a run, its keys stay distinct. -/
theorem Expander.distinct_run
    (e : Expander) :
    e.run.tally.Distinct := by
  refine reports_run
    (Q := fun log reported => Tally.Distinct ⟨log, reported⟩)
    (fun s fault span h => ?_) (fun s label span h => ?_)
    Tally.distinct_empty
  · show (s.report e.source fault span).tally.Distinct
    rw [Expansion.tally_report e (fault, span)]
    exact Tally.Distinct.add h _
  · show (s.warnLabel e.source label span).tally.Distinct
    rw [Expansion.tally_warnLabel]
    exact Tally.Distinct.add h _

------------------------------------------------------------
-- Two Scripts That Differ In Counts
------------------------------------------------------------

namespace Script

/- The diagnostics are those of the run. -/
theorem diagnostics_eq
    (script : Script)
    (source : SourceText)
    (device : Device) :
    script.diagnostics source device =
      (Expander.run ⟨script, source, device⟩).log := by
  unfold diagnostics expand
  simp only
  by_cases hErrors :
      (Expander.run ⟨script, source, device⟩).log.hasErrors =
        true
  · rw [if_pos hErrors]
  · rw [if_neg hErrors]

/-
  Scripts that differ in how often calls repeat give the same
  diagnostics, as long as every call inlines its function and
  work is left in the end. For any script, no two diagnostics
  that are reported have the same code and place, neither the
  stored ones nor those that are only counted.
-/
theorem diagnostics_ignore_counts
    (source : SourceText)
    (device : Device) :
    (∀ script other : Script,
      script.once = other.once →
      script.CallsInline → other.CallsInline →
      (Expander.run ⟨script, source, device⟩).exhausted =
        false →
      (Expander.run ⟨other, source, device⟩).exhausted =
        false →
      script.diagnostics source device =
        other.diagnostics source device) ∧
      ∀ script : Script,
        let log := script.diagnostics source device
        ∃ errors warnings,
          log.Lists errors warnings ∧
            ((errors ++ warnings).map
              Diagnostic.key).Nodup ∧
            ((log.errors ++ log.warnings).map
              Diagnostic.key).Nodup := by
  constructor
  · intro script other hSame hScript hOther hRun hOtherRun
    have hFindings :
        Expander.findings ⟨script, source, device⟩ =
          Expander.findings ⟨other, source, device⟩ := by
      rw [← Expander.findings_once ⟨script, source, device⟩,
        ← Expander.findings_once ⟨other, source, device⟩]
      simp only [Expander.once, hSame]
    have hTally := Expander.tally_run
      (e := ⟨script, source, device⟩) hScript hRun
    have hOtherTally := Expander.tally_run
      (e := ⟨other, source, device⟩) hOther hOtherRun
    rw [hFindings, ← hOtherTally] at hTally
    rw [diagnostics_eq, diagnostics_eq]
    exact congrArg Tally.log hTally
  · intro script log
    rcases Expander.distinct_run ⟨script, source, device⟩
      with ⟨errors, warnings, hLog, hKeys, hNodup⟩
    have hLists : log.Lists errors warnings := by
      show (script.diagnostics source device).Lists _ _
      rw [diagnostics_eq]
      exact hLog
    have hAll := hKeys.nodup_iff.mp hNodup
    exact ⟨errors, warnings, hLists, hAll,
      (hLists.sublist.map Diagnostic.key).nodup hAll⟩

/- Statements that all need an LED that is not there. -/
def faultyLines (first count : Nat) : List Statement :=
  (List.range count).map fun i =>
    ⟨.glow ⟨[9], .point (first + i) 1⟩ ⟨1, 2, 3, 4⟩,
      .point (first + i) 1⟩

/-
  A doubled label and more faults than a log stores, the last
  two of them in one statement, with two counts left open.
-/
def flawed (outer inner : Nat) : Script where
  functions :=
    [⟨⟨entryName, .point 1 1⟩,
      [⟨.call ⟨"outer", .point 2 1⟩ outer, .point 2 1⟩,
       ⟨.callAsync ⟨"inner", .point 3 1⟩ none, .point 3 1⟩],
      .point 1 1⟩,
     ⟨⟨"outer", .point 4 1⟩,
      [⟨.here ⟨"top", .point 5 1⟩, .point 5 1⟩,
       ⟨.here ⟨"top", .point 6 1⟩, .point 6 1⟩,
       ⟨.call ⟨"inner", .point 7 1⟩ inner, .point 7 1⟩],
      .point 4 1⟩,
     ⟨⟨"inner", .point 8 1⟩,
      faultyLines 9 19 ++
        [⟨.ramp ⟨[9], .point 28 1⟩ ⟨0, 0, 0, 0⟩ ⟨1, 2, 3, 4⟩
            ⟨1200, .hours, .point 28 9⟩, .point 28 1⟩] ++
        faultyLines 29 2,
      .point 8 1⟩]

theorem callsInline_flawed
    {outer inner : Nat}
    (hOuter : outer ≠ 0)
    (hInner : inner ≠ 0) :
    (flawed outer inner).CallsInline := by
  intro f hf st hst name count hAction
  simp only [flawed, List.mem_cons, List.not_mem_nil,
    or_false] at hf
  rcases hf with rfl | rfl | rfl
  · simp only [List.mem_cons, List.not_mem_nil, or_false]
      at hst
    rcases hst with rfl | rfl <;> cases hAction
    exact hOuter
  · simp only [List.mem_cons, List.not_mem_nil, or_false]
      at hst
    rcases hst with rfl | rfl | rfl <;> cases hAction
    exact hInner
  · simp only [faultyLines, List.mem_append, List.mem_map,
      List.mem_cons, List.not_mem_nil, or_false] at hst
    rcases hst with (⟨_, _, rfl⟩ | rfl) | ⟨_, _, rfl⟩ <;>
      cases hAction

def eightLeds : Device :=
  { ledCount := 8 }

/- The last statement that is expanded has two faults. -/
theorem diagnostics_ignore_counts_flawed :
    (flawed 3 2).once = (flawed 1 4).once ∧
      (flawed 3 2).CallsInline ∧ (flawed 1 4).CallsInline ∧
      (Expander.run
        ⟨flawed 3 2, ⟨"x", ""⟩, eightLeds⟩).exhausted =
          false ∧
      (Expander.run
        ⟨flawed 1 4, ⟨"x", ""⟩, eightLeds⟩).exhausted =
          false ∧
      (flawed 3 2).diagnostics ⟨"x", ""⟩ eightLeds =
        (flawed 1 4).diagnostics ⟨"x", ""⟩ eightLeds ∧
      ((flawed 1 4).diagnostics ⟨"x", ""⟩
        eightLeds).totalErrors = 21 ∧
      ((flawed 1 4).diagnostics ⟨"x", ""⟩
        eightLeds).totalWarnings = 1 := by
  have hSame : (flawed 3 2).once = (flawed 1 4).once := rfl
  have hFirst : (flawed 3 2).CallsInline :=
    callsInline_flawed (by decide) (by decide)
  have hSecond : (flawed 1 4).CallsInline :=
    callsInline_flawed (by decide) (by decide)
  have hRun :
      (Expander.run
        ⟨flawed 3 2, ⟨"x", ""⟩, eightLeds⟩).exhausted =
          false := by
    decide +kernel
  have hOtherRun :
      (Expander.run
        ⟨flawed 1 4, ⟨"x", ""⟩, eightLeds⟩).exhausted =
          false := by
    decide +kernel
  have hReports :=
    (diagnostics_ignore_counts ⟨"x", ""⟩ eightLeds).1
      (flawed 3 2) (flawed 1 4) hSame hFirst hSecond hRun
      hOtherRun
  exact ⟨hSame, hFirst, hSecond, hRun, hOtherRun, hReports,
    by decide +kernel, by decide +kernel⟩

end Script

end LightShow
