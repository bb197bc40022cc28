import Mathlib.Data.List.Basic
import LightShow.Proofs.Expansion

/-
  Numbers of paths and label scopes.

  Activations and copies come in the order of their numbers,
  without gaps, and neither depends on the depth as long as
  all chains of calls fit in.

  Main statements:
    * `Meaning.activations_instructions`
    * `Meaning.scopes_copies`
    * `Meaning.eq_of_fits`
    * `Script.expand_follows_meaning`
-/

namespace LightShow

namespace Meaning

------------------------------------------------------------
-- Numbers In A Row
------------------------------------------------------------

/- Equal parts in a row number one longer row. -/
theorem flatMap_range'
    (start size count : Nat) :
    ((List.range count).flatMap fun i =>
        List.range' (start + i * size) size) =
      List.range' start (count * size) := by
  induction count with
  | zero => simp
  | succ count ih =>
      rw [List.range_succ, List.flatMap_append, ih,
        Nat.succ_mul, ← List.range'_append_1]
      simp

theorem activations_append
    (is js : List Instruction) :
    activations (is ++ js) =
      activations is ++ activations js :=
  List.filterMap_append

/- An activated path is numbered before those of its body. -/
theorem activations_activated
    {body : Site → List Instruction}
    {paths : Nat}
    (hBody : ∀ site,
      activations (body site) =
        List.range' site.next.paths paths)
    (caller : Option Nat)
    (callerZ zOrder : Nat)
    (span : Span)
    (next : Numbers) :
    activations
        (activated body caller callerZ zOrder span next) =
      List.range' next.paths (paths + 1) := by
  simp only [activated]
  rw [activations_append, List.range'_succ]
  have hFirst := hBody
    ⟨next.paths, zOrder, next.add ⟨1, 0⟩⟩
  simp only [activations, List.filterMap_cons] at hFirst ⊢
  rw [hFirst]
  simp [emit, Numbers.add]

variable {script : Script}
variable {tick : Nat}
variable {size : Function → Numbers}

/- The paths that one statement activates. -/
theorem activations_ofStatement
    {body : Function → Site → List Instruction}
    (hBody : ∀ f site,
      activations (body f site) =
        List.range' site.next.paths (size f).paths)
    (scope : Nat)
    (st : Statement)
    (site : Site) :
    activations
        (ofStatement script tick size body scope st site) =
      List.range' site.next.paths
        (usedBy script size st.action).paths := by
  rcases st with ⟨action, span⟩
  cases action with
  | call name count =>
      cases hFind : script.find? name.text with
      | none =>
          simp [ofStatement, usedBy, hFind, activations,
            Numbers.times, Numbers.zero]
      | some f =>
          have hTimes := flatMap_range' site.next.paths
            (size f).paths count
          simp only [ofStatement, usedBy, hFind, activations,
            List.filterMap_flatMap] at hBody ⊢
          simp only [hBody]
          exact hTimes
  | callAsync name zOrder =>
      cases hFind : script.find? name.text with
      | none =>
          simp [ofStatement, usedBy, hFind, activations,
            Numbers.zero]
      | some f =>
          simp only [ofStatement, usedBy, hFind]
          exact activations_activated (hBody f) _ _ _ _ _
  | _ =>
      simp [ofStatement, usedBy, activations, emit,
        Numbers.zero]

theorem activations_ofStatements
    {body : Function → Site → List Instruction}
    (hBody : ∀ f site,
      activations (body f site) =
        List.range' site.next.paths (size f).paths)
    (scope : Nat)
    (sts : List Statement)
    (site : Site) :
    activations
        (ofStatements script tick size body scope sts site) =
      List.range' site.next.paths
        (usedByAll script size sts).paths := by
  induction sts generalizing site with
  | nil => rfl
  | cons st sts ih =>
      rw [ofStatements, activations_append,
        activations_ofStatement hBody, ih]
      exact List.range'_append_1

/- Activations come in the order of their paths. -/
theorem activations_instructions
    (script : Script)
    (tick depth : Nat)
    (f : Function)
    (site : Site) :
    activations (instructions script tick depth f site) =
      List.range' site.next.paths
        (used script depth f).paths := by
  induction depth generalizing f site with
  | zero => rfl
  | succ depth ih =>
      exact activations_ofStatements ih _ _ _

/- The scopes of what one action inlines. -/
theorem scopes_calls
    {body : Function → Site → List Copy}
    (hBody : ∀ f site,
      (body f site).map Copy.scope =
        List.range' site.next.scopes (size f).scopes)
    (site : Site)
    (action : Action) :
    ((calls script size site action).flatMap fun x =>
        body x.1 x.2).map Copy.scope =
      List.range' site.next.scopes
        (usedBy script size action).scopes := by
  cases action with
  | call name count =>
      cases hFind : script.find? name.text with
      | none =>
          simp [calls, usedBy, hFind, Numbers.times,
            Numbers.zero]
      | some f =>
          have hTimes := flatMap_range' site.next.scopes
            (size f).scopes count
          simp only [calls, usedBy, hFind, List.flatMap_map,
            List.map_flatMap, hBody]
          exact hTimes
  | callAsync name zOrder =>
      cases hFind : script.find? name.text with
      | none =>
          simp [calls, usedBy, hFind, Numbers.zero]
      | some f =>
          simp [calls, usedBy, hFind, hBody, Numbers.add]
  | _ => simp [calls, usedBy, Numbers.zero]

theorem scopes_callsOfAll
    {body : Function → Site → List Copy}
    (hBody : ∀ f site,
      (body f site).map Copy.scope =
        List.range' site.next.scopes (size f).scopes)
    (sts : List Statement)
    (site : Site) :
    ((callsOfAll script size sts site).flatMap fun x =>
        body x.1 x.2).map Copy.scope =
      List.range' site.next.scopes
        (usedByAll script size sts).scopes := by
  induction sts generalizing site with
  | nil => rfl
  | cons st sts ih =>
      rw [callsOfAll, List.flatMap_append, List.map_append,
        scopes_calls hBody, ih]
      exact List.range'_append_1

/- Copies come in the order of their scopes. -/
theorem scopes_copies
    (script : Script)
    (depth : Nat)
    (f : Function)
    (site : Site) :
    (copies script depth f site).map Copy.scope =
      List.range' site.next.scopes
        (used script depth f).scopes := by
  induction depth generalizing f site with
  | zero => rfl
  | succ depth ih =>
      rw [copies, List.map_cons, scopes_callsOfAll ih]
      exact List.range'_succ.symm

------------------------------------------------------------
-- Deep Enough
------------------------------------------------------------

/- Only the bodies that an action inlines matter to it. -/
theorem usedBy_congr
    {size size' : Function → Numbers}
    {action : Action}
    (h : ∀ g ∈ callees script action, size g = size' g) :
    usedBy script size action =
      usedBy script size' action := by
  cases action with
  | call name count =>
      by_cases hCount : count = 0
      · simp [usedBy, hCount]
      · cases hFind : script.find? name.text with
        | none => simp [usedBy, hFind]
        | some f =>
            simp [usedBy, hFind,
              h f (by simp [callees, hCount, hFind])]
  | callAsync name zOrder =>
      cases hFind : script.find? name.text with
      | none => simp [usedBy, hFind]
      | some f =>
          simp [usedBy, hFind,
            h f (by simp [callees, hFind])]
  | _ => rfl

theorem ofStatement_congr
    {size size' : Function → Numbers}
    {body body' : Function → Site → List Instruction}
    {st : Statement}
    (hSize :
      ∀ g ∈ callees script st.action, size g = size' g)
    (hBody :
      ∀ g ∈ callees script st.action, body g = body' g)
    (scope : Nat)
    (site : Site) :
    ofStatement script tick size body scope st site =
      ofStatement script tick size' body' scope st site := by
  rcases st with ⟨action, span⟩
  cases action with
  | call name count =>
      by_cases hCount : count = 0
      · simp [ofStatement, hCount]
      · cases hFind : script.find? name.text with
        | none => simp [ofStatement, hFind]
        | some f =>
            have hMem :
                f ∈ callees script (.call name count) := by
              simp [callees, hCount, hFind]
            simp [ofStatement, hFind, hSize f hMem,
              hBody f hMem]
  | callAsync name zOrder =>
      cases hFind : script.find? name.text with
      | none => simp [ofStatement, hFind]
      | some f =>
          have hMem :
              f ∈ callees script
                (.callAsync name zOrder) := by
            simp [callees, hFind]
          simp [ofStatement, hFind, hBody f hMem]
  | _ => rfl

theorem calls_congr
    {size size' : Function → Numbers}
    {action : Action}
    (h : ∀ g ∈ callees script action, size g = size' g)
    (site : Site) :
    calls script size site action =
      calls script size' site action := by
  cases action with
  | call name count =>
      by_cases hCount : count = 0
      · simp [calls, hCount]
      · cases hFind : script.find? name.text with
        | none => simp [calls, hFind]
        | some f =>
            simp [calls, hFind,
              h f (by simp [callees, hCount, hFind])]
  | _ => rfl

/- What is called at some place is called at all. -/
theorem mem_callees_of_mem_calls
    {site : Site}
    {action : Action}
    {x : Function × Site}
    (h : x ∈ calls script size site action) :
    x.1 ∈ callees script action := by
  cases action with
  | call name count =>
      cases hFind : script.find? name.text with
      | none => simp [calls, hFind] at h
      | some f =>
          simp only [calls, hFind, List.mem_map,
            List.mem_range] at h
          rcases h with ⟨i, hi, rfl⟩
          simp [callees, hFind, Nat.ne_zero_of_lt hi]
  | callAsync name zOrder =>
      cases hFind : script.find? name.text with
      | none => simp [calls, hFind] at h
      | some f =>
          simp only [calls, hFind, List.mem_singleton] at h
          simp [callees, hFind, h]
  | _ => cases h

/- The same for statements in a row. -/
section Statements

variable {size' : Function → Numbers}
variable {sts : List Statement}

theorem usedByAll_congr
    (h : ∀ st ∈ sts, ∀ g ∈ callees script st.action,
      size g = size' g) :
    usedByAll script size sts =
      usedByAll script size' sts := by
  induction sts with
  | nil => rfl
  | cons st sts ih =>
      rcases List.forall_mem_cons.mp h with ⟨hFirst, hRest⟩
      simp only [usedByAll, List.foldr_cons] at ih ⊢
      rw [usedBy_congr hFirst, ih hRest]

theorem ofStatements_congr
    {body body' : Function → Site → List Instruction}
    (hSize : ∀ st ∈ sts, ∀ g ∈ callees script st.action,
      size g = size' g)
    (hBody : ∀ st ∈ sts, ∀ g ∈ callees script st.action,
      body g = body' g)
    (scope : Nat)
    (site : Site) :
    ofStatements script tick size body scope sts site =
      ofStatements script tick size' body' scope sts
        site := by
  induction sts generalizing site with
  | nil => rfl
  | cons st sts ih =>
      rcases List.forall_mem_cons.mp hSize
        with ⟨hSize, hSizes⟩
      rcases List.forall_mem_cons.mp hBody
        with ⟨hBody, hBodies⟩
      rw [ofStatements, ofStatements,
        ofStatement_congr hSize hBody, usedBy_congr hSize,
        ih hSizes hBodies]

theorem callsOfAll_congr
    (h : ∀ st ∈ sts, ∀ g ∈ callees script st.action,
      size g = size' g)
    (site : Site) :
    callsOfAll script size sts site =
      callsOfAll script size' sts site := by
  induction sts generalizing site with
  | nil => rfl
  | cons st sts ih =>
      rcases List.forall_mem_cons.mp h with ⟨hFirst, hRest⟩
      rw [callsOfAll, callsOfAll, calls_congr hFirst,
        usedBy_congr hFirst, ih hRest]

theorem mem_callees_of_mem_callsOfAll
    {site : Site}
    {x : Function × Site}
    (h : x ∈ callsOfAll script size sts site) :
    ∃ st ∈ sts, x.1 ∈ callees script st.action := by
  induction sts generalizing site with
  | nil => cases h
  | cons st sts ih =>
      rcases List.mem_append.mp h with hFirst | hRest
      · exact ⟨st, List.mem_cons_self ..,
          mem_callees_of_mem_calls hFirst⟩
      · rcases ih hRest with ⟨st', hMem, hCallee⟩
        exact ⟨st', List.mem_cons_of_mem st hMem, hCallee⟩

end Statements

/- Beyond the longest chain of calls, depth is no matter. -/
theorem eq_of_fits
    (tick : Nat)
    {depth deeper : Nat}
    {f : Function}
    (h : Fits script depth f)
    (hLe : depth ≤ deeper) :
    used script deeper f = used script depth f ∧
      instructions script tick deeper f =
        instructions script tick depth f ∧
      copies script deeper f = copies script depth f := by
  induction depth generalizing f deeper with
  | zero => cases h
  | succ depth ih =>
      rcases Nat.exists_eq_add_of_le' (Nat.le_trans
        (Nat.le_add_left 1 depth) hLe)
        with ⟨deeper, rfl⟩
      have hEach :
          ∀ st ∈ f.body, ∀ g ∈ callees script st.action,
            used script deeper g = used script depth g ∧
              instructions script tick deeper g =
                instructions script tick depth g ∧
              copies script deeper g =
                copies script depth g :=
        fun st hst g hg =>
          ih (h st hst g hg) (Nat.le_of_succ_le_succ hLe)
      have hSize := fun st hst g hg => (hEach st hst g hg).1
      have hBody := fun st hst g hg => (hEach st hst g hg).2.1
      refine ⟨?_, ?_, ?_⟩
      · rw [used, used, usedByAll_congr hSize]
      · funext site
        rw [instructions, instructions,
          ofStatements_congr hSize hBody]
      · funext site
        rw [copies, copies, callsOfAll_congr hSize]
        congr 1
        apply List.flatMap_congr
        intro x hx
        rcases mem_callees_of_mem_callsOfAll hx
          with ⟨st, hst, hx⟩
        rw [(hEach st hst x.1 hx).2.2]

end Meaning

------------------------------------------------------------
-- Whole Scripts
------------------------------------------------------------

namespace Script

section Expanded

variable {script : Script}
variable {source : SourceText}
variable {device : Device}
variable {expanded : Expanded}

/- A script that expands does so without errors. -/
theorem expand_eq_ok
    (h : script.expand source device = .ok expanded) :
    (Expander.run ⟨script, source, device⟩).errors = 0 ∧
      expanded.instructions =
        (Expander.run
          ⟨script, source, device⟩).emitted.toList := by
  unfold expand at h
  simp only at h
  split at h
  · cases h
  · rename_i hErrors
    cases h
    refine ⟨?_, rfl⟩
    simpa [Log.hasErrors, Expansion.errors] using hErrors

/- A script that expands yields its meaning. -/
theorem expand_yields
    (h : script.expand source device = .ok expanded) :
    ∃ start,
      script.find? entryName = some start ∧
        Meaning.Fits script (script.functions.length + 1)
          start ∧
        ∀ depth, script.functions.length < depth →
          Expansion.Yields expanded.instructions
              ((Meaning.used script depth start).add ⟨1, 0⟩)
              {} (Expander.run ⟨script, source, device⟩) ∧
            expanded.instructions =
              Meaning.activated
                (Meaning.instructions script
                  device.tickMillis depth start)
                none 0 0 start.span .zero := by
  rcases expand_eq_ok h with ⟨hErrors, hEmitted⟩
  rcases Expander.run_yields _ hErrors
    with ⟨start, hFind, hFits, hYields⟩
  refine ⟨start, hFind, hFits, ?_⟩
  intro depth hDepth
  rcases Meaning.eq_of_fits device.tickMillis hFits hDepth
    with ⟨hUsed, hInstructions, -⟩
  rw [← hUsed, ← hInstructions] at hYields
  have hIs := hEmitted.trans hYields.emitted
  exact ⟨hIs ▸ hYields, hIs⟩

/-
  Whatever a script expands to is what it means, at every
  depth that its functions can need. Paths and scopes are
  numbered in the order of activations and copies, and there
  are few enough of both.
-/
theorem expand_follows_meaning
    (h : script.expand source device = .ok expanded) :
    ∃ start,
      script.find? entryName = some start ∧
        ∀ depth, script.functions.length < depth →
          let is := expanded.instructions
          let copies :=
            Meaning.copies script depth start firstSite
          let final := Expander.run ⟨script, source, device⟩
          is =
              Meaning.activated
                (Meaning.instructions script
                  device.tickMillis depth start)
                none 0 0 start.span .zero ∧
            Meaning.activations is =
              List.range final.nextPath ∧
            copies.map Meaning.Copy.scope =
              List.range final.nextScope ∧
            is.length + copies.length ≤ Nat.pow 2 24 ∧
            final.nextPath < Nat.pow 2 32 ∧
            final.nextScope < Nat.pow 2 32 := by
  rcases expand_yields h with ⟨start, hFind, -, hAll⟩
  refine ⟨start, hFind, ?_⟩
  intro depth hDepth is copies final
  rcases hAll depth hDepth with ⟨hYields, (hIs : is = _)⟩
  have hNext :
      final.next =
        (Meaning.used script depth start).add ⟨1, 0⟩ :=
    hYields.next.trans (Numbers.zero_add _)
  have hPath :
      final.nextPath =
        (Meaning.used script depth start).paths + 1 :=
    congrArg Numbers.paths hNext
  have hScope :
      final.nextScope =
        (Meaning.used script depth start).scopes :=
    congrArg Numbers.scopes hNext
  have hActivations :
      Meaning.activations is = List.range final.nextPath := by
    rw [hIs, List.range_eq_range', hPath]
    exact Meaning.activations_activated
      (Meaning.activations_instructions script
        device.tickMillis depth start) _ _ _ _ _
  have hScopes :
      copies.map Meaning.Copy.scope =
        List.range final.nextScope := by
    rw [List.range_eq_range', hScope]
    exact Meaning.scopes_copies script depth start firstSite
  have hCopies : copies.length = final.nextScope := by
    simpa using congrArg List.length hScopes
  have hPaths : final.nextPath ≤ is.length := by
    have hCount := congrArg List.length hActivations
    rw [List.length_range] at hCount
    rw [← hCount]
    exact List.length_filterMap_le _ is
  have hWork : is.length + copies.length ≤ Nat.pow 2 24 := by
    have hPaid :
        final.work =
          0 + is.length +
            (Meaning.used script depth start).scopes :=
      hYields.work
    have hLe : final.work ≤ Nat.pow 2 24 :=
      hYields.clean.work_le
    omega
  have hBound : Nat.pow 2 24 < Nat.pow 2 32 := by
    decide
  exact ⟨hIs, hActivations, hScopes, hWork, by omega,
    by omega⟩

end Expanded

------------------------------------------------------------
-- A Script With Nested Calls
------------------------------------------------------------

/- A function of some actions, wherever it stands. -/
def nestedFunction
    (name : String)
    (actions : List Action) : Function :=
  ⟨⟨name, .origin⟩, actions.map (⟨·, .origin⟩), .origin⟩

/- Calls in a row, one in another, and beside one another. -/
def nested : Script where
  functions :=
    [nestedFunction entryName
      [.call ⟨"twice", .origin⟩ 2,
       .callAsync ⟨"once", .origin⟩ (some 3),
       .callAsync ⟨"twice", .origin⟩ none],
     nestedFunction "twice"
      [.here ⟨"a", .origin⟩,
       .call ⟨"once", .origin⟩ 2,
       .goto ⟨"a", .origin⟩],
     nestedFunction "once"
      [.pause ⟨20, .millis, .origin⟩,
       .ramp ⟨[1], .origin⟩ ⟨0, 0, 0, 0⟩ ⟨1, 0, 0, 9⟩
         ⟨5, .ticks, .origin⟩]]

def nestedDevice : Device :=
  { tickMillis := 10, ledCount := 1 }

theorem expand_follows_meaning_nested :
    ∃ expanded,
      nested.expand ⟨"show", ""⟩ nestedDevice =
          .ok expanded ∧
        ∃ start,
          nested.find? entryName = some start ∧
            expanded.instructions =
              Meaning.activated
                (Meaning.instructions nested 10 4 start)
                none 0 0 start.span .zero ∧
            expanded.instructions.length +
                (Meaning.copies nested 4 start
                  firstSite).length ≤
              Nat.pow 2 24 := by
  have hOk :
      (nested.expand ⟨"show", ""⟩ nestedDevice).isOk =
        true := by
    decide +kernel
  cases h : nested.expand ⟨"show", ""⟩ nestedDevice with
  | error log =>
      rw [h] at hOk
      cases hOk
  | ok expanded =>
      rcases expand_follows_meaning h
        with ⟨start, hStart, hAll⟩
      rcases hAll 4 (by decide) with ⟨hIs, -, -, hWork, -⟩
      exact ⟨expanded, rfl, start, hStart, hIs, hWork⟩

end Script

end LightShow
