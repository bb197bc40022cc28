import LightShow.Proofs.Admission
import LightShow.Proofs.Scopes

/-
  Exactly the expandable scripts expand.

  Nested bodies have different callers, so nesting ends by
  itself. A body that is admitted has no circle of calls
  below it, since each call is admitted at a smaller depth;
  and without circles no body is ever called from itself.

  Main statements:
    * `Expander.runOver_eq_run`
    * `Script.Reachable.exists_admits`
    * `Script.Expandable.admits`
    * `Script.expands_iff_expandable`
-/

namespace LightShow

------------------------------------------------------------
-- Nesting Ends
------------------------------------------------------------

namespace Expander

variable {e : Expander}

section Congruence

variable {inline inline' : Inline}
variable {frame : Frame}

/- Only bodies that may be called matter to a statement. -/
theorem statement_congr
    (h : ∀ g path zOrder s,
      g ∈ e.script.functions →
      g.name.text ∉ frame.callers →
      inline g ⟨path, zOrder, frame.callers⟩ s =
        inline' g ⟨path, zOrder, frame.callers⟩ s)
    (scope : Nat)
    (labels : List String)
    (st : Statement)
    (s : Expansion) :
    e.statement inline frame scope labels st s =
      e.statement inline' frame scope labels st s := by
  rcases st with ⟨action, span⟩
  cases action with
  | call name count =>
      simp only [statement]
      cases hCallee : e.callee frame name with
      | error x => rfl
      | ok g =>
          rcases callee_eq_ok hCallee
            with ⟨-, hFunction, hNew⟩
          have hSame :
              inline g frame = inline' g frame := by
            funext s
            exact h g frame.path frame.zOrder s hFunction
              hNew
          simp only [attempt, hSame]
  | callAsync name zOrder =>
      simp only [statement]
      cases hCallee : e.callee frame name with
      | error x => rfl
      | ok g =>
          rcases callee_eq_ok hCallee
            with ⟨-, hFunction, hNew⟩
          simp only [attempt, spawn,
            h g _ _ _ hFunction hNew]
  | _ => rfl

theorem statements_congr
    (h : ∀ g path zOrder s,
      g ∈ e.script.functions →
      g.name.text ∉ frame.callers →
      inline g ⟨path, zOrder, frame.callers⟩ s =
        inline' g ⟨path, zOrder, frame.callers⟩ s)
    (scope : Nat)
    (labels : List String)
    (sts : List Statement)
    (s : Expansion) :
    statements e inline frame scope labels sts s =
      statements e inline' frame scope labels sts s := by
  induction sts generalizing labels s with
  | nil => rfl
  | cons st sts ih =>
      rw [statements, statements, statement_congr h]
      split
      · rfl
      · exact ih _ _

end Congruence

/- Below a sound frame the depth is never used up. -/
theorem bodyOver_eq_body
    (beyond : Inline)
    (depth : Nat)
    (frame : Frame)
    {f : Function}
    (hFunction : f ∈ e.script.functions)
    (hNew : f.name.text ∉ frame.callers)
    (hSound : frame.Sound e.script depth)
    (s : Expansion) :
    bodyOver e beyond depth f frame s =
      body e depth f frame s := by
  induction depth generalizing f frame s with
  | zero =>
      exact absurd hSound.depth_pos (Nat.lt_irrefl 0)
  | succ depth ih =>
      simp only [bodyOver, layer, body]
      split
      · rfl
      · apply statements_congr
        intro g path zOrder t hCallee hOther
        have hPushed := hSound.push hFunction hNew
        exact ih ⟨path, zOrder, f.name.text :: frame.callers⟩
          hCallee hOther (hPushed.on path zOrder) t

/- A run never gets below its depth. -/
theorem runOver_eq_run
    (e : Expander)
    (beyond : Inline) :
    e.runOver beyond = e.run := by
  cases hFind : e.script.find? Script.entryName with
  | none => simp only [runOver, run, hFind]
  | some start =>
      simp only [runOver, run, hFind, spawn]
      rw [bodyOver_eq_body beyond e.maxDepth ⟨0, 0, []⟩
        (List.mem_of_find?_eq_some hFind) List.not_mem_nil
        (Frame.sound_nil e.script 0 0)]

------------------------------------------------------------
-- What Admission Says
------------------------------------------------------------

section Allows

variable {inner : Function → Prop}
variable {callers : List String}
variable {action : Action}

theorem Allows.fitsOn
    (h : e.Allows inner callers action) :
    action.FitsOn e.device := by
  cases action with
  | call name count => trivial
  | callAsync name zOrder => trivial
  | _ => exact h

theorem Allows.exists_callee
    (h : e.Allows inner callers action)
    {name : Name}
    (hCallee : action.callee? = some name) :
    ∃ g, e.script.find? name.text = some g ∧
      g.name.text ∉ callers := by
  cases action with
  | call other count =>
      cases hCallee
      rcases h with ⟨g, hFind, hNew, -⟩
      exact ⟨g, hFind, hNew⟩
  | callAsync other zOrder =>
      cases hCallee
      rcases h with ⟨g, hFind, hNew, -⟩
      exact ⟨g, hFind, hNew⟩
  | _ => cases hCallee

theorem Allows.inner_of_mem
    (h : e.Allows inner callers action)
    {g : Function}
    (hMem : g ∈ Meaning.callees e.script action) :
    inner g := by
  cases action with
  | call name count =>
      rcases h with ⟨f, hFind, -, hInner⟩
      simp only [Meaning.callees, hFind] at hMem
      split at hMem
      · cases hMem
      · rename_i hCount
        cases List.mem_singleton.mp hMem
        exact hInner hCount
  | callAsync name zOrder =>
      rcases h with ⟨f, hFind, -, hInner⟩
      simp only [Meaning.callees, hFind] at hMem
      cases List.mem_singleton.mp hMem
      exact hInner
  | _ => cases hMem

theorem allows_of_fitsOn
    (hFits : action.FitsOn e.device)
    (hCallee : ∀ name, action.callee? = some name →
      ∃ g, e.script.find? name.text = some g ∧
        g.name.text ∉ callers ∧ inner g) :
    e.Allows inner callers action := by
  cases action with
  | call name count =>
      rcases hCallee name rfl with ⟨g, hFind, hNew, hInner⟩
      exact ⟨g, hFind, hNew, fun _ => hInner⟩
  | callAsync name zOrder => exact hCallee name rfl
  | _ => exact hFits

end Allows

end Expander

------------------------------------------------------------
-- Admitted Scripts Are Expandable
------------------------------------------------------------

namespace Script

variable {e : Expander}

/- What is called is admitted at a smaller depth. -/
theorem Calls.exists_admits
    (hInline : e.script.CallsInline)
    {f g : Function}
    {depth : Nat}
    {callers : List String}
    (hCalls : e.script.Calls f g)
    (hFunction : f ∈ e.script.functions)
    (h : e.Admits depth callers f) :
    ∃ smaller < depth, ∃ others,
      e.Admits smaller others g := by
  cases depth with
  | zero => cases h
  | succ depth =>
      rcases hCalls with ⟨st, hst, name, hCallee, hFind⟩
      have hMem := hInline.mem_callees hFunction hst hCallee
        hFind
      exact ⟨depth, Nat.lt_succ_self depth, _,
        (h st hst).inner_of_mem hMem⟩

theorem Calls.mem_functions
    {script : Script}
    {f g : Function}
    (h : script.Calls f g) :
    g ∈ script.functions := by
  rcases h with ⟨st, -, name, -, hFind⟩
  exact List.mem_of_find?_eq_some hFind

/- The same for what is called in several steps. -/
theorem exists_admits_of_transGen
    (hInline : e.script.CallsInline)
    {f g : Function}
    {depth : Nat}
    {callers : List String}
    (hChain : Relation.TransGen e.script.Calls f g)
    (hFunction : f ∈ e.script.functions)
    (h : e.Admits depth callers f) :
    g ∈ e.script.functions ∧
      ∃ smaller < depth, ∃ others,
        e.Admits smaller others g := by
  induction hChain with
  | single hCalls =>
      exact ⟨hCalls.mem_functions,
        hCalls.exists_admits hInline hFunction h⟩
  | tail _ hCalls ih =>
      rcases ih with
        ⟨hMiddle, smaller, hSmaller, others, hAdmits⟩
      rcases hCalls.exists_admits hInline hMiddle hAdmits
        with ⟨smallest, hSmallest, rest, hLast⟩
      exact ⟨hCalls.mem_functions, smallest,
        Nat.lt_trans hSmallest hSmaller, rest, hLast⟩

/- A circle of calls would go down forever. -/
theorem not_transGen_of_admits
    (hInline : e.script.CallsInline)
    {f : Function}
    (hFunction : f ∈ e.script.functions)
    {depth : Nat}
    {callers : List String}
    (h : e.Admits depth callers f) :
    ¬Relation.TransGen e.script.Calls f f := by
  intro hCircle
  induction depth using Nat.strongRecOn
    generalizing callers with
  | ind depth ih =>
      rcases exists_admits_of_transGen hInline hCircle
        hFunction h
        with ⟨-, smaller, hSmaller, others, hAdmits⟩
      exact ih smaller hSmaller hAdmits

/- Admission of the first function reaches all others. -/
theorem Reachable.exists_admits
    (hInline : e.script.CallsInline)
    {start : Function}
    {depth : Nat}
    (hStart : e.script.find? entryName = some start)
    (hAdmits : e.Admits depth [] start)
    {f : Function}
    (h : e.script.Reachable f) :
    ∃ depth callers, e.Admits (depth + 1) callers f := by
  induction h with
  | start hFind =>
      cases hStart.symm.trans hFind
      cases depth with
      | zero => cases hAdmits
      | succ depth => exact ⟨depth, [], hAdmits⟩
  | call hCaller hStatement hCallee hFind ih =>
      rcases ih with ⟨_, callers, hAdmitted⟩
      rcases Calls.exists_admits hInline
        ⟨_, hStatement, _, hCallee, hFind⟩
        hCaller.mem_functions hAdmitted
        with ⟨smaller, -, others, hInner⟩
      cases smaller with
      | zero => cases hInner
      | succ smaller => exact ⟨smaller, others, hInner⟩

------------------------------------------------------------
-- Expandable Scripts Are Admitted
------------------------------------------------------------

/- A name leads to one function only. -/
theorem eq_of_name_eq
    {script : Script}
    {f g : Function}
    (hf : script.find? f.name.text = some f)
    (hg : script.find? g.name.text = some g)
    (hName : f.name.text = g.name.text) :
    f = g := by
  rw [hName] at hf
  exact Option.some.inj (hf.symm.trans hg)

theorem find?_name
    {script : Script}
    {name : String}
    {f : Function}
    (h : script.find? name = some f) :
    script.find? f.name.text = some f := by
  have hName : f.name.text = name := by
    simpa using List.find?_some h
  rwa [hName]

theorem Reachable.find?_eq
    {script : Script}
    {f : Function}
    (h : script.Reachable f) :
    script.find? f.name.text = some f := by
  cases h with
  | start hFind => exact find?_name hFind
  | call _ _ _ hFind => exact find?_name hFind

/-
  Without circles, every body is admitted below callers that
  all lead to it.
-/
theorem Expandable.admits
    (h : e.script.Expandable e.device)
    {depth : Nat}
    {f : Function}
    {callers : List String}
    (hReachable : e.script.Reachable f)
    (hNew : f.name.text ∉ callers)
    (hSound : Frame.Sound e.script depth ⟨0, 0, callers⟩)
    (hCallers : ∀ name ∈ callers, ∃ g,
      g.name.text = name ∧
        e.script.find? g.name.text = some g ∧
        Relation.TransGen e.script.Calls g f) :
    e.Admits depth callers f := by
  induction depth generalizing f callers with
  | zero =>
      exact absurd hSound.depth_pos (Nat.lt_irrefl 0)
  | succ depth ih =>
      intro st hst
      have hOwn := hReachable.find?_eq
      apply Expander.allows_of_fitsOn
        (h.fits f hReachable st hst)
      intro name hCallee
      rcases h.known f hReachable st hst name hCallee
        with ⟨g, hFind⟩
      have hCalls : e.script.Calls f g :=
        ⟨st, hst, name, hCallee, hFind⟩
      -- The functions that lead to `g` are `f` and its own.
      have hLeads : ∀ other ∈ f.name.text :: callers, ∃ k,
          k.name.text = other ∧
            e.script.find? k.name.text = some k ∧
            Relation.TransGen e.script.Calls k g := by
        intro other hOther
        rcases List.mem_cons.mp hOther with rfl | hOther
        · exact ⟨f, rfl, hOwn, .single hCalls⟩
        · rcases hCallers other hOther
            with ⟨k, hName, hKnown, hChain⟩
          exact ⟨k, hName, hKnown, hChain.tail hCalls⟩
      have hCallee : e.script.Reachable g :=
        .call hReachable hst hCallee hFind
      have hOther : g.name.text ∉ f.name.text :: callers := by
        intro hMem
        rcases hLeads _ hMem with ⟨k, hName, hKnown, hChain⟩
        have hSame :=
          eq_of_name_eq hKnown (find?_name hFind) hName
        rw [hSame] at hChain
        exact h.acyclic g hCallee hChain
      exact ⟨g, hFind, hOther, ih hCallee hOther
        (hSound.push hReachable.mem_functions hNew) hLeads⟩

------------------------------------------------------------
-- Exact Acceptance
------------------------------------------------------------

/- The size of a script is the work of its first body. -/
theorem length_meaning_add_copies
    {script : Script}
    {device : Device}
    {start : Function}
    (hStart : script.find? entryName = some start)
    {is : List Instruction}
    (hMeaning : script.meaning device = some is) :
    is.length + script.copies.length =
      Meaning.work script (script.functions.length + 1)
        start + 2 := by
  have hCopies := congrArg List.length
    (Meaning.scopes_copies script
      (script.functions.length + 1) start firstSite)
  have hLength := Meaning.length_instructions_add script
    device.tickMillis (script.functions.length + 1) start
    firstSite
  simp only [meaning, hStart, Option.map_some,
    Option.some.injEq] at hMeaning
  rw [List.length_map, List.length_range'] at hCopies
  rw [← hMeaning, copies, hStart, Option.elim_some,
    Meaning.activated, List.length_append, List.length_cons,
    List.length_singleton, hCopies]
  have hSite :
      (⟨Numbers.zero.paths, 0, Numbers.zero.add ⟨1, 0⟩⟩ :
        Meaning.Site) = firstSite := rfl
  rw [hSite]
  omega

theorem exists_expanded_iff
    {script : Script}
    {source : SourceText}
    {device : Device} :
    (∃ expanded,
        script.expand source device = .ok expanded) ↔
      (Expander.run ⟨script, source, device⟩).errors = 0 := by
  constructor
  · rintro ⟨expanded, h⟩
    exact (expand_eq_ok h).1
  · intro h
    have hNone :
        (Expander.run
          ⟨script, source, device⟩).log.hasErrors =
          false := by
      have hZero :
          (Expander.run
            ⟨script, source, device⟩).log.totalErrors = 0 :=
        h
      simp [Log.hasErrors, hZero]
    simp [expand, hNone]

/-
  Expansion ends by itself, whatever might happen below its
  depth, and it ends without errors exactly for expandable
  scripts.
-/
theorem expands_iff_expandable
    (script : Script)
    (source : SourceText)
    (device : Device)
    (hInline : script.CallsInline) :
    (∀ beyond,
        Expander.runOver ⟨script, source, device⟩ beyond =
          Expander.run ⟨script, source, device⟩) ∧
      ((∃ expanded,
          script.expand source device = .ok expanded) ↔
        script.Expandable device) := by
  refine ⟨Expander.runOver_eq_run _, ?_⟩
  rw [exists_expanded_iff, Expander.errors_run_eq_zero_iff]
  constructor
  · rintro ⟨start, hStart, hAdmits, hWork⟩
    have hAll {f : Function} (hf : script.Reachable f) :=
      hf.exists_admits (e := ⟨script, source, device⟩)
        hInline hStart hAdmits
    refine ⟨⟨start, hStart⟩, ?_, ?_, ?_, ?_⟩
    · intro f hf st hst name hCallee
      rcases hAll hf with ⟨depth, callers, hBody⟩
      rcases (hBody st hst).exists_callee hCallee
        with ⟨g, hFind, -⟩
      exact ⟨g, hFind⟩
    · intro f hf
      rcases hAll hf with ⟨depth, callers, hBody⟩
      exact not_transGen_of_admits hInline hf.mem_functions
        hBody
    · intro f hf st hst
      rcases hAll hf with ⟨depth, callers, hBody⟩
      exact (hBody st hst).fitsOn
    · intro is hMeaning
      rw [length_meaning_add_copies hStart hMeaning]
      exact hWork
  · intro h
    rcases h.entry with ⟨start, hStart⟩
    refine ⟨start, hStart, ?_, ?_⟩
    · exact Expandable.admits
        (e := ⟨script, source, device⟩) h (.start hStart)
        List.not_mem_nil (Frame.sound_nil script 0 0) nofun
    · cases hMeaning : script.meaning device with
      | none => simp [meaning, hStart] at hMeaning
      | some is =>
          have hSmall := h.small is hMeaning
          rw [length_meaning_add_copies hStart hMeaning]
            at hSmall
          exact hSmall

theorem callsInline_nested : nested.CallsInline := by
  intro f hf st hst name count hAction
  simp only [nested, nestedFunction, List.mem_cons,
    List.not_mem_nil, or_false] at hf
  rcases hf with rfl | rfl | rfl <;>
    simp only [List.map_cons, List.map_nil, List.mem_cons,
      List.not_mem_nil, or_false] at hst
  all_goals
    rcases hst with rfl | rfl | rfl <;> cases hAction <;>
      decide

theorem expands_iff_expandable_nested :
    nested.CallsInline ∧ nested.Expandable nestedDevice := by
  refine ⟨callsInline_nested, ?_⟩
  apply (expands_iff_expandable nested ⟨"show", ""⟩
    nestedDevice callsInline_nested).2.mp
  apply Success.exists_of_isOk
  decide +kernel

end Script

end LightShow
