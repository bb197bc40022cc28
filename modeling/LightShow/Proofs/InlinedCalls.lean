import LightShow.Proofs.Acceptance
import LightShow.Script.Inlining

/-
  What writing out a call changes about a script.

  All functions but one stay as they are, and that one keeps
  its name. Wherever a function is called, its counterpart
  is called then: it is admitted below fewer callers, and it
  uses as many paths and no more scopes.

  Key definitions include:
    * `Script.CallSite.Becomes`
    * `Numbers.Within`

  Main statements:
    * `Script.CallSite.find?_inlined`
    * `Script.CallSite.Becomes.admits`
    * `Script.CallSite.Becomes.within_used`
-/

namespace LightShow

------------------------------------------------------------
-- Counterparts
------------------------------------------------------------

namespace Script.CallSite

variable {script : Script}
variable (site : script.CallSite)
variable (rename : Nat → String → String)

/- A function and what it becomes. -/
inductive Becomes : Function → Function → Prop
  | kept (f : Function) : Becomes f f
  | changed :
      Becomes site.caller (site.inlinedCaller rename)

variable {site}
variable {rename}
variable {f f' : Function}

theorem Becomes.name_eq
    (h : site.Becomes rename f f') :
    f'.name = f.name := by
  cases h <;> rfl

theorem Becomes.span_eq
    (h : site.Becomes rename f f') :
    f'.span = f.span := by
  cases h <;> rfl

variable (site)
variable (rename)

/- A name leads to the counterpart of what it led to. -/
theorem find?_inlined
    (name : String) :
    (script.find? name = none ∧
        (site.inlined rename).find? name = none) ∨
      ∃ f f',
        script.find? name = some f ∧
          (site.inlined rename).find? name = some f' ∧
          site.Becomes rename f f' := by
  let named := fun f : Function => f.name.text == name
  have hOld :
      script.find? name =
        (site.before.find? named).or
          ((site.caller :: site.after).find? named) := by
    rw [find?, site.functions_eq, List.find?_append]
  have hNew :
      (site.inlined rename).find? name =
        (site.before.find? named).or
          ((site.inlinedCaller rename ::
            site.after).find? named) := by
    rw [find?, inlined, List.find?_append]
  rw [hOld, hNew]
  cases site.before.find? named with
  | some f => exact .inr ⟨f, f, rfl, rfl, .kept f⟩
  | none =>
      have hSame :
          named (site.inlinedCaller rename) =
            named site.caller := rfl
      rw [Option.none_or, Option.none_or, List.find?_cons,
        List.find?_cons, hSame]
      cases named site.caller with
      | true => exact .inr ⟨_, _, rfl, rfl, .changed⟩
      | false =>
          cases site.after.find? named with
          | none => exact .inl ⟨rfl, rfl⟩
          | some f => exact .inr ⟨f, f, rfl, rfl, .kept f⟩

theorem exists_inlined
    {name : String}
    (h : script.find? name = some f) :
    ∃ f',
      (site.inlined rename).find? name = some f' ∧
        site.Becomes rename f f' := by
  rcases site.find?_inlined rename name
    with ⟨hNone, -⟩ | ⟨g, f', hFind, hNew, hBecomes⟩
  · rw [h] at hNone
    cases hNone
  · cases h.symm.trans hFind
    exact ⟨f', hNew, hBecomes⟩

theorem length_functions_inlined :
    (site.inlined rename).functions.length =
      script.functions.length := by
  rw [site.functions_eq]
  simp [inlined]

/- The call is a statement of the function that makes it. -/
theorem call_mem_body :
    ⟨.call site.name site.count, site.span⟩ ∈
      site.caller.body := by
  rw [site.body_eq]
  simp

theorem mem_body_of_mem_front
    {st : Statement}
    (h : st ∈ site.front) :
    st ∈ site.caller.body := by
  rw [site.body_eq]
  exact List.mem_append_left _ h

theorem mem_body_of_mem_back
    {st : Statement}
    (h : st ∈ site.back) :
    st ∈ site.caller.body := by
  rw [site.body_eq]
  exact List.mem_append_right _ (List.mem_cons_of_mem _ h)

theorem count_ne_zero : site.count ≠ 0 :=
  Nat.ne_zero_of_lt site.one_le_count

theorem callee_mem_callees :
    site.callee ∈
      Meaning.callees script
        (.call site.name site.count) := by
  simp [Meaning.callees, site.count_ne_zero, site.find?_eq]

variable {rename}

/- Where a statement of the new body comes from. -/
theorem mem_body_inlinedCaller
    {st : Statement}
    (h : st ∈ (site.inlinedCaller rename).body) :
    st ∈ site.caller.body ∨
      ∃ i, ∃ old ∈ site.callee.body,
        st = old.relabel (rename i) := by
  rcases List.mem_append.mp h with hFront | hRest
  · exact .inl (site.mem_body_of_mem_front hFront)
  · rcases List.mem_append.mp hRest with hCopy | hBack
    · rcases List.mem_flatMap.mp hCopy with ⟨i, -, hst⟩
      rcases List.mem_map.mp hst with ⟨old, hOld, rfl⟩
      exact .inr ⟨i, old, hOld, rfl⟩
    · exact .inl (site.mem_body_of_mem_back hBack)

------------------------------------------------------------
-- Admission
------------------------------------------------------------

section Admission

variable {source source' : SourceText}
variable {device : Device}

/- What is allowed stays so, below fewer callers. -/
theorem allows_inlined
    {inner inner' : Function → Prop}
    {callers callers' : List String}
    {action : Action}
    (h : Expander.Allows ⟨script, source, device⟩ inner
      callers action)
    (hCallers : callers' ⊆ callers)
    (hInner : ∀ f f', site.Becomes rename f f' → inner f →
      inner' f')
    (names : String → String) :
    Expander.Allows ⟨site.inlined rename, source', device⟩
      inner' callers' (action.relabel names) := by
  cases action with
  | call name count =>
      rcases h with ⟨f, hFind, hOther, hBody⟩
      rcases site.exists_inlined rename hFind
        with ⟨f', hFind', hBecomes⟩
      refine ⟨f', hFind', ?_, ?_⟩
      · rw [hBecomes.name_eq]
        exact fun hMem => hOther (hCallers hMem)
      · exact fun hCount =>
          hInner f f' hBecomes (hBody hCount)
  | callAsync name zOrder =>
      rcases h with ⟨f, hFind, hOther, hBody⟩
      rcases site.exists_inlined rename hFind
        with ⟨f', hFind', hBecomes⟩
      refine ⟨f', hFind', ?_, hInner f f' hBecomes hBody⟩
      rw [hBecomes.name_eq]
      exact fun hMem => hOther (hCallers hMem)
  | _ => exact h

theorem relabel_id
    (action : Action) :
    action.relabel id = action := by
  cases action <;> rfl

variable {site}

/- A body that is admitted has an admitted counterpart. -/
theorem Becomes.admits
    {depth deeper : Nat}
    {callers callers' : List String}
    (hBecomes : site.Becomes rename f f')
    (h : Expander.Admits ⟨script, source, device⟩ depth
      callers f)
    (hDepth : depth ≤ deeper)
    (hCallers : callers' ⊆ callers) :
    Expander.Admits ⟨site.inlined rename, source', device⟩
      deeper callers' f' := by
  -- Bodies inlined by the callee are one level higher now,
  -- so the induction has to reach two levels down.
  induction depth using Nat.strongRecOn
    generalizing deeper callers callers' f f' with
  | ind depth ih =>
      cases depth with
      | zero => cases h
      | succ depth =>
          rcases Nat.exists_eq_add_of_le' (Nat.le_trans
            (Nat.le_add_left 1 depth) hDepth)
            with ⟨deeper, rfl⟩
          have hLess := Nat.le_of_succ_le_succ hDepth
          have hOwn : ∀ st ∈ f.body,
              Expander.Allows
                ⟨site.inlined rename, source', device⟩
                (Expander.Admits
                  ⟨site.inlined rename, source', device⟩
                  deeper (f.name.text :: callers'))
                (f.name.text :: callers') st.action := by
            intro st hst
            rw [← relabel_id st.action]
            refine site.allows_inlined (h st hst)
              (List.cons_subset_cons _ hCallers) ?_ id
            intro g g' hg hInner
            exact ih depth (Nat.lt_succ_self depth) hg hInner
              hLess (List.cons_subset_cons _ hCallers)
          cases hBecomes with
          | kept => exact hOwn
          | changed =>
              intro st hst
              rcases site.mem_body_inlinedCaller hst
                with hOld | ⟨i, old, hOld, rfl⟩
              · exact hOwn st hOld
              · rcases h _ site.call_mem_body
                  with ⟨g, hFind, -, hCallee⟩
                cases site.find?_eq.symm.trans hFind
                have hBody := hCallee site.count_ne_zero
                have hFewer :
                    site.caller.name.text :: callers' ⊆
                      site.callee.name.text ::
                        site.caller.name.text :: callers :=
                  List.subset_cons_of_subset _
                    (List.cons_subset_cons _ hCallers)
                cases depth with
                | zero => cases hBody
                | succ depth =>
                    refine site.allows_inlined
                      (hBody old hOld) hFewer ?_ (rename i)
                    intro g g' hg hInner
                    exact ih depth (by omega) hg hInner
                      (by omega) hFewer

end Admission

end Script.CallSite

------------------------------------------------------------
-- Numbers
------------------------------------------------------------

namespace Numbers

/- As many paths and no more scopes. -/
structure Within (a b : Numbers) : Prop where
  paths_eq : a.paths = b.paths
  scopes_le : a.scopes ≤ b.scopes

theorem Within.refl
    (a : Numbers) :
    a.Within a :=
  ⟨rfl, Nat.le_refl a.scopes⟩

variable {a b c d : Numbers}

theorem Within.add
    (hFirst : a.Within b)
    (hSecond : c.Within d) :
    (a.add c).Within (b.add d) := by
  constructor
  · simp [Numbers.add, hFirst.paths_eq, hSecond.paths_eq]
  · exact Nat.add_le_add hFirst.scopes_le hSecond.scopes_le

theorem Within.times
    (h : a.Within b)
    (n : Nat) :
    (a.times n).Within (b.times n) := by
  constructor
  · simp [Numbers.times, h.paths_eq]
  · exact Nat.mul_le_mul_left n h.scopes_le

/- Opening no scope is within opening one. -/
theorem Within.add_scope
    (h : a.Within b) :
    a.Within (b.add ⟨0, 1⟩) :=
  ⟨h.paths_eq, Nat.le_succ_of_le h.scopes_le⟩

end Numbers

namespace Meaning

variable (script : Script)
variable (size : Function → Numbers)

theorem usedByAll_append
    (xs ys : List Statement) :
    usedByAll script size (xs ++ ys) =
      (usedByAll script size xs).add
        (usedByAll script size ys) := by
  induction xs with
  | nil => exact (Numbers.zero_add _).symm
  | cons st xs ih =>
      simp only [usedByAll, List.cons_append,
        List.foldr_cons] at ih ⊢
      rw [ih, Numbers.add_assoc]

theorem usedByAll_cons
    (st : Statement)
    (sts : List Statement) :
    usedByAll script size (st :: sts) =
      (usedBy script size st.action).add
        (usedByAll script size sts) := rfl

/- Labels use no numbers. -/
theorem usedBy_relabel
    (names : String → String)
    (action : Action) :
    usedBy script size (action.relabel names) =
      usedBy script size action := by
  cases action <;> rfl

theorem usedByAll_relabel
    (names : String → String)
    (sts : List Statement) :
    usedByAll script size
        (sts.map (Statement.relabel names)) =
      usedByAll script size sts := by
  induction sts with
  | nil => rfl
  | cons st sts ih =>
      rw [List.map_cons, usedByAll_cons, usedByAll_cons, ih,
        Statement.relabel, usedBy_relabel]

end Meaning

namespace Script.CallSite

variable {script : Script}
variable (site : script.CallSite)
variable {rename : Nat → String → String}

/- Copies use what the body uses, each time again. -/
theorem usedByAll_copies
    (other : Script)
    (size : Function → Numbers)
    (count : Nat) :
    Meaning.usedByAll other size
        ((List.range count).flatMap (site.copy rename)) =
      (Meaning.usedByAll other size
        site.callee.body).times count := by
  induction count with
  | zero => exact (Numbers.times_zero _).symm
  | succ count ih =>
      rw [List.range_succ, List.flatMap_append,
        List.flatMap_singleton, Meaning.usedByAll_append, ih,
        copy, Meaning.usedByAll_relabel, Numbers.times_succ,
        Numbers.add_comm]

theorem usedByAll_inlinedCaller
    (other : Script)
    (size : Function → Numbers) :
    Meaning.usedByAll other size
        (site.inlinedCaller rename).body =
      (Meaning.usedByAll other size site.front).add
        (((Meaning.usedByAll other size
          site.callee.body).times site.count).add
            (Meaning.usedByAll other size site.back)) := by
  rw [inlinedCaller, Meaning.usedByAll_append,
    Meaning.usedByAll_append, usedByAll_copies]

theorem usedByAll_caller
    (size : Function → Numbers) :
    Meaning.usedByAll script size site.caller.body =
      (Meaning.usedByAll script size site.front).add
        (((size site.callee).times site.count).add
          (Meaning.usedByAll script size site.back)) := by
  rw [site.body_eq, Meaning.usedByAll_append,
    Meaning.usedByAll_cons, Meaning.usedBy, site.find?_eq,
    Option.elim_some]

variable {size size' : Function → Numbers}

/- A statement uses what its counterparts let it use. -/
theorem within_usedBy
    {action : Action}
    (h : ∀ f ∈ Meaning.callees script action, ∀ f',
      site.Becomes rename f f' → (size' f').Within (size f)) :
    (Meaning.usedBy (site.inlined rename) size'
      action).Within
        (Meaning.usedBy script size action) := by
  cases action with
  | call name count =>
      by_cases hCount : count = 0
      · simp only [Meaning.usedBy, hCount,
          Numbers.times_zero]
        exact .refl _
      · rcases site.find?_inlined rename name.text
          with ⟨hNone, hNew⟩ | ⟨f, f', hFind, hNew, hBecomes⟩
        · simp only [Meaning.usedBy, hNone, hNew]
          exact .refl _
        · have hMem : f ∈ Meaning.callees script
              (.call name count) := by
            simp [Meaning.callees, hCount, hFind]
          simp only [Meaning.usedBy, hFind, hNew]
          exact (h f hMem f' hBecomes).times count
  | callAsync name zOrder =>
      rcases site.find?_inlined rename name.text
        with ⟨hNone, hNew⟩ | ⟨f, f', hFind, hNew, hBecomes⟩
      · simp only [Meaning.usedBy, hNone, hNew]
        exact .refl _
      · have hMem : f ∈ Meaning.callees script
            (.callAsync name zOrder) := by
          simp [Meaning.callees, hFind]
        simp only [Meaning.usedBy, hFind, hNew]
        exact (h f hMem f' hBecomes).add (.refl _)
  | _ => exact .refl _

theorem within_usedByAll
    {sts : List Statement}
    (h : ∀ st ∈ sts,
      ∀ f ∈ Meaning.callees script st.action, ∀ f',
        site.Becomes rename f f' →
          (size' f').Within (size f)) :
    (Meaning.usedByAll (site.inlined rename) size'
      sts).Within (Meaning.usedByAll script size sts) := by
  induction sts with
  | nil => exact .refl _
  | cons st sts ih =>
      rcases List.forall_mem_cons.mp h with ⟨hFirst, hRest⟩
      exact (site.within_usedBy hFirst).add (ih hRest)

variable {site}

/- A counterpart uses as many paths and no more scopes. -/
theorem Becomes.within_used
    {depth deeper : Nat}
    {f f' : Function}
    (hBecomes : site.Becomes rename f f')
    (hFits : Meaning.Fits script depth f)
    (hDepth : depth ≤ deeper) :
    (Meaning.used (site.inlined rename) deeper f').Within
      (Meaning.used script depth f) := by
  induction depth using Nat.strongRecOn
    generalizing deeper f f' with
  | ind depth ih =>
      cases depth with
      | zero => cases hFits
      | succ depth =>
          rcases Nat.exists_eq_add_of_le' (Nat.le_trans
            (Nat.le_add_left 1 depth) hDepth)
            with ⟨deeper, rfl⟩
          have hLess := Nat.le_of_succ_le_succ hDepth
          have hOwn : ∀ st ∈ f.body,
              ∀ g ∈ Meaning.callees script st.action, ∀ g',
                site.Becomes rename g g' →
                  (Meaning.used (site.inlined rename) deeper
                    g').Within
                    (Meaning.used script depth g) := by
            intro st hst g hg g' hBecomes
            exact ih depth (Nat.lt_succ_self depth) hBecomes
              (hFits st hst g hg) hLess
          cases hBecomes with
          | kept =>
              exact (site.within_usedByAll hOwn).add (.refl _)
          | changed =>
              have hCallee := hFits _ site.call_mem_body _
                site.callee_mem_callees
              cases depth with
              | zero => cases hCallee
              | succ depth =>
                  have hCopy := site.within_usedByAll
                    fun st hst g hg g' hBecomes =>
                      ih depth (by omega) hBecomes
                        (hCallee st hst g hg)
                        (Nat.le_of_succ_le hLess)
                  have hFront := site.within_usedByAll
                    fun st hst => hOwn st
                      (site.mem_body_of_mem_front hst)
                  have hBack := site.within_usedByAll
                    fun st hst => hOwn st
                      (site.mem_body_of_mem_back hst)
                  rw [Meaning.used, Meaning.used,
                    usedByAll_inlinedCaller,
                    usedByAll_caller]
                  exact (hFront.add ((hCopy.add_scope.times
                    site.count).add hBack)).add (.refl _)

end Script.CallSite

end LightShow
