import LightShow.Proofs.Numbering

/-
  Label scopes.

  Every label and every jump belongs to one copy of a body.
  The instructions of a scope are the labels and jumps of
  the copy that has it, in the order of its statements and
  all on its path.

  Key definitions include:
    * `Meaning.Copy.labels`
    * `Meaning.inScope`
    * `Meaning.Reaches`

  Main statements:
    * `Meaning.filter_instructions`
    * `Meaning.flatMap_labelsIn_of_mem`
    * `Script.exists_copy_iff_reachable`
-/

namespace LightShow

namespace Meaning

------------------------------------------------------------
-- Labels Of A Scope
------------------------------------------------------------

/- The instructions of the labels and jumps of a copy. -/
def Copy.labels (c : Copy) : List Instruction :=
  c.function.body.filterMap fun st =>
    (labelOp? c.scope st.action).map fun op =>
      ⟨op, some c.path, some c.zOrder, some st.span⟩

/- Whether an instruction is a label or jump of a scope. -/
def inScope (scope : Nat) (i : Instruction) : Bool :=
  i.op.inScope scope

/- The labels and jumps of a copy, if it has a scope. -/
def labelsIn (scope : Nat) (c : Copy) : List Instruction :=
  if c.scope = scope then c.labels else []

variable {script : Script}
variable {tick : Nat}
variable {size : Function → Numbers}
variable {body : Function → Site → List Instruction}
variable {copiesOf : Function → Site → List Copy}

/- The label or jump of a statement, if it is one. -/
def ownLabel
    (scope : Nat)
    (site : Site)
    (st : Statement) : Option Instruction :=
  (labelOp? scope st.action).map (emit site st.span)

/-
  Of a statement, a scope has its own label or jump and what
  is in the bodies that the statement inlines.
-/
theorem filter_ofStatement
    {k : Nat}
    (hBody : ∀ f site,
      (body f site).filter (inScope k) =
        (copiesOf f site).flatMap (labelsIn k))
    (scope : Nat)
    (st : Statement)
    (site : Site) :
    (ofStatement script tick size body scope st site).filter
        (inScope k) =
      (ownLabel scope site st).toList.filter (inScope k) ++
        ((calls script size site st.action).flatMap fun x =>
          copiesOf x.1 x.2).flatMap (labelsIn k) := by
  rcases st with ⟨action, span⟩
  cases action with
  | call name count =>
      cases hFind : script.find? name.text with
      | none =>
          simp [ofStatement, calls, hFind, ownLabel, labelOp?]
      | some f =>
          simp [ofStatement, calls, hFind, ownLabel, labelOp?,
            List.filter_flatMap, List.flatMap_map, hBody,
            List.flatMap_assoc]
  | callAsync name zOrder =>
      cases hFind : script.find? name.text with
      | none =>
          simp [ofStatement, calls, hFind, ownLabel, labelOp?]
      | some f =>
          simp [ofStatement, calls, hFind, ownLabel, labelOp?,
            activated, hBody, inScope, emit, Op.inScope,
            Op.scope?]
  | here label =>
      simp [ofStatement, calls, ownLabel, labelOp?]
  | goto label =>
      simp [ofStatement, calls, ownLabel, labelOp?]
  | _ =>
      simp [ofStatement, calls, ownLabel, labelOp?, inScope,
        emit, Op.inScope, Op.scope?]

theorem filter_ownLabel
    (scope k : Nat)
    (site : Site)
    (st : Statement) :
    (ownLabel scope site st).toList.filter (inScope k) =
      if scope = k then (ownLabel scope site st).toList
      else [] := by
  rcases st with ⟨action, span⟩
  cases action <;>
    simp [ownLabel, labelOp?, emit, inScope, Op.inScope,
      Op.scope?, List.filter_cons]

/- Statements show another scope only what they inline. -/
theorem filter_ofStatements_of_ne
    {scope k : Nat}
    (hNe : scope ≠ k)
    (hBody : ∀ f site,
      (body f site).filter (inScope k) =
        (copiesOf f site).flatMap (labelsIn k))
    (sts : List Statement)
    (site : Site) :
    (ofStatements script tick size body scope sts site).filter
        (inScope k) =
      ((callsOfAll script size sts site).flatMap fun x =>
        copiesOf x.1 x.2).flatMap (labelsIn k) := by
  induction sts generalizing site with
  | nil => rfl
  | cons st sts ih =>
      rw [ofStatements, List.filter_append,
        filter_ofStatement hBody, filter_ownLabel, if_neg hNe,
        ih, callsOfAll, List.flatMap_append,
        List.flatMap_append, List.nil_append]

/- Copies of other scopes have nothing of a scope. -/
theorem flatMap_labelsIn_eq_nil
    {copies : List Copy}
    {k : Nat}
    (h : ∀ c ∈ copies, c.scope ≠ k) :
    copies.flatMap (labelsIn k) = [] := by
  rw [List.flatMap_eq_nil_iff]
  intro c hc
  rw [labelsIn, if_neg (h c hc)]

/- Statements show their own scope their own labels. -/
theorem filter_ofStatements_self
    {scope : Nat}
    (hBody : ∀ f site,
      (body f site).filter (inScope scope) =
        (copiesOf f site).flatMap (labelsIn scope))
    {sts : List Statement}
    {site : Site}
    (hOthers :
      ∀ c ∈ (callsOfAll script size sts site).flatMap
        (fun x => copiesOf x.1 x.2), c.scope ≠ scope) :
    (ofStatements script tick size body scope sts site).filter
        (inScope scope) =
      sts.filterMap (ownLabel scope site) := by
  induction sts generalizing site with
  | nil => rfl
  | cons st sts ih =>
      rw [callsOfAll, List.flatMap_append] at hOthers
      have hHere : ((calls script size site st.action).flatMap
          fun x => copiesOf x.1 x.2).flatMap
            (labelsIn scope) = [] :=
        flatMap_labelsIn_eq_nil fun c hc =>
          hOthers c (List.mem_append_left _ hc)
      have hRest := ih fun c hc =>
        hOthers c (List.mem_append_right _ hc)
      rw [ofStatements, List.filter_append,
        filter_ofStatement hBody, hHere, hRest,
        filter_ownLabel, if_pos rfl, List.append_nil,
        List.filterMap_cons]
      cases ownLabel scope site st with
      | none => rfl
      | some i => rfl

/- A scope holds the labels of the copies that have it. -/
theorem filter_instructions
    (script : Script)
    (tick k depth : Nat)
    (f : Function)
    (site : Site) :
    (instructions script tick depth f site).filter
        (inScope k) =
      (copies script depth f site).flatMap (labelsIn k) := by
  induction depth generalizing f site with
  | zero => rfl
  | succ depth ih =>
      rw [instructions, copies, List.flatMap_cons]
      by_cases hScope : site.next.scopes = k
      · -- The copies inside have later scopes.
        subst hScope
        have hOthers :
            ∀ c ∈ (callsOfAll script (used script depth)
                f.body { site with
                  next := site.next.add ⟨0, 1⟩ }).flatMap
                (fun x => copies script depth x.1 x.2),
              c.scope ≠ site.next.scopes := by
          intro c hc
          have hMem :=
            List.mem_map_of_mem (f := Copy.scope) hc
          rw [scopes_callsOfAll
            (fun f site => scopes_copies script depth f site),
            List.mem_range'_1] at hMem
          have hLe := hMem.1
          simp only [Numbers.add] at hLe
          omega
        rw [filter_ofStatements_self ih hOthers,
          flatMap_labelsIn_eq_nil hOthers, List.append_nil,
          labelsIn, if_pos rfl]
        rfl
      · rw [filter_ofStatements_of_ne hScope ih, labelsIn,
          if_neg hScope]
        rfl

/- One of several copies with scopes of their own. -/
theorem flatMap_labelsIn_of_mem
    {copies : List Copy}
    (hNodup : (copies.map Copy.scope).Nodup)
    {c : Copy}
    (hc : c ∈ copies) :
    copies.flatMap (labelsIn c.scope) = c.labels := by
  induction copies with
  | nil => cases hc
  | cons d copies ih =>
      rw [List.map_cons, List.nodup_cons] at hNodup
      rcases hNodup with ⟨hNew, hNodup⟩
      rw [List.flatMap_cons]
      rcases List.mem_cons.mp hc with rfl | hc
      · have hOthers : ∀ d ∈ copies, d.scope ≠ c.scope := by
          intro d hd hSame
          exact hNew (hSame ▸ List.mem_map_of_mem hd)
        rw [flatMap_labelsIn_eq_nil hOthers, labelsIn,
          if_pos rfl, List.append_nil]
      · have hNe : d.scope ≠ c.scope := by
          intro hSame
          exact hNew (hSame ▸ List.mem_map_of_mem hc)
        rw [labelsIn, if_neg hNe, List.nil_append]
        exact ih hNodup hc

------------------------------------------------------------
-- Functions With Copies
------------------------------------------------------------

/- A function is called from another within some depth. -/
inductive Reaches (script : Script) :
    Nat → Function → Function → Prop
  | refl
      (depth : Nat)
      (f : Function) :
      Reaches script (depth + 1) f f
  | call
      {depth : Nat}
      {f g h : Function}
      {st : Statement}
      (hStatement : st ∈ f.body)
      (hCallee : g ∈ callees script st.action)
      (hRest : Reaches script depth g h) :
      Reaches script (depth + 1) f h

/- What an action inlines, it inlines somewhere. -/
theorem exists_mem_calls
    {action : Action}
    {g : Function}
    (h : g ∈ callees script action)
    (site : Site) :
    ∃ x ∈ calls script size site action, x.1 = g := by
  cases action with
  | call name count =>
      rw [callees] at h
      split at h
      · cases h
      · rename_i hCount
        have hFind := Option.mem_toList.mp h
        refine ⟨(g, { site with
          next := site.next.add ((size g).times 0) }), ?_,
          rfl⟩
        simp only [calls, hFind]
        exact List.mem_map.mpr ⟨0,
          List.mem_range.mpr (Nat.pos_of_ne_zero hCount), rfl⟩
  | callAsync name zOrder =>
      have hFind := Option.mem_toList.mp h
      simp [calls, hFind]
  | _ => cases h

theorem exists_mem_callsOfAll
    {sts : List Statement}
    {st : Statement}
    {g : Function}
    (hStatement : st ∈ sts)
    (hCallee : g ∈ callees script st.action)
    (site : Site) :
    ∃ x ∈ callsOfAll script size sts site, x.1 = g := by
  induction sts generalizing site with
  | nil => cases hStatement
  | cons first sts ih =>
      rcases List.mem_cons.mp hStatement with rfl | hStatement
      · rcases exists_mem_calls hCallee site with ⟨x, hx, rfl⟩
        exact ⟨x, List.mem_append_left _ hx, rfl⟩
      · rcases ih hStatement
          { site with
            next := site.next.add
              (usedBy script size first.action) }
          with ⟨x, hx, rfl⟩
        exact ⟨x, List.mem_append_right _ hx, rfl⟩

/- The functions with copies are those that are called. -/
theorem reaches_iff_exists_copy
    {depth : Nat}
    {f h : Function}
    (site : Site) :
    Reaches script depth f h ↔
      ∃ c ∈ copies script depth f site, c.function = h := by
  constructor
  · intro hReach
    induction hReach generalizing site with
    | refl depth f =>
        exact ⟨_, List.mem_cons_self .., rfl⟩
    | @call depth f g h st hStatement hCallee _ ih =>
        rcases exists_mem_callsOfAll hStatement hCallee
          { site with next := site.next.add ⟨0, 1⟩ }
          with ⟨x, hx, rfl⟩
        rcases ih x.2 with ⟨c, hc, hFunction⟩
        refine ⟨c, List.mem_cons_of_mem _ ?_, hFunction⟩
        exact List.mem_flatMap.mpr ⟨x, hx, hc⟩
  · rintro ⟨c, hc, rfl⟩
    induction depth generalizing f site with
    | zero => cases hc
    | succ depth ih =>
        rcases List.mem_cons.mp hc with rfl | hc
        · exact .refl depth f
        · rcases List.mem_flatMap.mp hc with ⟨x, hx, hc⟩
          rcases mem_callees_of_mem_callsOfAll hx
            with ⟨st, hStatement, hCallee⟩
          exact .call hStatement hCallee (ih x.2 hc)

/- A chain of calls may be longer by one. -/
theorem Reaches.extend
    {depth : Nat}
    {f g h : Function}
    {st : Statement}
    (hReach : Reaches script depth f g)
    (hStatement : st ∈ g.body)
    (hCallee : h ∈ callees script st.action) :
    Reaches script (depth + 1) f h := by
  induction hReach with
  | refl depth f =>
      exact .call hStatement hCallee (.refl depth h)
  | call hFirst hNext _ ih =>
      exact .call hFirst hNext (ih hStatement)

/- Longer chains than fit in reach nothing new. -/
theorem Reaches.of_fits
    {depth : Nat}
    {f g : Function}
    (hReach : Reaches script (depth + 1) f g)
    (hFits : Fits script depth f) :
    Reaches script depth f g := by
  have hSame :
      copies script (depth + 1) f = copies script depth f :=
    (eq_of_fits 0 hFits (Nat.le_succ depth)).2.2
  rw [reaches_iff_exists_copy ⟨0, 0, .zero⟩] at hReach ⊢
  rwa [hSame] at hReach

end Meaning

------------------------------------------------------------
-- Reachable Functions
------------------------------------------------------------

namespace Script

/- Calls inline their functions at least once. -/
def CallsInline (script : Script) : Prop :=
  ∀ f ∈ script.functions, ∀ st ∈ f.body, ∀ name count,
    st.action = .call name count → count ≠ 0

variable {script : Script}

theorem Reachable.mem_functions
    {f : Function}
    (h : Reachable script f) :
    f ∈ script.functions := by
  cases h with
  | start hFind => exact List.mem_of_find?_eq_some hFind
  | call _ _ _ hFind => exact List.mem_of_find?_eq_some hFind

/- A function that is called is inlined. -/
theorem CallsInline.mem_callees
    (hInline : script.CallsInline)
    {f g : Function}
    {st : Statement}
    {name : Name}
    (hFunction : f ∈ script.functions)
    (hStatement : st ∈ f.body)
    (hCallee : st.action.callee? = some name)
    (hFind : script.find? name.text = some g) :
    g ∈ Meaning.callees script st.action := by
  cases hAction : st.action with
  | call other count =>
      rw [hAction] at hCallee
      cases hCallee
      have hCount := hInline f hFunction st hStatement name
        count hAction
      simp [Meaning.callees, hCount, hFind]
  | callAsync other zOrder =>
      rw [hAction] at hCallee
      cases hCallee
      simp [Meaning.callees, hFind]
  | _ =>
      rw [hAction] at hCallee
      cases hCallee

theorem Reachable.of_callees
    {f g : Function}
    {st : Statement}
    (h : Reachable script f)
    (hStatement : st ∈ f.body)
    (hCallee : g ∈ Meaning.callees script st.action) :
    Reachable script g := by
  cases hAction : st.action with
  | call name count =>
      rw [hAction, Meaning.callees] at hCallee
      split at hCallee
      · cases hCallee
      · exact .call h hStatement (hAction ▸ rfl)
          (Option.mem_toList.mp hCallee)
  | callAsync name zOrder =>
      rw [hAction, Meaning.callees] at hCallee
      exact .call h hStatement (hAction ▸ rfl)
        (Option.mem_toList.mp hCallee)
  | _ =>
      rw [hAction] at hCallee
      cases hCallee

theorem Reachable.of_reaches
    {depth : Nat}
    {f g : Function}
    (h : Reachable script f)
    (hReach : Meaning.Reaches script depth f g) :
    Reachable script g := by
  induction hReach with
  | refl => exact h
  | call hStatement hCallee _ ih =>
      exact ih (h.of_callees hStatement hCallee)

/- Exactly the reachable functions have copies. -/
theorem exists_copy_iff_reachable
    {start : Function}
    {depth : Nat}
    (hInline : script.CallsInline)
    (hStart : script.find? entryName = some start)
    (hFits : Meaning.Fits script depth start)
    (site : Meaning.Site)
    (f : Function) :
    (∃ c ∈ Meaning.copies script depth start site,
        c.function = f) ↔
      Reachable script f := by
  rw [← Meaning.reaches_iff_exists_copy]
  constructor
  · exact (Reachable.start hStart).of_reaches
  · intro h
    induction h with
    | start hFind =>
        cases hStart.symm.trans hFind
        cases depth with
        | zero => cases hFits
        | succ depth => exact .refl depth start
    | call hCaller hStatement hCallee hFind ih =>
        have hMem := hInline.mem_callees
          hCaller.mem_functions hStatement hCallee hFind
        exact (ih.extend hStatement hMem).of_fits hFits

end Script

end LightShow
