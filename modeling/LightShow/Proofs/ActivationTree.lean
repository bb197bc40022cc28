import Mathlib.Data.List.Sort
import LightShow.Proofs.Jumps

/-
  The tree of activations.

  Every asynchronous call starts a strand, a path with a
  number, an activation and an end of its own. The strands of
  a body are listed in the order of their numbers; whatever
  the body expands to lies on the path of the body or on one
  of its strands, and each strand is complete.

  Key definitions include:
    * `Meaning.Strand`
    * `Meaning.strands`
    * `Meaning.Complete`
    * `Meaning.Grows`
    * `Script.ActivationTree`

  Main statements:
    * `Meaning.Grows.append`
    * `Meaning.grows_activated`
    * `Meaning.grows_instructions`
    * `Script.expansion_is_activation_tree`
-/

namespace LightShow

namespace Meaning

------------------------------------------------------------
-- Strands
------------------------------------------------------------

/- A path and the asynchronous call that starts it. -/
structure Strand where
  /- The copy that makes the call. -/
  caller : Copy
  statement : Statement
  /- The z-order that the call gives, if it gives one. -/
  given : Option Nat
  path : Nat
deriving DecidableEq, Repr

namespace Strand

/- Without a z-order of its own, it has that of its caller. -/
def zOrder (s : Strand) : Nat :=
  s.given.getD s.caller.zOrder

/- The instruction that activates the path. -/
def activation (s : Strand) : Instruction :=
  ⟨.activate s.path, some s.caller.path,
    some s.caller.zOrder, some s.statement.span⟩

end Strand

/- The strand that a statement of a copy starts itself. -/
def strand?
    (script : Script)
    (caller : Copy)
    (site : Site)
    (st : Statement) : Option Strand :=
  match st.action with
  | .callAsync name given =>
      (script.find? name.text).map fun _ =>
        ⟨caller, st, given, site.next.paths⟩
  | _ => none

/-
  The strands of some statements, given those of bodies: of
  each statement first its own, then those of the bodies
  that it inlines.
-/
def strandsOfAll
    (script : Script)
    (size : Function → Numbers)
    (inner : Function → Site → List Strand)
    (caller : Copy) :
    List Statement → Site → List Strand
  | [], _ => []
  | st :: sts, site =>
      let next := site.next.add (usedBy script size st.action)
      (strand? script caller site st).toList ++
        ((calls script size site st.action).flatMap fun x =>
          inner x.1 x.2) ++
        strandsOfAll script size inner caller sts
          { site with next := next }

/- The strands of a body, in the order of their paths. -/
def strands (script : Script) :
    Nat → Function → Site → List Strand
  | 0, _, _ => []
  | depth + 1, f, site =>
      strandsOfAll script (used script depth)
        (strands script depth)
        ⟨f, site.path, site.zOrder, site.next.scopes⟩ f.body
        { site with next := site.next.add ⟨0, 1⟩ }

------------------------------------------------------------
-- Paths That Grow
------------------------------------------------------------

/-
  All instructions of a path: with one z-order, and with an
  end behind all others and nowhere else.
-/
structure Complete
    (zOrder : Nat)
    (is : List Instruction) : Prop where
  zOrders : ∀ i ∈ is, i.zOrder = some zOrder
  ends : ∃ body last,
    is = body ++ [last] ∧
      last.op = .finish ∧
      ∀ i ∈ body, i.op ≠ .finish

/-
  Instructions that go on with a path and hold all of some
  strands, which are numbered from `first` on.
-/
structure Grows
    (path zOrder first count : Nat)
    (ss : List Strand)
    (is : List Instruction) : Prop where
  numbered : ss.map Strand.path = List.range' first count
  own : ∀ i ∈ is, i.path = some path →
    i.zOrder = some zOrder ∧ i.op ≠ .finish
  covered : ∀ i ∈ is,
    i.path = some path ∨ ∃ s ∈ ss, i.path = some s.path
  complete : ∀ s ∈ ss,
    Complete s.zOrder (Path.own is s.path)
  started : ∀ s ∈ ss, ∃ before after,
    is = before ++ s.activation :: after ∧
      ∀ i ∈ before, i.path ≠ some s.path
  callers : ∀ s ∈ ss,
    s.caller.path < s.path ∧
      ((s.caller.path = path ∧ s.caller.zOrder = zOrder) ∨
        ∃ r ∈ ss, s.caller.path = r.path ∧
          s.caller.zOrder = r.zOrder)

theorem own_append
    (is js : List Instruction)
    (id : Nat) :
    Path.own (is ++ js) id =
      Path.own is id ++ Path.own js id :=
  List.filter_append ..

/- A path that no instruction is on. -/
theorem own_eq_nil
    {is : List Instruction}
    {id : Nat}
    (h : ∀ i ∈ is, i.path ≠ some id) :
    Path.own is id = [] := by
  rw [Path.own, List.filter_eq_nil_iff]
  intro i hi
  simpa using h i hi

namespace Grows

variable {path zOrder first count : Nat}
variable {ss : List Strand}
variable {is : List Instruction}

/- The numbers of strands are in their range. -/
theorem range
    (h : Grows path zOrder first count ss is)
    {s : Strand}
    (hs : s ∈ ss) :
    first ≤ s.path ∧ s.path < first + count := by
  have hMem := List.mem_map_of_mem (f := Strand.path) hs
  rw [h.numbered, List.mem_range'_1] at hMem
  exact hMem

/- No instruction is on a path out of range. -/
theorem path_ne
    (h : Grows path zOrder first count ss is)
    (id : Nat)
    (hOther : id ≠ path)
    (hRange : id < first ∨ first + count ≤ id) :
    ∀ i ∈ is, i.path ≠ some id := by
  intro i hi hPath
  rcases h.covered i hi with hMain | ⟨s, hs, hStrand⟩
  · rw [hMain] at hPath
    exact hOther (Option.some.inj hPath).symm
  · rw [hStrand] at hPath
    have hId := Option.some.inj hPath
    have hIn := h.range hs
    omega

/- Instructions of the path alone. -/
theorem of_forall
    (first : Nat)
    (h : ∀ i ∈ is, i.path = some path ∧
      i.zOrder = some zOrder ∧ i.op ≠ .finish) :
    Grows path zOrder first 0 [] is where
  numbered := rfl
  own := fun i hi _ => (h i hi).2
  covered := fun i hi => .inl (h i hi).1
  complete := fun _ hs => absurd hs List.not_mem_nil
  started := fun _ hs => absurd hs List.not_mem_nil
  callers := fun _ hs => absurd hs List.not_mem_nil

theorem nil
    (path zOrder first : Nat) :
    Grows path zOrder first 0 [] [] :=
  of_forall first fun _ hi => absurd hi List.not_mem_nil

/- One after the other, with numbers in a row. -/
theorem append
    {more : Nat}
    {ss' : List Strand}
    {is' : List Instruction}
    (h : Grows path zOrder first count ss is)
    (h' : Grows path zOrder (first + count) more ss' is')
    (hFirst : path < first) :
    Grows path zOrder first (count + more) (ss ++ ss')
      (is ++ is') where
  numbered := by
    rw [List.map_append, h.numbered, h'.numbered]
    exact List.range'_append_1
  own := by
    intro i hi
    rcases List.mem_append.mp hi with hi | hi
    · exact h.own i hi
    · exact h'.own i hi
  covered := by
    intro i hi
    rcases List.mem_append.mp hi with hi | hi
    · rcases h.covered i hi with hMain | ⟨s, hs, hPath⟩
      · exact .inl hMain
      · exact .inr ⟨s, List.mem_append_left ss' hs, hPath⟩
    · rcases h'.covered i hi with hMain | ⟨s, hs, hPath⟩
      · exact .inl hMain
      · exact .inr ⟨s, List.mem_append_right ss hs, hPath⟩
  complete := by
    intro s hs
    rw [own_append]
    rcases List.mem_append.mp hs with hs | hs
    · have hIn := h.range hs
      rw [own_eq_nil (h'.path_ne _ (by omega) (by omega)),
        List.append_nil]
      exact h.complete s hs
    · have hIn := h'.range hs
      rw [own_eq_nil (h.path_ne _ (by omega) (by omega)),
        List.nil_append]
      exact h'.complete s hs
  started := by
    intro s hs
    rcases List.mem_append.mp hs with hs | hs
    · rcases h.started s hs with ⟨before, after, rfl, hNew⟩
      exact ⟨before, after ++ is', by simp, hNew⟩
    · have hIn := h'.range hs
      have hNone := h.path_ne s.path (by omega)
        (by omega)
      rcases h'.started s hs with ⟨before, after, rfl, hNew⟩
      refine ⟨is ++ before, after, by simp, ?_⟩
      intro i hi
      rcases List.mem_append.mp hi with hi | hi
      · exact hNone i hi
      · exact hNew i hi
  callers := by
    intro s hs
    rcases List.mem_append.mp hs with hs | hs
    · rcases h.callers s hs with ⟨hLt, hMain | ⟨r, hr, hBy⟩⟩
      · exact ⟨hLt, .inl hMain⟩
      · exact ⟨hLt, .inr
          ⟨r, List.mem_append_left ss' hr, hBy⟩⟩
    · rcases h'.callers s hs with ⟨hLt, hMain | ⟨r, hr, hBy⟩⟩
      · exact ⟨hLt, .inl hMain⟩
      · exact ⟨hLt, .inr
          ⟨r, List.mem_append_right ss hr, hBy⟩⟩

/- With its end, the path itself is complete. -/
theorem complete_self
    (h : Grows path zOrder first count ss is)
    {last : Instruction}
    (hPath : last.path = some path)
    (hZOrder : last.zOrder = some zOrder)
    (hOp : last.op = .finish) :
    Complete zOrder (Path.own (is ++ [last]) path) := by
  have hLast : Path.own [last] path = [last] := by
    simp [Path.own, hPath]
  rw [own_append, hLast]
  have hOwn : ∀ i ∈ Path.own is path,
      i.zOrder = some zOrder ∧ i.op ≠ .finish := by
    intro i hi
    rcases List.mem_filter.mp hi with ⟨hi, hSame⟩
    exact h.own i hi (by simpa using hSame)
  refine ⟨?_, _, _, rfl, hOp, fun i hi => (hOwn i hi).2⟩
  intro i hi
  rcases List.mem_append.mp hi with hi | hi
  · exact (hOwn i hi).1
  · rw [List.mem_singleton.mp hi]
    exact hZOrder

/- The end of the path does not touch its strands. -/
theorem complete_strand
    (h : Grows path zOrder first count ss is)
    (hFirst : path < first)
    {last : Instruction}
    (hPath : last.path = some path)
    {s : Strand}
    (hs : s ∈ ss) :
    Complete s.zOrder
      (Path.own (is ++ [last]) s.path) := by
  have hIn := h.range hs
  have hNone : Path.own [last] s.path = [] := by
    apply own_eq_nil
    intro i hi
    rw [List.mem_singleton.mp hi, hPath]
    intro hSame
    have hId := Option.some.inj hSame
    omega
  rw [own_append, hNone, List.append_nil]
  exact h.complete s hs

/- There is something on every path, and on no other. -/
theorem exists_path_iff
    (h : Grows path zOrder first count ss is)
    {last : Instruction}
    (hPath : last.path = some path)
    {id : Nat} :
    (∃ i ∈ is ++ [last], i.path = some id) ↔
      id = path ∨ first ≤ id ∧ id < first + count := by
  constructor
  · rintro ⟨i, hi, hId⟩
    have hCovered :
        i.path = some path ∨
          ∃ s ∈ ss, i.path = some s.path := by
      rcases List.mem_append.mp hi with hi | hi
      · exact h.covered i hi
      · rw [List.mem_singleton.mp hi]
        exact .inl hPath
    rcases hCovered with hMain | ⟨s, hs, hStrand⟩
    · exact .inl (Option.some.inj (hId.symm.trans hMain))
    · rw [Option.some.inj (hId.symm.trans hStrand)]
      exact .inr (h.range hs)
  · rintro (rfl | hIn)
    · exact ⟨last, by simp, hPath⟩
    · rw [← List.mem_range'_1, ← h.numbered] at hIn
      rcases List.mem_map.mp hIn with ⟨s, hs, rfl⟩
      rcases (h.complete s hs).ends with ⟨_, i, hOwn, -⟩
      have hi : i ∈ Path.own is s.path := by
        rw [hOwn]
        simp
      rcases List.mem_filter.mp hi with ⟨hi, hSame⟩
      exact ⟨i, List.mem_append_left _ hi, by simpa using hSame⟩

end Grows

/-
  An activation, the body on its new path and the end of it
  are one more instruction of the caller and one strand more.
-/
theorem grows_activated
    {body : Site → List Instruction}
    {s : Strand}
    {ss : List Strand}
    {count : Nat}
    {next : Numbers}
    (hPath : s.path = next.paths)
    (hCaller : s.caller.path < next.paths)
    (hBody :
      Grows next.paths s.zOrder (next.paths + 1) count ss
        (body ⟨next.paths, s.zOrder, next.add ⟨1, 0⟩⟩)) :
    Grows s.caller.path s.caller.zOrder next.paths (count + 1)
      (s :: ss)
      (activated body (some s.caller.path) s.caller.zOrder
        s.zOrder s.statement.span next) := by
  let site : Site := ⟨next.paths, s.zOrder, next.add ⟨1, 0⟩⟩
  let last := emit site s.statement.span .finish
  have hActivated :
      activated body (some s.caller.path) s.caller.zOrder
          s.zOrder s.statement.span next =
        s.activation :: (body site ++ [last]) := by
    rw [Strand.activation, hPath]
    rfl
  rw [hActivated]
  have hFirst (r : Strand) (hr : r ∈ s :: ss) :
      s.caller.path < r.path := by
    rcases List.mem_cons.mp hr with rfl | hr
    · omega
    · have hIn := hBody.range hr
      omega
  have hOwn (r : Strand) (hr : r ∈ s :: ss) :
      Path.own (s.activation :: (body site ++ [last])) r.path =
        Path.own (body site ++ [last]) r.path := by
    have hLt := hFirst r hr
    have hNot : (some s.caller.path == some r.path) = false := by
      simp
      omega
    simp [Path.own, Strand.activation, hNot]
  exact {
    numbered := by
      rw [List.map_cons, hBody.numbered, hPath]
      exact List.range'_succ.symm
    own := by
      intro i hi hMain
      rcases List.mem_cons.mp hi with rfl | hi
      · refine ⟨rfl, ?_⟩
        intro hFinish
        cases hFinish
      · rcases List.mem_append.mp hi with hi | hi
        · exact absurd hMain (hBody.path_ne _
            (by omega) (by omega) i hi)
        · rw [List.mem_singleton.mp hi] at hMain
          have hId : next.paths = s.caller.path :=
            Option.some.inj hMain
          omega
    covered := by
      intro i hi
      rcases List.mem_cons.mp hi with rfl | hi
      · exact .inl rfl
      · right
        rcases List.mem_append.mp hi with hi | hi
        · rcases hBody.covered i hi with hNew | ⟨r, hr, hIn⟩
          · exact ⟨s, List.mem_cons_self .., hPath ▸ hNew⟩
          · exact ⟨r, List.mem_cons_of_mem s hr, hIn⟩
        · rw [List.mem_singleton.mp hi]
          exact ⟨s, List.mem_cons_self .., hPath ▸ rfl⟩
    complete := by
      intro r hr
      rw [hOwn r hr]
      rcases List.mem_cons.mp hr with rfl | hr
      · rw [hPath]
        exact hBody.complete_self rfl rfl rfl
      · exact hBody.complete_strand (Nat.lt_succ_self _) rfl hr
    started := by
      intro r hr
      rcases List.mem_cons.mp hr with rfl | hInner
      · exact ⟨[], _, rfl, fun _ hi =>
          absurd hi List.not_mem_nil⟩
      · have hLt := hFirst r hr
        rcases hBody.started r hInner
          with ⟨before, after, hSplit, hNew⟩
        refine ⟨s.activation :: before, after ++ [last], ?_, ?_⟩
        · rw [hSplit]
          simp
        · intro i hi
          rcases List.mem_cons.mp hi with rfl | hi
          · intro hSame
            have hId : s.caller.path = r.path :=
              Option.some.inj hSame
            omega
          · exact hNew i hi
    callers := by
      intro r hr
      rcases List.mem_cons.mp hr with rfl | hr
      · exact ⟨by omega, .inl ⟨rfl, rfl⟩⟩
      · rcases hBody.callers r hr with ⟨hLt, ⟨hMain, hZ⟩ | hIn⟩
        · exact ⟨hLt, .inr ⟨s, List.mem_cons_self ..,
            hMain.trans hPath.symm, hZ⟩⟩
        · rcases hIn with ⟨q, hq, hBy⟩
          exact ⟨hLt, .inr
            ⟨q, List.mem_cons_of_mem s hq, hBy⟩⟩ }

------------------------------------------------------------
-- Expanded Bodies
------------------------------------------------------------

section Bodies

variable {script : Script}
variable {tick : Nat}
variable {size : Function → Numbers}
variable {body : Function → Site → List Instruction}
variable {inner : Function → Site → List Strand}

/- Copies of a body in a row go on with the same path. -/
theorem grows_times
    (hBody : ∀ f site, site.path < site.next.paths →
      Grows site.path site.zOrder site.next.paths
        (size f).paths (inner f site) (body f site))
    (f : Function)
    {site : Site}
    (hSite : site.path < site.next.paths)
    (count : Nat) :
    Grows site.path site.zOrder site.next.paths
      (count * (size f).paths)
      ((List.range count).flatMap fun i =>
        inner f { site with
          next := site.next.add ((size f).times i) })
      ((List.range count).flatMap fun i =>
        body f { site with
          next := site.next.add ((size f).times i) }) := by
  induction count with
  | zero =>
      rw [Nat.zero_mul]
      exact Grows.nil _ _ _
  | succ count ih =>
      rw [List.range_succ, List.flatMap_append,
        List.flatMap_append, Nat.succ_mul,
        List.flatMap_singleton, List.flatMap_singleton]
      refine ih.append ?_ hSite
      exact hBody f
        { site with
          next := site.next.add ((size f).times count) }
        (Nat.lt_add_right _ hSite)

theorem grows_ofStatement
    (hBody : ∀ f site, site.path < site.next.paths →
      Grows site.path site.zOrder site.next.paths
        (size f).paths (inner f site) (body f site))
    {caller : Copy}
    (scope : Nat)
    (st : Statement)
    {site : Site}
    (hPath : caller.path = site.path)
    (hZOrder : caller.zOrder = site.zOrder)
    (hSite : site.path < site.next.paths) :
    Grows site.path site.zOrder site.next.paths
      (usedBy script size st.action).paths
      ((strand? script caller site st).toList ++
        (calls script size site st.action).flatMap fun x =>
          inner x.1 x.2)
      (ofStatement script tick size body scope st site) := by
  rcases st with ⟨action, span⟩
  cases action with
  | call name count =>
      cases hFind : script.find? name.text with
      | none =>
          simp only [ofStatement, usedBy, calls, strand?,
            hFind, Option.elim_none, Numbers.times,
            Numbers.zero, Nat.mul_zero]
          exact Grows.nil _ _ _
      | some f =>
          simp only [ofStatement, usedBy, calls, strand?,
            hFind, List.flatMap_map, Option.toList_none,
            List.nil_append]
          exact grows_times hBody f hSite count
  | callAsync name given =>
      cases hFind : script.find? name.text with
      | none =>
          simp only [ofStatement, usedBy, calls, strand?,
            hFind]
          exact Grows.nil _ _ _
      | some f =>
          let s : Strand :=
            ⟨caller, ⟨.callAsync name given, span⟩, given,
              site.next.paths⟩
          have hStrand := grows_activated (s := s) rfl
            (hPath ▸ hSite)
            (hBody f ⟨site.next.paths, s.zOrder,
              site.next.add ⟨1, 0⟩⟩ (Nat.lt_succ_self _))
          simp only [s, Strand.zOrder, hPath, hZOrder]
            at hStrand
          simpa [ofStatement, usedBy, calls, strand?, hFind,
            Numbers.add] using hStrand
  | _ =>
      apply Grows.of_forall
      simp [ofStatement, emit]

theorem grows_ofStatements
    (hBody : ∀ f site, site.path < site.next.paths →
      Grows site.path site.zOrder site.next.paths
        (size f).paths (inner f site) (body f site))
    {caller : Copy}
    (scope : Nat)
    (sts : List Statement)
    (site : Site)
    (hPath : caller.path = site.path)
    (hZOrder : caller.zOrder = site.zOrder)
    (hSite : site.path < site.next.paths) :
    Grows site.path site.zOrder site.next.paths
      (usedByAll script size sts).paths
      (strandsOfAll script size inner caller sts site)
      (ofStatements script tick size body scope sts
        site) := by
  induction sts generalizing site with
  | nil => exact Grows.nil _ _ _
  | cons st sts ih =>
      refine (grows_ofStatement hBody scope st hPath hZOrder
        hSite).append ?_ hSite
      let next :=
        site.next.add (usedBy script size st.action)
      exact ih { site with next := next } hPath
        hZOrder (Nat.lt_add_right _ hSite)

end Bodies

/- A body goes on with its path and has all its strands. -/
theorem grows_instructions
    (script : Script)
    (tick depth : Nat)
    (f : Function)
    (site : Site)
    (hSite : site.path < site.next.paths) :
    Grows site.path site.zOrder site.next.paths
      (used script depth f).paths (strands script depth f site)
      (instructions script tick depth f site) := by
  induction depth generalizing f site with
  | zero => exact Grows.nil _ _ _
  | succ depth ih =>
      exact grows_ofStatements ih _ f.body
        { site with next := site.next.add ⟨0, 1⟩ } rfl rfl
        hSite

/- Strands belong to the statements of copies. -/
theorem mem_strandsOfAll
    {script : Script}
    {size : Function → Numbers}
    {inner : Function → Site → List Strand}
    {caller : Copy}
    {sts : List Statement}
    {site : Site}
    {s : Strand}
    (h : s ∈ strandsOfAll script size inner caller sts
      site) :
    (s.caller = caller ∧ s.statement ∈ sts ∧
        ∃ name, s.statement.action =
          .callAsync name s.given) ∨
      ∃ x ∈ callsOfAll script size sts site,
        s ∈ inner x.1 x.2 := by
  induction sts generalizing site with
  | nil => cases h
  | cons st sts ih =>
      rw [strandsOfAll, List.append_assoc] at h
      rcases List.mem_append.mp h with hOwn | h
      · left
        unfold strand? at hOwn
        split at hOwn
        · rename_i name given hAction
          simp only [Option.mem_toList,
            Option.map_eq_some_iff] at hOwn
          rcases hOwn with ⟨_, -, rfl⟩
          exact ⟨rfl, List.mem_cons_self .., name, hAction⟩
        · cases hOwn
      · rcases List.mem_append.mp h with hInner | hRest
        · rcases List.mem_flatMap.mp hInner with ⟨x, hx, hs⟩
          exact .inr ⟨x, List.mem_append_left _ hx, hs⟩
        · rcases ih hRest
            with ⟨hCaller, hMem, hAction⟩ | ⟨x, hx, hs⟩
          · exact .inl ⟨hCaller, List.mem_cons_of_mem st hMem,
              hAction⟩
          · exact .inr ⟨x, List.mem_append_right _ hx, hs⟩

theorem mem_strands
    {script : Script}
    {depth : Nat}
    {f : Function}
    {site : Site}
    {s : Strand}
    (h : s ∈ strands script depth f site) :
    s.caller ∈ copies script depth f site ∧
      s.statement ∈ s.caller.function.body ∧
      ∃ name, s.statement.action =
        .callAsync name s.given := by
  induction depth generalizing f site with
  | zero => cases h
  | succ depth ih =>
      rcases mem_strandsOfAll h
        with ⟨hCaller, hMem, hAction⟩ | ⟨x, hx, hs⟩
      · refine ⟨?_, ?_, hAction⟩
        · rw [hCaller]
          exact List.mem_cons_self ..
        · rw [hCaller]
          exact hMem
      · rcases ih hs with ⟨hCopy, hMem, hAction⟩
        exact ⟨List.mem_cons_of_mem _
          (List.mem_flatMap.mpr ⟨x, hx, hCopy⟩), hMem, hAction⟩

theorem mem_activations
    {is : List Instruction}
    {target : Nat} :
    target ∈ activations is ↔
      ∃ i ∈ is, i.op = .activate target := by
  rw [activations, List.mem_filterMap]
  refine exists_congr fun i => and_congr_right fun _ => ?_
  constructor
  · intro h
    split at h
    · rename_i hOp
      rw [hOp, Option.some.inj h]
    · cases h
  · intro h
    rw [h]

/- Where nothing is activated twice, all others differ. -/
theorem op_ne_activate_of_nodup
    (before : List Instruction)
    {after : List Instruction}
    {i : Instruction}
    {target : Nat}
    (h : (activations (before ++ i :: after)).Nodup)
    (hOp : i.op = .activate target) :
    ∀ j ∈ before ++ after, j.op ≠ .activate target := by
  have hSplit :
      activations (before ++ i :: after) =
        activations before ++
          target :: activations after := by
    rw [activations_append]
    simp [activations, hOp]
  rw [hSplit, List.nodup_middle, List.nodup_cons,
    ← activations_append] at h
  intro j hj hSame
  exact h.1 (mem_activations.mpr ⟨j, hj, hSame⟩)

end Meaning

------------------------------------------------------------
-- Whole Scripts
------------------------------------------------------------

namespace Script

open Meaning (Strand Complete)

/- The strands of a whole script. -/
def strands (script : Script) : List Strand :=
  (script.find? entryName).elim [] fun start =>
    Meaning.strands script (script.functions.length + 1) start
      firstSite

/-
  Instructions that make up the paths of a script: path zero,
  activated from no path, and one path for each strand.
-/
structure ActivationTree
    (script : Script)
    (is : List Instruction) : Prop where
  /- There are no other paths, and no gaps between them. -/
  numbered :
    script.strands.map Strand.path =
      List.range' 1 script.strands.length
  paths :
    Path.ids is = List.range (script.strands.length + 1)
  /- A strand is started by an asynchronous call of a copy. -/
  called : ∀ s ∈ script.strands,
    s.caller ∈ script.copies ∧
      s.statement ∈ s.caller.function.body ∧
      ∃ name, s.statement.action = .callAsync name s.given
  launched : ∃ launcher rest,
    is = launcher :: rest ∧
      launcher.op = .activate 0 ∧
      launcher.path = none ∧
      ∀ i ∈ rest, i.op ≠ .activate 0
  /- Nothing of a strand comes before its one activation. -/
  activated : ∀ s ∈ script.strands,
    s.caller.path < s.path ∧
      ∃ before after,
        is = before ++ s.activation :: after ∧
          (∀ i ∈ before, i.path ≠ some s.path) ∧
          ∀ i ∈ before ++ after, i.op ≠ .activate s.path
  first : Complete 0 (Path.own is 0)
  complete : ∀ s ∈ script.strands,
    Complete s.zOrder (Path.own is s.path)
  inherited : ∀ s ∈ script.strands,
    ∀ i ∈ Path.own is s.caller.path,
      i.zOrder = some s.caller.zOrder
  scopes : ∀ i ∈ is, ∀ j ∈ is, ∀ scope,
    i.op.scope? = some scope →
      j.op.scope? = some scope → i.path = j.path

section Expanded

variable {script : Script}
variable {source : SourceText}
variable {device : Device}
variable {expanded : Expanded}

/- Labels and jumps are on the path of their copy. -/
theorem exists_copy_of_scope
    (h : script.expand source device = .ok expanded)
    {i : Instruction}
    (hi : i ∈ expanded.instructions)
    {scope : Nat}
    (hScope : i.op.scope? = some scope) :
    ∃ c ∈ script.copies,
      c.scope = scope ∧ i.path = some c.path := by
  have hIn :
      i ∈ expanded.instructions.filter
        (Meaning.inScope scope) := by
    refine List.mem_filter.mpr ⟨hi, ?_⟩
    simp [Meaning.inScope, Op.inScope, hScope]
  rw [filter_expanded h] at hIn
  rcases List.mem_flatMap.mp hIn with ⟨c, hc, hLabel⟩
  unfold Meaning.labelsIn at hLabel
  split at hLabel
  · rename_i hSame
    exact ⟨c, hc, hSame, c.path_of_mem_labels hLabel⟩
  · cases hLabel

/- Scopes are not shared between paths. -/
theorem path_eq_of_scope
    (h : script.expand source device = .ok expanded) :
    ∀ i ∈ expanded.instructions,
      ∀ j ∈ expanded.instructions, ∀ scope,
        i.op.scope? = some scope →
          j.op.scope? = some scope → i.path = j.path := by
  intro i hi j hj scope hScope hScope'
  rcases exists_copy_of_scope h hi hScope
    with ⟨c, hc, hSame, hPath⟩
  rcases exists_copy_of_scope h hj hScope'
    with ⟨d, hd, hSame', hPath'⟩
  have hCopy : c = d :=
    List.inj_on_of_nodup_map (nodup_scopes script) hc hd
      (hSame.trans hSame'.symm)
  rw [hPath, hPath', hCopy]

/-
  The body of a script that expands grows from its first
  path, between a launcher and the end of that path.
-/
theorem exists_grows
    (h : script.expand source device = .ok expanded) :
    ∃ start body last,
      expanded.instructions =
          ⟨.activate 0, none, some 0, some start⟩ ::
            (body ++ [last]) ∧
        last.op = .finish ∧
        last.path = some 0 ∧
        last.zOrder = some 0 ∧
        Meaning.activations body =
          List.range' 1 script.strands.length ∧
        Meaning.Grows 0 0 1 script.strands.length
          script.strands body := by
  rcases expand_yields h with ⟨start, hStart, -, hAll⟩
  let depth := script.functions.length + 1
  have hStrands :
      script.strands =
        Meaning.strands script depth start firstSite := by
    rw [strands, hStart]
    rfl
  have hGrows := Meaning.grows_instructions script
    device.tickMillis depth start firstSite
    Nat.zero_lt_one
  have hLength :
      (Meaning.strands script depth start
          firstSite).length =
        (Meaning.used script depth start).paths := by
    simpa using congrArg List.length hGrows.numbered
  refine ⟨start.span, _, _,
    (hAll depth (Nat.lt_succ_self _)).2, rfl, rfl, rfl, ?_, ?_⟩
  · rw [hStrands, hLength]
    exact Meaning.activations_instructions script
      device.tickMillis depth start firstSite
  · rw [hStrands, hLength]
    exact hGrows

/- Each path that is activated is activated once. -/
theorem activations_expanded
    (h : script.expand source device = .ok expanded) :
    Meaning.activations expanded.instructions =
      List.range (script.strands.length + 1) := by
  rcases exists_grows h
    with ⟨start, body, last, hIs, hLast, -, -, hBody, -⟩
  have hEnd : Meaning.activations [last] = [] := by
    simp [Meaning.activations, hLast]
  rw [hIs, List.range_eq_range', List.range'_succ,
    ← List.singleton_append, Meaning.activations_append,
    Meaning.activations_append, hBody, hEnd, List.append_nil]
  rfl

/- The paths are numbered from zero on. -/
theorem ids_expanded
    (h : script.expand source device = .ok expanded) :
    Path.ids expanded.instructions =
      List.range (script.strands.length + 1) := by
  rcases exists_grows h
    with ⟨start, body, last, hIs, -, hPath, -, -, hGrows⟩
  apply (Path.pairwise_ids _).eq_of_mem_iff
    List.pairwise_lt_range
  intro id
  -- The launcher is on no path.
  have hOwn :
      Path.own expanded.instructions id =
        Path.own (body ++ [last]) id := by
    rw [hIs]
    rfl
  rw [Path.mem_ids_iff_own_ne_nil, hOwn,
    ← Path.mem_ids_iff_own_ne_nil, Path.mem_ids,
    hGrows.exists_path_iff hPath, List.mem_range]
  omega

/- All of path zero has the z-order zero. -/
theorem complete_expanded
    (h : script.expand source device = .ok expanded) :
    Complete 0 (Path.own expanded.instructions 0) := by
  rcases exists_grows h with ⟨start, body, last, hIs, hLast,
    hPath, hZOrder, -, hGrows⟩
  rw [hIs]
  exact hGrows.complete_self hPath hZOrder hLast

/-
  Whatever a script expands to is a tree of paths: each is
  activated once, by a path before it, has one z-order, given
  or inherited, and ends with its only end. The number of a
  label scope tells the path.
-/
theorem expansion_is_activation_tree
    (h : script.expand source device = .ok expanded) :
    ActivationTree script expanded.instructions := by
  have hActivations := activations_expanded h
  have hNodup :
      (Meaning.activations expanded.instructions).Nodup := by
    rw [hActivations]
    exact List.nodup_range
  have hScopes := path_eq_of_scope h
  have hIds := ids_expanded h
  have hFirst := complete_expanded h
  have hCalled : ∀ s ∈ script.strands,
      s.caller ∈ script.copies ∧
        s.statement ∈ s.caller.function.body ∧
        ∃ name,
          s.statement.action = .callAsync name s.given := by
    intro s hs
    unfold strands at hs
    unfold copies
    cases hStart : script.find? entryName with
    | none =>
        rw [hStart] at hs
        cases hs
    | some start =>
        rw [hStart] at hs
        exact Meaning.mem_strands hs
  rcases exists_grows h
    with ⟨start, body, last, hIs, -, hPath, -, -, hGrows⟩
  rw [hIs] at hNodup hScopes hIds hFirst ⊢
  have hStrand : ∀ s ∈ script.strands,
      Complete s.zOrder
        (Path.own (body ++ [last]) s.path) :=
    fun s hs =>
      hGrows.complete_strand Nat.zero_lt_one hPath hs
  exact {
    numbered := hGrows.numbered
    paths := hIds
    called := hCalled
    launched := by
      refine ⟨_, _, rfl, rfl, rfl, ?_⟩
      exact Meaning.op_ne_activate_of_nodup []
        hNodup rfl
    activated := by
      intro s hs
      refine ⟨(hGrows.callers s hs).1, ?_⟩
      rcases hGrows.started s hs
        with ⟨before, after, hSplit, hNew⟩
      let launcher : Instruction :=
        ⟨.activate 0, none, some 0, some start⟩
      have hAll :
          launcher :: (body ++ [last]) =
            (launcher :: before) ++
              s.activation :: (after ++ [last]) := by
        rw [hSplit]
        simp
      refine ⟨launcher :: before, after ++ [last], hAll, ?_,
        Meaning.op_ne_activate_of_nodup _ (hAll ▸ hNodup)
          rfl⟩
      intro i hi
      rcases List.mem_cons.mp hi with rfl | hi
      · exact nofun
      · exact hNew i hi
    first := hFirst
    complete := hStrand
    inherited := by
      intro s hs
      rcases (hGrows.callers s hs).2
        with ⟨hCaller, hZ⟩ | ⟨r, hr, hCaller, hZ⟩
      · rw [hCaller, hZ]
        exact hFirst.zOrders
      · rw [hCaller, hZ]
        exact (hStrand r hr).zOrders
    scopes := hScopes }

end Expanded

/-
  A called body that is given a z-order, and one that takes
  over that of its caller.
-/
theorem expansion_is_activation_tree_nested :
    ∃ expanded,
      nested.expand ⟨"show", ""⟩ nestedDevice =
          .ok expanded ∧
        ActivationTree nested expanded.instructions ∧
        nested.strands.map
            (fun s => (s.caller.path, s.path, s.zOrder)) =
          [(0, 1, 3), (0, 2, 0)] := by
  have hOk :
      (nested.expand ⟨"show", ""⟩ nestedDevice).isOk =
        true := by
    decide +kernel
  rcases Success.exists_of_isOk hOk with ⟨expanded, h⟩
  exact ⟨expanded, h, expansion_is_activation_tree h,
    by decide⟩

end Script

end LightShow
