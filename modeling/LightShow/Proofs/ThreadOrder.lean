import Mathlib.Data.Finset.Card
import Mathlib.Data.Finset.Dedup
import LightShow.Proofs.Encodable
import LightShow.Proofs.EntryThread

/-
  Paths become threads in the order of z-order and number.

  Scheduling fails for one of two reasons: there are more
  paths than threads, or an activation on a path names a
  path that has no instructions. Otherwise every path is
  there once with its own instructions in order, its thread
  is its place among the paths, and activations name places.

  Key definitions include:
    * `Path.numbers`
    * `Path.Astray`
    * `Path.Carries`
    * `Path.Threaded`
    * `Path.Decides`

  Main statements:
    * `Path.pairwise_schedule`
    * `Path.threaded_of_schedule`
    * `Path.paths_become_threads`
-/

namespace LightShow

namespace Path

------------------------------------------------------------
-- What Scheduling Promises
------------------------------------------------------------

/- The numbers of the paths that instructions are on. -/
def numbers (is : List Instruction) : Finset Nat :=
  (is.filterMap Instruction.path).toFinset

/- An activation on some path of a path that is not there. -/
structure Astray
    (is : List Instruction)
    (i : Instruction)
    (target : Nat) : Prop where
  mem : i ∈ is
  carried : i.path.isSome
  activates : i.op = .activate target
  missing : target ∉ numbers is

/- Activations name the place of a path, not its number. -/
inductive Renamed (paths : List Path) : Op → Op → Prop
  | activate {place : Nat} {p : Path} :
      paths[place]? = some p →
        Renamed paths (.activate p.id) (.activate place)
  | other {op : Op} :
      (∀ target, op ≠ .activate target) →
        Renamed paths op op

/- A step that is an instruction put on a thread. -/
structure Carries
    (paths : List Path)
    (thread : Nat)
    (i : Instruction)
    (s : Step) : Prop where
  renamed : Renamed paths i.op s.op
  /- Nothing else is changed, and nothing encoded yet. -/
  kept : s = { op := s.op, span := i.span, thread := thread }

/- Runs below another path: a lower z-order, then number. -/
def Below (p q : Path) : Prop :=
  p.zOrder < q.zOrder ∨ p.zOrder = q.zOrder ∧ p.id < q.id

/- Instructions as paths in the order of their threads. -/
structure Threaded
    (is : List Instruction)
    (paths : List Path) : Prop where
  /- Every number that occurs has one path. -/
  once : (paths.map Path.id).Nodup
  present : ∀ id, id ∈ paths.map Path.id ↔ id ∈ numbers is
  /- The first instruction of a path gives the z-order. -/
  zOrders : ∀ p ∈ paths,
    p.zOrder =
      ((is.find? fun i => i.path == some p.id).bind
        Instruction.zOrder).getD 0
  ascending : paths.Pairwise Below
  /- The thread of a path is its place. -/
  threads : ∀ (place : Nat) (p : Path),
    paths[place]? = some p → p.thread = place
  /- The steps of a path are its instructions, in order. -/
  steps : ∀ p ∈ paths,
    List.Forall₂ (Carries paths p.thread)
      (is.filter fun i => i.path == some p.id) p.steps

/- What scheduling makes of instructions, faults included. -/
structure Decides
    (maxThreads : Nat)
    (is : List Instruction)
    (r : Except Located (List Path)) : Prop where
  crowded :
    (∃ count max span,
        r = .error ⟨.tooManyThreads count max, span⟩) ↔
      maxThreads < (numbers is).card
  astray : (numbers is).card ≤ maxThreads →
    ((∃ target span,
        r = .error ⟨.unresolvedPath target, span⟩) ↔
      ∃ i target, Astray is i target)
  /- Faults tell the numbers and the place they are about. -/
  faults : ∀ e, r = .error e →
    e = ⟨.tooManyThreads (numbers is).card maxThreads, none⟩ ∨
      ∃ i target, Astray is i target ∧
        e = ⟨.unresolvedPath target, i.span⟩
  threaded : (numbers is).card ≤ maxThreads →
    (∀ i target, ¬Astray is i target) →
      ∃ paths, r = .ok paths ∧ Threaded is paths

------------------------------------------------------------
-- Numbers
------------------------------------------------------------

variable {is : List Instruction}

theorem mem_numbers
    {id : Nat} :
    id ∈ numbers is ↔ id ∈ ids is := by
  simp [numbers, mem_ids]

/- Counting numbers is counting the paths to be made. -/
theorem card_numbers
    (is : List Instruction) :
    (numbers is).card = (ids is).length := by
  have hSame : numbers is = (ids is).toFinset := by
    ext id
    rw [mem_numbers, List.mem_toFinset]
  rw [hSame, List.toFinset_card_of_nodup (nodup_ids is)]

theorem mem_threads_iff
    {id : Nat} :
    id ∈ (order is).map Prod.snd ↔ id ∈ numbers is :=
  (perm_order is).mem_iff.trans mem_numbers.symm

/- No activation on a path is astray if all name paths. -/
theorem mem_ids_of_not_astray
    (h : ∀ i target, ¬Astray is i target)
    {id : Nat}
    {i : Instruction}
    (hi : i ∈ own is id)
    {target : Nat}
    (hOp : i.op = .activate target) :
    target ∈ ids is := by
  rcases List.mem_filter.mp hi with ⟨hMem, hPath⟩
  by_contra hMissing
  refine h i target ⟨hMem, ?_, hOp, ?_⟩
  · rw [eq_of_beq hPath]
    rfl
  · rwa [mem_numbers]

------------------------------------------------------------
-- Faults
------------------------------------------------------------

theorem retarget_eq_error
    {threads : List Nat}
    {span : Option Span}
    {op : Op}
    {e : Located}
    (h : retarget threads span op = .error e) :
    ∃ target, op = .activate target ∧
      target ∉ threads ∧
      e = ⟨.unresolvedPath target, span⟩ := by
  unfold retarget at h
  split at h
  · rename_i target
    split at h
    · cases h
    · rename_i hNone
      cases h
      exact ⟨target, rfl, List.idxOf?_eq_none_iff.mp hNone,
        rfl⟩
  · cases h

/- With threads enough, only an astray activation fails. -/
theorem schedule_eq_error
    {maxThreads : Nat}
    {e : Located}
    (hFew : (ids is).length ≤ maxThreads)
    (h : schedule maxThreads is = .error e) :
    ∃ i target, Astray is i target ∧
      e = ⟨.unresolvedPath target, i.span⟩ := by
  simp only [schedule, if_neg (Nat.not_lt.mpr hFew)] at h
  rcases Success.mapM_eq_error h with ⟨⟨key, thread⟩, -, h⟩
  rcases Success.bind_eq_error h with h | ⟨steps, -, h⟩
  · rcases Success.mapM_eq_error h with ⟨i, hi, h⟩
    rcases Success.bind_eq_error h with h | ⟨op, -, h⟩
    · rcases retarget_eq_error h
        with ⟨target, hOp, hMissing, rfl⟩
      rcases List.mem_filter.mp hi with ⟨hMem, hPath⟩
      refine ⟨i, target, ⟨hMem, ?_, hOp, ?_⟩, rfl⟩
      · rw [eq_of_beq hPath]
        rfl
      · exact fun hThere =>
          hMissing (mem_threads_iff.mpr hThere)
    · cases h
  · cases h

/- An astray activation leaves no paths. -/
theorem not_astray_of_schedule
    {maxThreads : Nat}
    {paths : List Path}
    (h : schedule maxThreads is = .ok paths)
    (i : Instruction)
    (target : Nat) :
    ¬Astray is i target := by
  intro hAstray
  rcases Option.isSome_iff_exists.mp hAstray.carried
    with ⟨id, hPath⟩
  rcases exists_mem_schedule h hAstray.mem hPath
    with ⟨p, hp, rfl⟩
  have hSteps := steps_schedule h hp
  have hOwn : i ∈ own is p.id :=
    List.mem_filter.mpr ⟨hAstray.mem, by simp [hPath]⟩
  rcases List.mem_iff_getElem.mp hOwn with ⟨k, hk, hAt⟩
  have hStep :=
    (toStep_eq_ok (hSteps.get hk (hSteps.length_eq ▸ hk))).1
  simp only [List.get_eq_getElem, hAt, hAstray.activates]
    at hStep
  have hThere : target ∈ (order is).map Prod.snd := by
    by_contra hMissing
    rw [retarget, List.idxOf?_eq_none_iff.mpr hMissing]
      at hStep
    cases hStep
  exact hAstray.missing (mem_threads_iff.mp hThere)

------------------------------------------------------------
-- The Order Of Paths
------------------------------------------------------------

/- Ordered keys of different paths ascend strictly. -/
theorem pairwise_order
    (is : List Instruction) :
    (order is).Pairwise fun a b =>
      a.1 < b.1 ∨ a.1 = b.1 ∧ a.2 < b.2 := by
  have hDistinct :
      (order is).Pairwise fun a b => a.2 ≠ b.2 :=
    List.pairwise_map.mp (nodup_order is)
  refine ((sorted_order is).and hDistinct).imp ?_
  rintro a b ⟨hLe, hNe⟩
  rcases keyLe_iff.mp hLe with hLt | ⟨hEq, hLe⟩
  · exact .inl hLt
  · exact .inr ⟨hEq, Nat.lt_of_le_of_ne hLe hNe⟩

theorem pairwise_schedule
    {maxThreads : Nat}
    {paths : List Path}
    (h : schedule maxThreads is = .ok paths) :
    paths.Pairwise Below := by
  have hOrder := pairwise_order is
  rw [← map_key_schedule h, List.pairwise_map] at hOrder
  exact hOrder

/- The key of a path is made of its first instruction. -/
theorem zOrder_schedule
    {maxThreads : Nat}
    {paths : List Path}
    (h : schedule maxThreads is = .ok paths)
    {p : Path}
    (hp : p ∈ paths) :
    p.zOrder = firstZOrder (own is p.id) := by
  have hKey : (p.zOrder, p.id) ∈ order is := by
    rw [← map_key_schedule h]
    exact List.mem_map_of_mem hp
  have hKey := List.mem_mergeSort.mp hKey
  rcases List.mem_map.mp hKey with ⟨id, -, hEq⟩
  rw [Prod.mk.injEq] at hEq
  rw [← hEq.1, hEq.2]

------------------------------------------------------------
-- Steps On Threads
------------------------------------------------------------

/- Threads are places, and every path has its own. -/
theorem thread_schedule
    {maxThreads : Nat}
    {paths : List Path}
    (h : schedule maxThreads is = .ok paths)
    {place : Nat}
    {p : Path}
    (hp : paths[place]? = some p) :
    p.thread = place := by
  have hThreads := congrArg (·[place]?) (map_thread_schedule h)
  have hLt := (List.getElem?_eq_some_iff.mp hp).1
  simp only [List.getElem?_map, hp, Option.map_some,
    List.getElem?_range hLt] at hThreads
  exact Option.some.inj hThreads

theorem renamed_of_retarget
    {maxThreads : Nat}
    {paths : List Path}
    (h : schedule maxThreads is = .ok paths)
    {span : Option Span}
    {op new : Op}
    (hNew : retarget ((order is).map Prod.snd) span op =
      .ok new) :
    Renamed paths op new := by
  unfold retarget at hNew
  split at hNew
  · rename_i target
    split at hNew
    · rename_i place hFind
      cases hNew
      rw [← map_id_schedule h] at hFind
      rcases List.findIdx?_eq_some_iff_getElem.mp hFind
        with ⟨hLt, hEq, -⟩
      rw [List.length_map] at hLt
      have hId : paths[place].id = target := by
        simpa using hEq
      rw [← hId]
      exact .activate (List.getElem?_eq_getElem hLt)
    · cases hNew
  · rename_i hOther
    cases hNew
    exact .other hOther

theorem carries_of_toStep
    {maxThreads : Nat}
    {paths : List Path}
    (h : schedule maxThreads is = .ok paths)
    {thread : Nat}
    {i : Instruction}
    {s : Step}
    (hStep : toStep ((order is).map Prod.snd) thread i =
      .ok s) :
    Carries paths thread i s := by
  rcases Success.bind_eq_ok hStep with ⟨op, hOp, hStep⟩
  cases Success.pure_eq_ok hStep
  exact ⟨renamed_of_retarget h hOp, rfl⟩

/- The steps of a path carry its instructions. -/
theorem carries_schedule
    {maxThreads : Nat}
    {paths : List Path}
    (h : schedule maxThreads is = .ok paths)
    {p : Path}
    (hp : p ∈ paths) :
    List.Forall₂ (Carries paths p.thread) (own is p.id)
      p.steps := by
  refine (steps_schedule h hp).imp ?_
  intro i s hStep
  exact carries_of_toStep h hStep

------------------------------------------------------------
-- Scheduling
------------------------------------------------------------

theorem threaded_of_schedule
    {maxThreads : Nat}
    {paths : List Path}
    (h : schedule maxThreads is = .ok paths) :
    Threaded is paths where
  once := nodup_id_schedule h
  present := by
    intro id
    rw [map_id_schedule h]
    exact mem_threads_iff
  zOrders := by
    intro p hp
    rw [zOrder_schedule h hp, firstZOrder, own,
      List.head?_filter]
  ascending := pairwise_schedule h
  threads := fun _ _ hp => thread_schedule h hp
  steps := fun _ hp => carries_schedule h hp

/-
  Scheduling fails for want of threads, or else for an
  activation that is astray, or else makes threads of the
  paths in the order of z-order and number.
-/
theorem paths_become_threads
    (maxThreads : Nat)
    (is : List Instruction) :
    Decides maxThreads is (schedule maxThreads is) := by
  have hFaults : ∀ e, schedule maxThreads is = .error e →
      maxThreads < (ids is).length ∧
          e = ⟨.tooManyThreads (ids is).length maxThreads,
            none⟩ ∨
        ∃ i target, Astray is i target ∧
          e = ⟨.unresolvedPath target, i.span⟩ := by
    intro e h
    by_cases hMany : maxThreads < (ids is).length
    · rw [schedule_of_lt hMany] at h
      exact .inl ⟨hMany, (Except.error.inj h).symm⟩
    · exact .inr (schedule_eq_error (Nat.not_lt.mp hMany) h)
  refine ⟨?_, ?_, ?_, ?_⟩ <;> rw [card_numbers]
  · constructor
    · rintro ⟨count, max, span, h⟩
      rcases hFaults _ h with ⟨hMany, -⟩ | ⟨i, target, -, hEq⟩
      · exact hMany
      · cases hEq
    · exact fun hMany => ⟨_, _, _, schedule_of_lt hMany⟩
  · intro hFew
    constructor
    · rintro ⟨target, span, h⟩
      rcases schedule_eq_error hFew h
        with ⟨i, target, hAstray, -⟩
      exact ⟨i, target, hAstray⟩
    · rintro ⟨i, target, hAstray⟩
      cases h : schedule maxThreads is with
      | ok paths =>
          exact absurd hAstray
            (not_astray_of_schedule h i target)
      | error e =>
          rcases schedule_eq_error hFew h
            with ⟨j, other, -, rfl⟩
          exact ⟨other, j.span, rfl⟩
  · intro e h
    rcases hFaults e h with ⟨-, hEq⟩ | hAstray
    · exact .inl hEq
    · exact .inr hAstray
  · intro hFew hNone
    rcases delivers_schedule_of_own hFew
      (fun _ _ hi _ hOp => mem_ids_of_not_astray hNone hi hOp)
      with ⟨paths, h, -⟩
    exact ⟨paths, h, threaded_of_schedule h⟩

/- Equal z-orders leave the order to the numbers. -/
example :
    (schedule 3
      [⟨.activate 9, some 4, some 1, none⟩,
       ⟨.finish, some 2, some 1, none⟩,
       ⟨.finish, some 9, none, none⟩]).toOption.map
        (List.map fun p => (p.id, p.steps.map Step.op)) =
      some [(9, [.finish]), (2, [.finish]),
        (4, [.activate 0])] := by
  cbv

end Path

end LightShow
