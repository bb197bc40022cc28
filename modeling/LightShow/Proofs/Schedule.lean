import Mathlib.Data.List.Pairwise
import Mathlib.Data.List.Permutation
import LightShow.Image.Schedule
import LightShow.Proofs.Success

/-
  Paths hold the instructions of their number, in order.

  Scheduling makes one path for each number that occurs. Its
  steps are the instructions of that number, one after the
  other, and only activations are renamed on the way.

  Main statements:
    * `Path.mem_ids`
    * `Path.pairwise_ids`
    * `Path.nodup_ids`
    * `Path.ofKey_eq_ok`
    * `Path.map_id_schedule`
    * `Path.steps_schedule`
-/

namespace LightShow

namespace Path

------------------------------------------------------------
-- Path Numbers
------------------------------------------------------------

/- Leaving out repetitions loses no number. -/
theorem mem_eraseReps_loop
    (first : Nat)
    (rest seen : List Nat)
    (n : Nat) :
    n ∈ List.eraseRepsBy.loop (· == ·) first rest seen ↔
      n ∈ seen ∨ n = first ∨ n ∈ rest := by
  induction rest generalizing first seen with
  | nil => simp [List.eraseRepsBy.loop, or_comm]
  | cons second rest ih =>
      rw [List.eraseRepsBy.loop]
      cases hSame : first == second with
      | true =>
          have hEq : first = second := by simpa using hSame
          subst hEq
          simp [ih]
      | false =>
          simp only [ih, List.mem_cons]
          grind

/- In ascending numbers, what repeats stands together. -/
theorem pairwise_eraseReps_loop
    (first : Nat)
    (rest seen : List Nat)
    (hSorted : (first :: rest).Pairwise (· ≤ ·))
    (hSeen : (seen.reverse ++ [first]).Pairwise (· < ·)) :
    (List.eraseRepsBy.loop (· == ·) first rest
      seen).Pairwise (· < ·) := by
  induction rest generalizing first seen with
  | nil => simpa [List.eraseRepsBy.loop] using hSeen
  | cons second rest ih =>
      have hTail := (List.pairwise_cons.mp hSorted).2
      have hLe :=
        (List.pairwise_cons.mp hSorted).1 second
          (List.mem_cons_self ..)
      rw [List.eraseRepsBy.loop]
      cases hSame : first == second with
      | true =>
          have hEq : first = second := by simpa using hSame
          subst hEq
          exact ih first seen hTail hSeen
      | false =>
          have hNe : first ≠ second := by simpa using hSame
          apply ih second (first :: seen) hTail
          rw [List.reverse_cons]
          refine List.pairwise_append.mpr
            ⟨hSeen, List.pairwise_singleton _ _, ?_⟩
          intro n hn m hm
          have hm : m = second := by simpa using hm
          have hFirst : n ≤ first := by
            rcases List.mem_append.mp hn with hn | hn
            · exact Nat.le_of_lt
                ((List.pairwise_append.mp hSeen).2.2 n hn
                  first (List.mem_singleton.mpr rfl))
            · exact Nat.le_of_eq (by simpa using hn)
          omega

/- The path numbers are those that occur. -/
theorem mem_ids
    {is : List Instruction}
    {id : Nat} :
    id ∈ ids is ↔ ∃ i ∈ is, i.path = some id := by
  rw [ids, List.eraseReps]
  have hSorted :
      ∀ n, n ∈ (is.filterMap Instruction.path).mergeSort ↔
        ∃ i ∈ is, i.path = some n := by
    simp
  rw [← hSorted]
  cases (is.filterMap Instruction.path).mergeSort with
  | nil => rfl
  | cons first rest =>
      simp [List.eraseRepsBy, mem_eraseReps_loop]

/- A path number occurs if it has instructions. -/
theorem mem_ids_iff_own_ne_nil
    {is : List Instruction}
    {id : Nat} :
    id ∈ ids is ↔ own is id ≠ [] := by
  rw [mem_ids, own, ne_eq, List.filter_eq_nil_iff]
  simp

/- The path numbers are ascending. -/
theorem pairwise_ids
    (is : List Instruction) :
    (ids is).Pairwise (· < ·) := by
  have hSorted :
      ((is.filterMap Instruction.path).mergeSort).Pairwise
        (· ≤ ·) := by
    have hLe :
        ((is.filterMap Instruction.path).mergeSort).Pairwise
          fun a b => decide (a ≤ b) = true :=
      List.pairwise_mergeSort
        (by simpa using fun _ _ _ => Nat.le_trans)
        (by simpa using Nat.le_total)
        (is.filterMap Instruction.path)
    simpa using hLe
  rw [ids, List.eraseReps]
  cases hList :
      (is.filterMap Instruction.path).mergeSort with
  | nil => exact .nil
  | cons first rest =>
      rw [hList] at hSorted
      exact pairwise_eraseReps_loop first rest [] hSorted
        (List.pairwise_singleton _ _)

/- Each path number is counted once. -/
theorem nodup_ids
    (is : List Instruction) :
    (ids is).Nodup :=
  (pairwise_ids is).imp Nat.ne_of_lt

/- Ordering by z-order keeps the path numbers. -/
theorem perm_order
    (is : List Instruction) :
    ((order is).map Prod.snd).Perm (ids is) := by
  have hKeys : (keys is).map Prod.snd = ids is := by
    simp [keys, Function.comp_def]
  rw [← hKeys]
  exact (List.mergeSort_perm (keys is) keyLe).map Prod.snd

theorem keyLe_iff
    {a b : Nat × Nat} :
    keyLe a b = true ↔
      a.1 < b.1 ∨ a.1 = b.1 ∧ a.2 ≤ b.2 := by
  simp [keyLe]

/- The z-order comes first and the id breaks its ties. -/
theorem sorted_order
    (is : List Instruction) :
    (order is).Pairwise fun a b => keyLe a b = true := by
  apply List.pairwise_mergeSort
  · simp only [keyLe_iff]
    omega
  · simp only [Bool.or_eq_true, keyLe_iff]
    omega

theorem nodup_order
    (is : List Instruction) :
    ((order is).map Prod.snd).Nodup :=
  (perm_order is).nodup_iff.mpr (nodup_ids is)

/- The path of an instruction has its place in the order. -/
theorem mem_order
    {is : List Instruction}
    {i : Instruction}
    {id : Nat}
    (hi : i ∈ is)
    (hPath : i.path = some id) :
    id ∈ (order is).map Prod.snd :=
  (perm_order is).mem_iff.mpr (mem_ids.mpr ⟨i, hi, hPath⟩)

------------------------------------------------------------
-- Steps
------------------------------------------------------------

/- What a step takes over from its instruction. -/
theorem toStep_eq_ok
    {threads : List Nat}
    {thread : Nat}
    {i : Instruction}
    {s : Step}
    (h : toStep threads thread i = .ok s) :
    retarget threads i.span i.op = .ok s.op ∧
      s.span = i.span := by
  rcases Success.bind_eq_ok h with ⟨op, hOp, h⟩
  cases Success.pure_eq_ok h
  exact ⟨hOp, rfl⟩

/- Only activations are renamed. -/
theorem retarget_eq_ok
    {threads : List Nat}
    {span : Option Span}
    {op new : Op}
    (h : retarget threads span op = .ok new) :
    new = op ∨
      ∃ target thread,
        op = .activate target ∧ new = .activate thread := by
  unfold retarget at h
  split at h
  · rename_i target
    split at h
    · rename_i thread _
      exact .inr ⟨target, thread, rfl,
        (Except.ok.inj h).symm⟩
    · cases h
  · exact .inl (Except.ok.inj h).symm

/- The paths that scheduling makes, one for each number. -/
theorem schedule_eq_ok
    {maxThreads : Nat}
    {is : List Instruction}
    {paths : List Path}
    (h : schedule maxThreads is = .ok paths) :
    List.Forall₂
      (fun x p =>
        ofKey is ((order is).map Prod.snd) x.1 x.2 = .ok p)
      (order is).zipIdx paths := by
  by_cases hCount : maxThreads < (ids is).length
  · simp [schedule, hCount] at h
  · simp only [schedule, hCount, if_false] at h
    exact Success.mapM_eq_ok h

/-
  A path has the key and the thread that it is made for, and
  its steps are the instructions of its number.
-/
theorem ofKey_eq_ok
    {is : List Instruction}
    {threads : List Nat}
    {key : Nat × Nat}
    {thread : Nat}
    {p : Path}
    (h : ofKey is threads key thread = .ok p) :
    (p.zOrder, p.id) = key ∧ p.thread = thread ∧
      List.Forall₂
        (fun i s => toStep threads p.thread i = .ok s)
        (own is p.id) p.steps := by
  rcases Success.bind_eq_ok h with ⟨steps, hSteps, h⟩
  cases Success.pure_eq_ok h
  exact ⟨rfl, rfl, Success.mapM_eq_ok hSteps⟩

/- The z-orders and numbers of the paths, in their order. -/
theorem map_key_schedule
    {maxThreads : Nat}
    {is : List Instruction}
    {paths : List Path}
    (h : schedule maxThreads is = .ok paths) :
    paths.map (fun p => (p.zOrder, p.id)) = order is := by
  have hKeys :
      paths.map (fun p => (p.zOrder, p.id)) =
        (order is).zipIdx.map Prod.fst :=
    Success.map_eq_of_forall₂
      (fun _ _ hp => (ofKey_eq_ok hp).1) (schedule_eq_ok h)
  rw [hKeys, List.zipIdx_map_fst]

/- The numbers of the paths are those of the instructions. -/
theorem map_id_schedule
    {maxThreads : Nat}
    {is : List Instruction}
    {paths : List Path}
    (h : schedule maxThreads is = .ok paths) :
    paths.map Path.id = (order is).map Prod.snd := by
  rw [← map_key_schedule h, List.map_map]
  rfl

/- No two paths have the same number. -/
theorem nodup_id_schedule
    {maxThreads : Nat}
    {is : List Instruction}
    {paths : List Path}
    (h : schedule maxThreads is = .ok paths) :
    (paths.map Path.id).Nodup := by
  rw [map_id_schedule h]
  exact nodup_order is

/- Every path of the instructions is scheduled. -/
theorem exists_mem_schedule
    {maxThreads : Nat}
    {is : List Instruction}
    {paths : List Path}
    (h : schedule maxThreads is = .ok paths)
    {i : Instruction}
    {id : Nat}
    (hi : i ∈ is)
    (hPath : i.path = some id) :
    ∃ p ∈ paths, p.id = id := by
  have hId : id ∈ paths.map Path.id := by
    rw [map_id_schedule h]
    exact mem_order hi hPath
  exact List.mem_map.mp hId

/- The steps of a path are its instructions, in order. -/
theorem steps_schedule
    {maxThreads : Nat}
    {is : List Instruction}
    {paths : List Path}
    (h : schedule maxThreads is = .ok paths)
    {p : Path}
    (hp : p ∈ paths) :
    List.Forall₂
      (fun i s =>
        toStep ((order is).map Prod.snd) p.thread i = .ok s)
      (own is p.id) p.steps := by
  rcases Success.exists_of_forall₂ (schedule_eq_ok h) p hp
    with ⟨x, -, hOf⟩
  exact (ofKey_eq_ok hOf).2.2

/- Every path has steps. -/
theorem steps_ne_nil_schedule
    {maxThreads : Nat}
    {is : List Instruction}
    {paths : List Path}
    (h : schedule maxThreads is = .ok paths)
    {p : Path}
    (hp : p ∈ paths) :
    p.steps ≠ [] := by
  have hId : p.id ∈ ids is := by
    apply (perm_order is).mem_iff.mp
    rw [← map_id_schedule h]
    exact List.mem_map_of_mem hp
  rcases mem_ids.mp hId with ⟨i, hi, hPath⟩
  have hOwn : i ∈ own is p.id :=
    List.mem_filter.mpr ⟨hi, by simp [hPath]⟩
  have hSteps := steps_schedule h hp
  intro hNil
  rw [hNil, List.forall₂_nil_right_iff] at hSteps
  rw [hSteps] at hOwn
  cases hOwn

end Path

end LightShow
