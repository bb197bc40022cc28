import Mathlib.Data.List.Sort
import LightShow.Proofs.Image
import LightShow.Proofs.Twins

/-
  Shows do not depend on how paths are interleaved, nor on
  what their numbers are.

  Scheduling looks at the instructions of each path for
  itself and at the order of the path numbers. Two lists with
  the same instructions on each path are therefore built
  alike, faults included; and if the paths are renumbered in
  the same order, they get the same threads as before, and no
  later stage looks at their numbers again.

  Key definitions include:
    * `Instruction.renumber`
    * `Instruction.pathNumbers`
    * `Instruction.labelKeys`

  Main statements:
    * `Path.schedule_congr`
    * `Path.alike_schedule_renumber`
    * `Show.alike_build_renumber`
    * `Show.built_from_strands`
-/

namespace LightShow

open Success (Alike)

------------------------------------------------------------
-- Interleavings
------------------------------------------------------------

namespace Path

section Interleaved

variable {xs ys : List Instruction}

theorem ids_congr
    (h : ∀ id, own xs id = own ys id) :
    ids xs = ids ys := by
  apply (pairwise_ids xs).eq_of_mem_iff (pairwise_ids ys)
  intro id
  rw [mem_ids_iff_own_ne_nil, mem_ids_iff_own_ne_nil, h id]

/- Paths are scheduled by what they hold. -/
theorem schedule_congr
    (h : ∀ id, own xs id = own ys id)
    (maxThreads : Nat) :
    schedule maxThreads xs = schedule maxThreads ys := by
  have hOrder : order xs = order ys := by
    simp only [order, keys, ids_congr h, h]
  have hKey : ofKey xs = ofKey ys := by
    funext threads key thread
    simp only [ofKey, h]
  simp only [schedule, ids_congr h, hOrder, hKey]

end Interleaved

end Path

------------------------------------------------------------
-- Renumbered Paths
------------------------------------------------------------

/- Give the path that an activation names a new number. -/
def Op.renumber (f : Nat → Nat) : Op → Op
  | .activate target => .activate (f target)
  | op => op

def Instruction.renumber
    (f : Nat → Nat)
    (i : Instruction) : Instruction :=
  { i with op := i.op.renumber f, path := i.path.map f }

def Path.renumber
    (f : Nat → Nat)
    (p : Path) : Path :=
  { p with id := f p.id }

/- The paths that some instructions are on or activate. -/
def Instruction.pathNumbers
    (is : List Instruction) : Set Nat :=
  {id | ∃ i ∈ is, i.path = some id ∨ i.op = .activate id}

/- The labels that some instructions set or jump to. -/
def Instruction.labelKeys
    (is : List Instruction) : Set LabelKey :=
  {k | ∃ i ∈ is, i.op.key? = some k}

namespace Path

section Renumbered

variable {f : Nat → Nat}
variable {is : List Instruction}

theorem mem_pathNumbers_of_mem_ids
    {id : Nat}
    (h : id ∈ ids is) :
    id ∈ Instruction.pathNumbers is := by
  rcases mem_ids.mp h with ⟨i, hi, hPath⟩
  exact ⟨i, hi, .inl hPath⟩

/- Renumbered paths are in the order of their new numbers. -/
theorem ids_renumber
    (hf : StrictMonoOn f (Instruction.pathNumbers is)) :
    ids (is.map (Instruction.renumber f)) =
      (ids is).map f := by
  have hSorted : ((ids is).map f).Pairwise (· < ·) := by
    rw [List.pairwise_map]
    refine (pairwise_ids is).imp_of_mem ?_
    intro a b ha hb hLt
    exact hf (mem_pathNumbers_of_mem_ids ha)
      (mem_pathNumbers_of_mem_ids hb) hLt
  apply (pairwise_ids _).eq_of_mem_iff hSorted
  intro id
  simp only [mem_ids, List.mem_map]
  constructor
  · rintro ⟨_, ⟨i, hi, rfl⟩, hPath⟩
    rcases Option.map_eq_some_iff.mp hPath
      with ⟨old, hOld, rfl⟩
    exact ⟨old, ⟨i, hi, hOld⟩, rfl⟩
  · rintro ⟨old, ⟨i, hi, hOld⟩, rfl⟩
    refine ⟨i.renumber f, ⟨i, hi, rfl⟩, ?_⟩
    rw [Instruction.renumber, hOld]
    rfl

/- A renumbered path holds its renumbered instructions. -/
theorem own_renumber
    (hf : StrictMonoOn f (Instruction.pathNumbers is))
    {id : Nat}
    (hId : id ∈ ids is) :
    own (is.map (Instruction.renumber f)) (f id) =
      (own is id).map (Instruction.renumber f) := by
  rw [own, own, List.filter_map]
  congr 1
  apply List.filter_congr
  intro i hi
  rw [Bool.eq_iff_iff]
  simp only [Function.comp_apply, Instruction.renumber,
    beq_iff_eq]
  constructor
  · intro h
    rcases Option.map_eq_some_iff.mp h with ⟨old, hOld, hEq⟩
    rw [hOld, hf.injOn ⟨i, hi, .inl hOld⟩
      (mem_pathNumbers_of_mem_ids hId) hEq]
  · intro h
    rw [h]
    rfl

theorem firstZOrder_renumber
    (is : List Instruction) :
    firstZOrder (is.map (Instruction.renumber f)) =
      firstZOrder is := by
  cases is <;> rfl

/- Renumbered paths run above each other as before. -/
theorem order_renumber
    (hf : StrictMonoOn f (Instruction.pathNumbers is)) :
    order (is.map (Instruction.renumber f)) =
      (order is).map (fun key => (key.1, f key.2)) := by
  have hKeys :
      keys (is.map (Instruction.renumber f)) =
        (keys is).map (fun key => (key.1, f key.2)) := by
    simp only [keys, ids_renumber hf, List.map_map]
    apply List.map_congr_left
    intro id hId
    simp [own_renumber hf hId, firstZOrder_renumber]
  rw [order, order, hKeys]
  symm
  apply List.map_mergeSort
  intro a ha b hb
  have hNumber :
      ∀ key ∈ keys is,
        key.2 ∈ Instruction.pathNumbers is := by
    intro key hKey
    rcases List.mem_map.mp hKey with ⟨id, hId, rfl⟩
    exact mem_pathNumbers_of_mem_ids hId
  have hLe := hf.le_iff_le (hNumber a ha) (hNumber b hb)
  simp only [keyLe, decide_eq_decide.mpr hLe]

/- A renumbered target is found where it was. -/
theorem idxOf?_map_of_injOn
    {numbers : Set Nat}
    (hf : Set.InjOn f numbers)
    {threads : List Nat}
    (hThreads : ∀ id ∈ threads, id ∈ numbers)
    {target : Nat}
    (hTarget : target ∈ numbers) :
    (threads.map f).idxOf? (f target) =
      threads.idxOf? target := by
  induction threads with
  | nil => rfl
  | cons id threads ih =>
      rcases List.forall_mem_cons.mp hThreads
        with ⟨hFirst, hRest⟩
      rw [List.map_cons, List.idxOf?_cons, List.idxOf?_cons,
        ih hRest]
      have hSame : (f id == f target) = (id == target) := by
        rw [Bool.eq_iff_iff, beq_iff_eq, beq_iff_eq]
        exact hf.eq_iff hFirst hTarget
      rw [hSame]

/- Its instruction renumbered, a step stays the same. -/
theorem alike_toStep_renumber
    (hf : StrictMonoOn f (Instruction.pathNumbers is))
    {threads : List Nat}
    (hThreads :
      ∀ id ∈ threads, id ∈ Instruction.pathNumbers is)
    (thread : Nat)
    {i : Instruction}
    (hi : i ∈ is) :
    Alike (fun s => s) (toStep threads thread i)
      (toStep (threads.map f) thread (i.renumber f)) := by
  rcases i with ⟨op, path, zOrder, span⟩
  cases op with
  | activate target =>
      have hFound := idxOf?_map_of_injOn hf.injOn hThreads
        ⟨_, hi, .inr rfl⟩
      simp only [toStep, Instruction.renumber, Op.renumber,
        retarget, hFound]
      cases threads.idxOf? target with
      | none => rfl
      | some found => rfl
  | _ => rfl

/- Renumbered instructions make renumbered paths. -/
theorem alike_schedule_renumber
    (hf : StrictMonoOn f (Instruction.pathNumbers is))
    (maxThreads : Nat) :
    Alike (List.map (renumber f)) (schedule maxThreads is)
      (schedule maxThreads
        (is.map (Instruction.renumber f))) := by
  have hOrdered :
      ∀ id ∈ (order is).map Prod.snd, id ∈ ids is :=
    fun id h => (perm_order is).mem_iff.mp h
  have hThreads :
      ((order is).map (fun key => (key.1, f key.2))).map Prod.snd =
        ((order is).map Prod.snd).map f := by
    simp [Function.comp_def]
  simp only [schedule, ids_renumber hf, List.length_map,
    order_renumber hf, hThreads, List.zipIdx_map]
  split
  · exact Success.alike_error _ _ _
  · apply Success.alike_mapM
    rintro ⟨key, thread⟩ hKey
    have hId : key.2 ∈ ids is := by
      apply hOrdered
      exact List.mem_map_of_mem (List.mem_of_getElem?
        (List.mk_mem_zipIdx_iff_getElem?.mp hKey))
    simp only [ofKey, Prod.map, own_renumber hf hId]
    have hSteps :=
      Success.alike_mapM fun i (hi : i ∈ own is key.2) =>
        alike_toStep_renumber hf
          (fun id h =>
            mem_pathNumbers_of_mem_ids (hOrdered id h))
          thread (List.mem_of_mem_filter hi)
    apply hSteps.bind
    intro steps
    rw [List.map_id']
    exact Success.alike_ok (renumber f) ⟨_, _, _, steps⟩

end Renumbered

------------------------------------------------------------
-- Stages That Look At No Number
------------------------------------------------------------

section Stages

variable (f : Nat → Nat)
variable (ps : List Path)

theorem alike_encodeAll_renumber
    (device : Device)
    (shared : Std.HashSet Nat) :
    Alike (List.map (renumber f))
      (encodeAll device shared ps)
      (encodeAll device shared (ps.map (renumber f))) := by
  apply Success.alike_mapM
  intro p _
  simp only [encodeSteps, renumber]
  cases p.steps.mapM (encodeStep device shared) <;> rfl

theorem alike_finalize_renumber :
    Alike (List.map (renumber f)) (finalize ps)
      (finalize (ps.map (renumber f))) := by
  have hPlaced :
      stampAll ((ps.map (renumber f)).map pad) =
        (stampAll (ps.map pad)).map (renumber f) := by
    simp only [stampAll, List.map_map, List.zipWith_map_left,
      List.map_zipWith]
    rfl
  have hAligned (qs : List Path) :
      checkAlignment (qs.map (renumber f)) =
        checkAlignment qs := by
    have hBase :
        (qs.map (renumber f)).head?.bind start? =
          qs.head?.bind start? := by
      rw [List.head?_map, Option.bind_map]
      rfl
    have hAll (base : Nat) :
        (qs.map (renumber f)).forM (checkStart base) =
          qs.forM (checkStart base) := by
      rw [List.forM_eq_forM, List.forM_map]
      rfl
    simp only [checkAlignment, hBase, hAll]
  simp only [finalize, hPlaced]
  have hResolved (q : Path) :
      Alike (renumber f) q.resolve
        (q.renumber f).resolve := by
    simp only [resolve, renumber, labels]
    cases q.steps.mapM (resolveStep _) <;> rfl
  apply (Success.alike_mapM fun q _ => hResolved q).bind
  intro resolved
  rw [hAligned]
  cases checkAlignment resolved <;> rfl

end Stages

end Path

/- A header says nothing about the numbers of paths. -/
theorem Header.ofPaths_renumber
    (f : Nat → Nat)
    (ps : List Path)
    (device : Device) :
    ofPaths device (ps.map (Path.renumber f)) =
      ofPaths device ps := by
  have hBright :
      Path.brightness (ps.map (Path.renumber f)) =
        Path.brightness ps := by
    simp only [Path.brightness, List.flatMap_map]
    rfl
  have hExtents :
      extents (ps.map (Path.renumber f)) =
        (extents ps).map fun x => (x.1.renumber f, x.2) := by
    simp only [extents, List.head?_map, Option.bind_map,
      List.zipIdx_map, List.filterMap_map,
      List.map_filterMap]
    apply List.filterMap_congr
    intro x _
    simp only [Function.comp_apply, Option.map_map]
    rfl
  simp only [ofPaths, preamble, hBright, hExtents,
    List.length_map, List.mapM_map, List.map_map]
  rfl

------------------------------------------------------------
-- Whole Shows
------------------------------------------------------------

/- A placed show with renumbered paths. -/
def Placed.renumber
    (f : Nat → Nat)
    (p : Placed) : Placed :=
  ⟨p.header, p.paths.map (Path.renumber f)⟩

namespace Show

section Renumbered

variable {f : Nat → Nat}
variable {is : List Instruction}

/-
  Renumbering paths in the same order does not change a
  show, nor whether there is one.
-/
theorem alike_build_renumber
    (hf : StrictMonoOn f (Instruction.pathNumbers is))
    (t : Target) :
    Alike id (build t is)
      (build t (is.map (Instruction.renumber f))) := by
  have hPlaced :
      Alike (Placed.renumber f) (Placed.ofInstructions t is)
        (Placed.ofInstructions t
          (is.map (Instruction.renumber f))) := by
    simp only [Placed.ofInstructions]
    cases Located.unplaced t.check with
    | error e => rfl
    | ok =>
        apply (Path.alike_schedule_renumber hf _).bind
        intro scheduled
        have hShared :
            Path.sharedLeds
                (scheduled.map (Path.renumber f))
                t.device.ledCount =
              Path.sharedLeds scheduled t.device.ledCount := by
          simp only [Path.sharedLeds, List.map_map]
          rfl
        rw [hShared]
        apply (Path.alike_encodeAll_renumber f _ _ _).bind
        intro encoded
        apply (Path.alike_finalize_renumber f encoded).bind
        intro paths
        rw [Header.ofPaths_renumber]
        cases Located.unplaced
          (Header.ofPaths t.device paths) <;> rfl
  have hFinished (placed : Placed) :
      ofPlaced t (placed.renumber f) = ofPlaced t placed := by
    have hBits :
        Placed.instructionBits
            (placed.paths.map (Path.renumber f)) =
          Placed.instructionBits placed.paths := by
      simp only [Placed.instructionBits, List.flatMap_map]
      rfl
    simp only [ofPlaced, Placed.image, Placed.renumber, hBits,
      List.length_map]
  have hWith :
      Alike (fun x => (x.1, x.2.renumber f)) (buildWith t is)
        (buildWith t
          (is.map (Instruction.renumber f))) := by
    apply hPlaced.bind
    intro placed
    rw [hFinished]
    cases Located.unplaced (ofPlaced t placed) <;> rfl
  apply hWith.bind
  intro x
  rfl

end Renumbered

/-
  It is enough that the labels that occur stay different
  when they are renamed.
-/
theorem alike_build_relabel
    {σ : LabelKey → LabelKey}
    {is : List Instruction}
    (hσ : Set.InjOn σ (Instruction.labelKeys is))
    (t : Target) :
    Alike id (build t is)
      (build t (is.map (Instruction.relabel σ))) := by
  let R : Naming := fun k k' =>
    k ∈ Instruction.labelKeys is ∧ k' = σ k
  have hUnique : Relator.BiUnique R := by
    constructor
    · rintro a b _ ⟨ha, rfl⟩ ⟨hb, hEq⟩
      exact hσ ha hb hEq
    · rintro a _ _ ⟨-, rfl⟩ ⟨-, rfl⟩
      rfl
  have hFinite : (Instruction.labelKeys is).Finite := by
    refine (List.finite_toSet
      (is.filterMap fun i => i.op.key?)).subset ?_
    rintro k ⟨i, hi, hKey⟩
    exact List.mem_filterMap.mpr ⟨i, hi, hKey⟩
  rcases Naming.exists_injective hUnique hFinite
    (fun k hk => ⟨σ k, hk, rfl⟩) with ⟨τ, hτ, hFollows⟩
  have hSame :
      is.map (Instruction.relabel σ) =
        is.map (Instruction.relabel τ) := by
    apply List.map_congr_left
    rintro ⟨op, path, zOrder, span⟩ hi
    have hAt (k : LabelKey) (hKey : op.key? = some k) :
        τ k = σ k :=
      hFollows k ⟨_, hi, hKey⟩ _ ⟨⟨_, hi, hKey⟩, rfl⟩
    cases op with
    | here label scope =>
        simp only [Instruction.relabel, Op.relabel,
          hAt (label, scope) rfl]
    | goto label scope =>
        simp only [Instruction.relabel, Op.relabel,
          hAt (label, scope) rfl]
    | _ => rfl
  rw [hSame]
  exact alike_build hτ t is

/-
  A show is built from the instructions of each path, in
  order, and from the order of the paths: how the paths are
  interleaved, and what is on none, makes no difference, not
  even to a fault. Nor do path numbers and labels make one,
  as long as the numbers that occur keep their order and the
  labels that occur stay different.
-/
theorem built_from_strands
    (t : Target) :
    (∀ xs ys : List Instruction,
      (∀ id, Path.own xs id = Path.own ys id) →
        build t xs = build t ys) ∧
      ∀ (xs : List Instruction)
        (f : Nat → Nat)
        (σ : LabelKey → LabelKey),
        StrictMonoOn f (Instruction.pathNumbers xs) →
        Set.InjOn σ (Instruction.labelKeys xs) →
        ∀ s,
          build t
              (xs.map fun i => (i.renumber f).relabel σ) =
            .ok s ↔
          build t xs = .ok s := by
  constructor
  · intro xs ys h
    simp only [build, buildWith, Placed.ofInstructions,
      Path.schedule_congr h]
  · intro xs f σ hf hσ s
    have hKeys :
        Instruction.labelKeys
            (xs.map (Instruction.renumber f)) =
          Instruction.labelKeys xs := by
      have hKey (i : Instruction) :
          (i.renumber f).op.key? = i.op.key? := by
        rcases i with ⟨op, path, zOrder, span⟩
        cases op <;> rfl
      ext k
      simp [Instruction.labelKeys, hKey]
    have hRenumbered := alike_build_renumber hf t
    have hRelabelled :=
      alike_build_relabel (hKeys ▸ hσ) t
    rw [List.map_map] at hRelabelled
    exact hRelabelled.eq_ok_iff.trans hRenumbered.eq_ok_iff

/- The loop, its two paths woven in another way. -/
def wovenLoop : List Instruction :=
  [⟨.activate 0, none, some 0, none⟩,
   ⟨.glow [0, 2] ⟨255, 0, 0, 9⟩, some 1, some 1, none⟩,
   ⟨.activate 1, some 0, some 0, none⟩,
   ⟨.here "a" 0, some 0, some 0, none⟩,
   ⟨.finish, some 1, some 1, none⟩,
   ⟨.pause 20, some 0, some 0, none⟩,
   ⟨.goto "a" 0, some 0, some 0, none⟩]

theorem built_from_strands_loop :
    ∃ s,
      build loopTarget loopInstructions = .ok s ∧
        build loopTarget wovenLoop = .ok s ∧
        build loopTarget (loopInstructions.map fun i =>
          (i.renumber fun id => 7 * id + 3).relabel fun _ =>
            ("b", 5)) = .ok s := by
  have hOwn :
      ∀ id, Path.own wovenLoop id =
        Path.own loopInstructions id := by
    intro id
    match id with
    | 0 => rfl
    | 1 => rfl
    | id + 2 => rfl
  rcases Success.exists_of_isOk isOk_build_loop with ⟨s, hs⟩
  rcases built_from_strands loopTarget
    with ⟨hWoven, hRenamed⟩
  refine ⟨s, hs, (hWoven _ _ hOwn).trans hs,
    (hRenamed _ _ _ ?_ ?_ s).mpr hs⟩
  · intro a _ b _ hLt
    simp only
    omega
  · -- There is only one label, so its new name is free.
    have hKey :
        ∀ k ∈ Instruction.labelKeys loopInstructions,
          k = ("a", 0) := by
      rintro k ⟨i, hi, hKey⟩
      have hMem : k ∈ loopInstructions.filterMap
          fun i => i.op.key? :=
        List.mem_filterMap.mpr ⟨i, hi, hKey⟩
      have hAll : loopInstructions.filterMap
          (fun i => i.op.key?) = [("a", 0), ("a", 0)] := by
        decide
      simpa [hAll] using hMem
    intro a ha b hb _
    rw [hKey a ha, hKey b hb]

end Show

end LightShow
