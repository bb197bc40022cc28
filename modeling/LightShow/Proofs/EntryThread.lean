import LightShow.Proofs.ActivationTree
import LightShow.Proofs.Image

/-
  The first path of a script runs on the first thread.

  Paths are ordered by z-order and then by number, so path
  zero, whose z-order is zero, comes before all others. It is
  the only one that no record activates: the other paths are
  activated once each, and taking threads for paths keeps
  that.

  Key definitions include:
    * `Op.target?`
    * `Message.thread?`
    * `Path.targets`
    * `Path.Tells`
    * `Path.Told`
    * `Script.EntryFirst`

  Main statements:
    * `Path.head_order`
    * `Path.perm_targets_schedule`
    * `Path.exists_tells`
    * `Script.entry_runs_first`
-/

namespace LightShow

------------------------------------------------------------
-- Activations In Records
------------------------------------------------------------

/- The path or thread that an operation activates. -/
def Op.target? : Op → Option Nat
  | .activate target => some target
  | _ => none

/- The thread that a record activates. -/
def Message.thread? : Message → Option Nat
  | .activate thread => some thread
  | _ => none

/- A record activates what its operation does. -/
theorem Message.thread?_of_ofOp?
    {device : Device}
    {shared : Nat → Bool}
    {target : Nat}
    {op : Op}
    {m : Message}
    (h : ofOp? device shared target op = some m) :
    m.thread? = op.target? := by
  cases op with
  | call function => cases h
  | _ =>
      cases h
      rfl

theorem Message.thread?_eq_some_iff
    {m : Message}
    {thread : Nat} :
    m.thread? = some thread ↔ m = .activate thread := by
  cases m <;> simp [thread?]

/- Records that activate a thread, counted by threads. -/
theorem Message.count_activate
    (messages : List Message)
    (thread : Nat) :
    messages.count (.activate thread) =
      (messages.filterMap thread?).count thread := by
  rw [List.count_filterMap, List.count]
  refine List.countP_congr fun m _ => ?_
  rw [beq_iff_eq, beq_iff_eq, thread?_eq_some_iff]

namespace Path

open LightShow.BitReader (Reads)

/- The threads that the steps of a path activate, in order. -/
def targets (p : Path) : List Nat :=
  p.steps.filterMap fun s => s.op.target?

/-
  What the records of a path tell a device that reads them
  from its bits; zeros fill the last byte.
-/
def Tells
    (ledCount : Nat)
    (q : Path)
    (messages : List Message) : Prop :=
  ∃ zeros < 8,
    Message.readMany ledCount q.steps.length
        (Placed.pathBits q) =
      some (messages, Bits.zeros zeros)

/- The record of a step of a path, its jump filled in. -/
def linkedRecord (p : Path) (s : Step) : Record :=
  match s.op with
  | .goto label scope =>
      ⟨Op.jumpFields ((p.labelBit? label scope).getD 0)⟩
  | _ => s.record

theorem bits_linkedRecord
    (p : Path)
    (s : Step) :
    (p.linkedRecord s).bits = p.stepBits s := by
  unfold linkedRecord stepBits
  cases s.op <;> rfl

/-
  Messages that tell what the steps of a path do, one for
  each; what bit a jump leads to is left open.
-/
def Told
    (device : Device)
    (shared : Nat → Bool)
    (p : Path)
    (messages : List Message) : Prop :=
  List.Forall₂
    (fun op m =>
      ∃ target,
        Message.ofOp? device shared target op = some m)
    (p.steps.map Step.op) messages

/- What the messages share with operations, path by path. -/
theorem Told.filterMap_eq
    {γ : Type}
    {device : Device}
    {shared : Nat → Bool}
    {p : Path}
    {messages : List Message}
    (h : p.Told device shared messages)
    {f : Op → Option γ}
    {g : Message → Option γ}
    (hShared : ∀ target op m,
      Message.ofOp? device shared target op = some m →
        g m = f op) :
    messages.filterMap g =
      p.steps.filterMap fun s => f s.op := by
  have hAll := Success.filterMap_eq_of_forall₂
    (fun op m hm => hm.elim fun target hTarget =>
      hShared target op m hTarget) h
  rw [hAll, List.filterMap_map]
  rfl

theorem Told.filterMap_thread?
    {device : Device}
    {shared : Nat → Bool}
    {p : Path}
    {messages : List Message}
    (h : p.Told device shared messages) :
    messages.filterMap Message.thread? = p.targets :=
  h.filterMap_eq fun _ _ _ => Message.thread?_of_ofOp?

/- A record is read as what its operation tells. -/
theorem exists_message
    {device : Device}
    {shared : Std.HashSet Nat}
    {p : Path}
    {s : Step}
    (hRecord : s.op.encode device shared = .ok s.record)
    (hJump : ∀ label scope, s.op = .goto label scope →
      ∃ target,
        p.labelBit? label scope = some target ∧
          target < Nat.pow 2 32) :
    ∃ m : Message,
      Reads (Message.read device.ledCount) m
          (p.linkedRecord s).bits ∧
        ∃ target,
          Message.ofOp? device shared.contains target s.op =
            some m := by
  rw [bits_linkedRecord]
  by_cases hGoto : ∃ label scope, s.op = .goto label scope
  · rcases hGoto with ⟨label, scope, hOp⟩
    rcases hJump label scope hOp with ⟨target, hTarget, hLt⟩
    refine ⟨.goto target, ?_, target, by rw [hOp]; rfl⟩
    simp only [stepBits, hOp, hTarget, Option.getD_some]
    exact Message.reads_jump hLt _
  · rcases Message.reads_encode hRecord with ⟨m, hm, hRead⟩
    refine ⟨m, ?_, _, hm⟩
    have hBits : p.stepBits s = s.record.bits := by
      unfold stepBits
      split
      · rename_i label scope hOp
        exact absurd ⟨label, scope, hOp⟩ hGoto
      · rfl
    rw [hBits]
    exact hRead

/- The records of a path that was encoded and laid out. -/
theorem exists_tells_of_laidOut
    {device : Device}
    {shared : Std.HashSet Nat}
    {start : Nat}
    {o p q : Path}
    (hEncoded : encodeSteps device shared o = .ok p)
    (hLaid : LaidOut start p q) :
    ∃ messages,
      q.Tells device.ledCount messages ∧
        q.Told device shared.contains messages := by
  have hOpen := encodeSteps_jumpsOpen hEncoded
  have hRecords := encode_of_encodeSteps hEncoded
  have hEach : ∀ s ∈ p.steps, ∃ m : Message,
      Reads (Message.read device.ledCount) m
          (p.linkedRecord s).bits ∧
        ∃ target,
          Message.ofOp? device shared.contains target s.op =
            some m :=
    fun s hs => exists_message (hRecords s hs)
      (hLaid.exists_target hOpen s hs)
  have hOps : q.steps.map Step.op = p.steps.map Step.op :=
    hLaid.map_eq fun _ _ _ _ => rfl
  have hInhabited : Nonempty Message := ⟨.finish⟩
  choose! message hMessage using hEach
  refine ⟨p.steps.map message,
    ⟨missingBits p.width, missingBits_lt _, ?_⟩, ?_⟩
  · have hAll :
        List.Forall₂
          (fun m r =>
            Reads (Message.read device.ledCount) m
              (Record.bits r))
          (p.steps.map message)
          (p.steps.map p.linkedRecord) := by
      rw [List.forall₂_map_left_iff,
        List.forall₂_map_right_iff, List.forall₂_same]
      exact fun s hs => (hMessage s hs).1
    have hRead := Message.reads_readMany hAll
      (Bits.zeros (missingBits p.width))
    have hBits :
        (p.steps.map p.linkedRecord).flatMap Record.bits =
          p.linkedBits := by
      simp only [List.flatMap_map, bits_linkedRecord]
      rfl
    have hLength :
        q.steps.length =
          (p.steps.map p.linkedRecord).length := by
      simpa using congrArg List.length hOps
    rw [hBits, ← hLaid.bits_eq hOpen, ← hLength] at hRead
    exact hRead
  · rw [Told, hOps, List.forall₂_map_left_iff,
      List.forall₂_map_right_iff, List.forall₂_same]
    exact fun s hs => (hMessage s hs).2

section LaidOutPaths

variable {device : Device}
variable {shared : Std.HashSet Nat}
variable {start : Nat}
variable {os ps qs : List Path}

/- All paths tell what their steps do. -/
theorem exists_tells
    (hEncoded : List.Forall₂
      (fun o p => encodeSteps device shared o = .ok p) os ps)
    (hLaid : LaidOutFrom start ps qs) :
    ∃ messages,
      List.Forall₂ (Tells device.ledCount) qs messages ∧
        List.Forall₂ (Told device shared.contains) qs
          messages := by
  induction hLaid generalizing os with
  | nil => exact ⟨[], .nil, .nil⟩
  | @cons start p q ps qs hFirst _ ih =>
      rcases List.forall₂_cons_right_iff.mp hEncoded
        with ⟨o, os, hHead, hTail, rfl⟩
      rcases exists_tells_of_laidOut hHead hFirst
        with ⟨first, hTells, hTold⟩
      rcases ih hTail with ⟨rest, hAllTell, hAllTold⟩
      exact ⟨first :: rest, .cons hTells hAllTell,
        .cons hTold hAllTold⟩

/- Encoding and layout keep all operations. -/
theorem map_ops_of_laidOutFrom
    (hEncoded : List.Forall₂
      (fun o p => encodeSteps device shared o = .ok p) os ps)
    (hLaid : LaidOutFrom start ps qs) :
    qs.map (fun q => q.steps.map Step.op) =
      os.map fun o => o.steps.map Step.op := by
  have hFirst :
      ps.map (fun p => p.steps.map Step.op) =
        os.map fun o => o.steps.map Step.op :=
    Success.map_eq_of_forall₂
      (fun _ _ hp => map_op_of_encodeSteps hp) hEncoded
  rw [← hFirst]
  refine Success.map_eq_of_forall₂ ?_ hLaid.forall₂_laidOut
  rintro p q ⟨bit, hq⟩
  exact hq.map_eq fun _ _ _ _ => rfl

/- The records activate what the scheduled steps do. -/
theorem filterMap_thread?_of_told
    {messages : List (List Message)}
    (hEncoded : List.Forall₂
      (fun o p => encodeSteps device shared o = .ok p) os ps)
    (hLaid : LaidOutFrom start ps qs)
    (hTold : List.Forall₂ (Told device shared.contains) qs
      messages) :
    messages.flatten.filterMap Message.thread? =
      os.flatMap targets := by
  have hEach :
      messages.map (List.filterMap Message.thread?) =
        qs.map targets :=
    Success.map_eq_of_forall₂
      (fun _ _ hq => hq.filterMap_thread?) hTold
  have hTargets :
      ∀ paths : List Path,
        paths.map targets =
          (paths.map fun p => p.steps.map Step.op).map
            (List.filterMap Op.target?) := by
    intro paths
    rw [List.map_map]
    apply List.map_congr_left
    intro p _
    rw [Function.comp_apply, List.filterMap_map]
    rfl
  rw [List.filterMap_flatten, hEach, hTargets qs,
    map_ops_of_laidOutFrom hEncoded hLaid, ← hTargets os]
  rfl

/- Encoding and layout keep whatever is not a step. -/
theorem map_eq_of_laidOutFrom
    {γ : Type}
    {f : Path → γ}
    (hKeep : ∀ p steps, f { p with steps := steps } = f p)
    (hEncoded : List.Forall₂
      (fun o p => encodeSteps device shared o = .ok p) os ps)
    (hLaid : LaidOutFrom start ps qs) :
    qs.map f = os.map f := by
  have hFirst : ps.map f = os.map f := by
    refine Success.map_eq_of_forall₂ ?_ hEncoded
    intro o p hp
    rcases Success.bind_eq_ok hp with ⟨steps, -, hp⟩
    cases Success.pure_eq_ok hp
    exact hKeep o steps
  rw [← hFirst]
  refine Success.map_eq_of_forall₂ ?_ hLaid.forall₂_laidOut
  rintro p q ⟨bit, hq⟩
  rcases Success.bind_eq_ok hq with ⟨steps, -, hq⟩
  cases Success.pure_eq_ok hq
  exact hKeep p steps

end LaidOutPaths

------------------------------------------------------------
-- The First Of The Paths
------------------------------------------------------------

/- Nothing comes before path zero with z-order zero. -/
theorem head_order
    {is : List Instruction}
    (h : (0, 0) ∈ keys is) :
    ∃ rest, order is = (0, 0) :: rest := by
  have hSorted := sorted_order is
  have hMem : (0, 0) ∈ order is := List.mem_mergeSort.mpr h
  cases hOrder : order is with
  | nil =>
      rw [hOrder] at hMem
      cases hMem
  | cons first rest =>
      rw [hOrder] at hMem hSorted
      refine ⟨rest, ?_⟩
      rcases List.mem_cons.mp hMem with hFirst | hRest
      · rw [hFirst]
      · have hLe := keyLe_iff.mp
          ((List.pairwise_cons.mp hSorted).1 _ hRest)
        have hEq : first = (0, 0) := by
          ext <;> simp only at hLe ⊢ <;> omega
        rw [hEq]

/- The first path starts the instruction region. -/
theorem LaidOutFrom.start?_first
    {start : Nat}
    {ps rest : List Path}
    {first : Path}
    (h : LaidOutFrom start ps (first :: rest))
    (hSteps : first.steps ≠ []) :
    first.start? = some start := by
  rcases List.exists_cons_of_ne_nil hSteps
    with ⟨s, later, hHead⟩
  cases h with
  | cons hFirst _ =>
      simp [start?, hHead, hFirst.head_bit hHead]

/- Paths are numbered by their threads. -/
theorem map_thread_schedule
    {maxThreads : Nat}
    {is : List Instruction}
    {paths : List Path}
    (h : schedule maxThreads is = .ok paths) :
    paths.map thread = List.range paths.length := by
  have hAll := schedule_eq_ok h
  have hThreads :
      paths.map thread = (order is).zipIdx.map Prod.snd :=
    Success.map_eq_of_forall₂
      (fun _ _ hp => (ofKey_eq_ok hp).2.1) hAll
  have hLength : (order is).length = paths.length := by
    simpa using hAll.length_eq
  rw [hThreads, List.zipIdx_map_snd, hLength,
    List.range_eq_range']

------------------------------------------------------------
-- Threads For Paths
------------------------------------------------------------

theorem target?_retarget
    {threads : List Nat}
    {span : Option Span}
    {op new : Op}
    (h : retarget threads span op = .ok new) :
    new.target? = op.target?.map threads.idxOf := by
  cases op with
  | activate target =>
      cases hFind : threads.idxOf? target with
      | none =>
          simp only [retarget, hFind] at h
          cases h
      | some thread =>
          simp only [retarget, hFind] at h
          cases h
          simp [Op.target?, List.idxOf_eq_getD_idxOf?, hFind]
  | _ =>
      cases h
      rfl

/- The steps of a path activate threads of activated paths. -/
theorem targets_schedule
    {maxThreads : Nat}
    {is : List Instruction}
    {paths : List Path}
    (h : schedule maxThreads is = .ok paths)
    {p : Path}
    (hp : p ∈ paths) :
    p.targets =
      (Meaning.activations (own is p.id)).map
        ((order is).map Prod.snd).idxOf := by
  have hSteps := steps_schedule h hp
  have hEach :
      p.steps.map (fun s => s.op.target?) =
        (own is p.id).map fun i =>
          i.op.target?.map ((order is).map Prod.snd).idxOf :=
    Success.map_eq_of_forall₂
      (fun i s hStep => target?_retarget (toStep_eq_ok hStep).1)
      hSteps
  calc
    p.targets =
        (p.steps.map fun s => s.op.target?).filterMap
          fun target => target := by
      rw [List.filterMap_map]
      rfl
    _ = _ := by
      rw [hEach, List.filterMap_map, Meaning.activations,
        List.map_filterMap]
      rfl

/- Taken path by path, no instruction gets lost. -/
theorem perm_own
    (is : List Instruction)
    {numbers : List Nat}
    (hNodup : numbers.Nodup) :
    (numbers.flatMap (own is)).Perm
      (is.filter fun i => i.path.any numbers.contains) := by
  induction numbers with
  | nil =>
      have hNone :
          (is.filter fun i => i.path.any [].contains) = [] := by
        refine List.filter_eq_nil_iff.mpr fun i _ => ?_
        cases i.path <;> simp
      rw [hNone]
      exact .nil
  | cons id numbers ih =>
      rcases List.nodup_cons.mp hNodup with ⟨hNew, hRest⟩
      let all := is.filter fun i =>
        i.path.any (id :: numbers).contains
      have hFirst :
          all.filter (fun i => i.path == some id) =
            own is id := by
        rw [List.filter_filter]
        refine List.filter_congr fun i _ => ?_
        cases i.path <;> grind
      have hOthers :
          all.filter (fun i => !(i.path == some id)) =
            is.filter fun i =>
              i.path.any numbers.contains := by
        rw [List.filter_filter]
        refine List.filter_congr fun i _ => ?_
        cases i.path <;> grind
      have hSplit := List.filter_append_perm
        (fun i => i.path == some id) all
      rw [hFirst, hOthers] at hSplit
      rw [List.flatMap_cons]
      exact ((ih hRest).append_left _).trans hSplit

/-
  The steps of all paths activate the threads of the paths
  that instructions on paths activate.
-/
theorem perm_targets_schedule
    {maxThreads : Nat}
    {is : List Instruction}
    {paths : List Path}
    (h : schedule maxThreads is = .ok paths) :
    (paths.flatMap targets).Perm
      ((Meaning.activations
        (is.filter fun i => i.path.isSome)).map
          ((order is).map Prod.snd).idxOf) := by
  let threads := (order is).map Prod.snd
  have hIds : paths.map Path.id = threads :=
    map_id_schedule h
  have hOwn :
      threads.flatMap (own is) =
        paths.flatMap fun p => own is p.id := by
    rw [← hIds, List.flatMap_map]
  have hNodup : threads.Nodup := nodup_order is
  have hAll :
      (is.filter fun i => i.path.any threads.contains) =
        is.filter fun i => i.path.isSome := by
    refine List.filter_congr fun i hi => ?_
    cases hPath : i.path with
    | none => rfl
    | some id =>
        have hMem : id ∈ threads := mem_order hi hPath
        simpa using hMem
  have hTargets :
      paths.flatMap targets =
        (Meaning.activations
          (threads.flatMap (own is))).map threads.idxOf := by
    calc
      paths.flatMap targets =
          paths.flatMap fun p =>
            (Meaning.activations (own is p.id)).map
              threads.idxOf :=
        List.flatMap_congr fun p hp => targets_schedule h hp
      _ = _ := by
        rw [hOwn, Meaning.activations,
          List.filterMap_flatMap, List.map_flatMap]
        rfl
  rw [hTargets, ← hAll]
  exact ((perm_own is hNodup).filterMap _).map _

/- Threads are the places of their paths. -/
theorem map_idxOf_self
    {threads : List Nat}
    (hNodup : threads.Nodup) :
    threads.map threads.idxOf =
      List.range threads.length := by
  apply List.ext_getElem (by simp)
  intro i hi _
  rw [List.length_map] at hi
  simp [hNodup.idxOf_getElem i hi]

end Path

------------------------------------------------------------
-- The Entry Path
------------------------------------------------------------

/- Only the first path has not ended. -/
theorem Header.bits_endedBitmap
    {count : Nat}
    (h : 0 < count) :
    (endedBitmap count).bits =
      false :: Bits.ones (count - 1) := by
  rcases Nat.exists_eq_succ_of_ne_zero (Nat.ne_of_gt h)
    with ⟨more, rfl⟩
  rfl

namespace Script

open LightShow.Show (loopTarget)

/-
  Placed paths of which the one that the entry function is
  expanded on runs first, and the others when they are
  activated.
-/
structure EntryFirst
    (script : Script)
    (device : Device)
    (header : Header)
    (paths : List Path) : Prop where
  threads : paths.map Path.thread = List.range paths.length
  /- The first copy of all is that of the entry function. -/
  entry : ∃ start first rest,
    script.find? entryName = some start ∧
      script.copies.head? = some ⟨start, first.id, 0, 0⟩ ∧
      paths = first :: rest ∧
      first.thread = 0 ∧
      first.start? = some 0
  /- Read from the header, all others count as ended. -/
  ended : ∃ fields behind,
    HeaderFields.read header.record.bits =
        some (fields, behind) ∧
      fields.ended = false :: Bits.ones (paths.length - 1)
  /- Read from the records, each other one is activated. -/
  activated : ∃ messages,
    List.Forall₂ (Path.Tells device.ledCount) paths messages ∧
      ∀ thread,
        messages.flatten.count (.activate thread) =
          if 0 < thread ∧ thread < paths.length then 1 else 0

section Expanded

variable {script : Script}
variable {source : SourceText}
variable {device : Device}
variable {expanded : Expanded}

/- Path zero, with z-order zero, comes first. -/
theorem exists_threads
    (h : script.expand source device = .ok expanded) :
    ∃ others,
      (Path.order expanded.instructions).map Prod.snd =
          0 :: others ∧
        others.Perm (List.range' 1 script.strands.length) := by
  have hIds := ids_expanded h
  have hFirst := complete_expanded h
  have hZOrder :
      Path.firstZOrder
        (Path.own expanded.instructions 0) = 0 := by
    rcases hFirst.ends with ⟨body, last, hOwn, -, -⟩
    rcases List.exists_cons_of_ne_nil
      (show Path.own expanded.instructions 0 ≠ [] by
        simp [hOwn]) with ⟨i, rest, hHead⟩
    have hi := hFirst.zOrders i (by simp [hHead])
    simp [Path.firstZOrder, hHead, hi]
  have hKey : (0, 0) ∈ Path.keys expanded.instructions := by
    refine List.mem_map.mpr ⟨0, ?_, by rw [hZOrder]⟩
    simp [hIds]
  rcases Path.head_order hKey with ⟨rest, hOrder⟩
  refine ⟨rest.map Prod.snd, by rw [hOrder]; rfl, ?_⟩
  have hPerm := Path.perm_order expanded.instructions
  rw [hOrder, hIds, List.range_eq_range',
    List.range'_succ] at hPerm
  exact hPerm.cons_inv

/- The launcher aside, the other paths are activated. -/
theorem activations_on_paths
    (h : script.expand source device = .ok expanded) :
    Meaning.activations
        (expanded.instructions.filter fun i =>
          i.path.isSome) =
      List.range' 1 script.strands.length := by
  rcases exists_grows h with ⟨start, body, last, hIs, hLast,
    hPath, -, hBody, hGrows⟩
  have hOnPaths : ∀ i ∈ body ++ [last],
      i.path.isSome = true := by
    intro i hi
    rcases List.mem_append.mp hi with hi | hi
    · rcases hGrows.covered i hi with hMain | ⟨s, -, hStrand⟩
      · rw [hMain]
        rfl
      · rw [hStrand]
        rfl
    · rw [List.mem_singleton.mp hi, hPath]
      rfl
  have hEnd : Meaning.activations [last] = [] := by
    simp [Meaning.activations, hLast]
  rw [hIs, List.filter_cons_of_neg (by simp),
    List.filter_eq_self.mpr hOnPaths,
    Meaning.activations_append, hBody, hEnd, List.append_nil]

/- Every thread but the first is activated by one step. -/
theorem perm_targets
    {maxThreads : Nat}
    {scheduled : List Path}
    (hExpanded : script.expand source device = .ok expanded)
    (hScheduled :
      Path.schedule maxThreads expanded.instructions =
        .ok scheduled) :
    (scheduled.flatMap Path.targets).Perm
      (List.range' 1 (scheduled.length - 1)) := by
  rcases exists_threads hExpanded
    with ⟨others, hThreads, hOthers⟩
  have hLength :
      scheduled.length = others.length + 1 := by
    simpa [hThreads] using congrArg List.length
      (Path.map_id_schedule hScheduled)
  have hNodup : (0 :: others).Nodup := by
    rw [← hThreads]
    exact Path.nodup_order _
  have hPlaces :
      others.map (0 :: others).idxOf =
        List.range' 1 others.length := by
    have hAll := Path.map_idxOf_self hNodup
    rw [List.map_cons, List.length_cons,
      List.range_eq_range', List.range'_succ] at hAll
    exact (List.cons.inj hAll).2
  have hTargets := Path.perm_targets_schedule hScheduled
  rw [activations_on_paths hExpanded, hThreads] at hTargets
  rw [hLength, Nat.add_sub_cancel, ← hPlaces]
  exact hTargets.trans (hOthers.symm.map _)

/- The first path is that of the entry function. -/
theorem exists_entry_copy
    (h : script.expand source device = .ok expanded) :
    ∃ start,
      script.find? entryName = some start ∧
        script.copies.head? = some ⟨start, 0, 0, 0⟩ := by
  rcases expand_yields h with ⟨start, hStart, -, -⟩
  refine ⟨start, hStart, ?_⟩
  rw [copies, hStart]
  rfl

/-
  Whatever a script, a device and their limits are: once the
  paths are placed and have a header, the path of the entry
  function is the first, the header counts all others as
  ended, and each of them is activated by one record.
-/
theorem entry_runs_first
    {maxThreads : Nat}
    {shared : Std.HashSet Nat}
    {scheduled encoded paths : List Path}
    {header : Header}
    (hExpanded : script.expand source device = .ok expanded)
    (hScheduled :
      Path.schedule maxThreads expanded.instructions =
        .ok scheduled)
    (hEncoded :
      Path.encodeAll device shared scheduled = .ok encoded)
    (hPaths : Path.finalize encoded = .ok paths)
    (hHeader : Header.ofPaths device paths = .ok header) :
    script.EntryFirst device header paths := by
  have hEach := Success.mapM_eq_ok hEncoded
  have hLaid := Path.laidOutFrom_of_finalize hPaths
  have hSteps := hLaid.steps_ne_nil fun p hp =>
    (Path.encodeAll_eq_ok hEncoded
      (fun o ho => Path.steps_ne_nil_schedule hScheduled ho)
      p hp).1
  have hLength : paths.length = scheduled.length := by
    rw [hLaid.length_eq, hEach.length_eq]
  have hThreads :
      paths.map Path.thread = List.range paths.length := by
    rw [Path.map_eq_of_laidOutFrom (fun _ _ => rfl) hEach
      hLaid, hLength]
    exact Path.map_thread_schedule hScheduled
  rcases exists_threads hExpanded with ⟨others, hOrder, -⟩
  have hIds : paths.map Path.id = 0 :: others := by
    rw [Path.map_eq_of_laidOutFrom (fun _ _ => rfl) hEach
      hLaid, ← hOrder]
    exact Path.map_id_schedule hScheduled
  rcases List.map_eq_cons_iff.mp hIds
    with ⟨first, rest, hSplit, hFirst, -⟩
  have hPositive : 0 < paths.length := by
    rw [hSplit]
    exact Nat.succ_pos _
  exact {
    threads := hThreads
    entry := by
      rcases exists_entry_copy hExpanded
        with ⟨start, hStart, hCopy⟩
      refine ⟨start, first, rest, hStart, hFirst ▸ hCopy,
        hSplit, ?_, ?_⟩
      · rw [hSplit, List.length_cons,
          List.range_succ_eq_map] at hThreads
        exact (List.cons.inj hThreads).1
      · rw [hSplit] at hLaid hSteps
        exact hLaid.start?_first
          (hSteps first (List.mem_cons_self ..))
    ended := by
      have hCount :
          (Header.extents paths).length = paths.length := by
        simpa using congrArg List.length
          (Header.extents_of_laidOutFrom hLaid hSteps)
      rcases Header.exists_written hHeader hCount
        with ⟨written, hRead, hFilled, -⟩
      refine ⟨_, _, hFilled ▸ hRead _, ?_⟩
      exact Header.bits_endedBitmap hPositive
    activated := by
      rcases Path.exists_tells hEach hLaid
        with ⟨messages, hTells, hTold⟩
      refine ⟨messages, hTells, fun thread => ?_⟩
      have hTargets :=
        Path.filterMap_thread?_of_told hEach hLaid hTold
      have hPerm := perm_targets hExpanded hScheduled
      rw [← hTargets, ← hLength] at hPerm
      rw [Message.count_activate, hPerm.count_eq,
        List.Nodup.count List.nodup_range']
      refine if_congr ?_ rfl rfl
      rw [List.mem_range'_1]
      omega }

end Expanded

------------------------------------------------------------
-- Paths That Change Places
------------------------------------------------------------

/- What the script with nested calls is expanded to. -/
def nestedInstructions : List Instruction :=
  (nested.expand ⟨"show", ""⟩ loopTarget.device).toOption.elim []
    Expanded.instructions

/- The later of two paths comes first; it is lower down. -/
theorem order_nested
    (hIds : Path.ids nestedInstructions = [0, 1, 2]) :
    Path.order nestedInstructions =
      [(0, 0), (0, 2), (3, 1)] := by
  have hZOrders :
      [0, 1, 2].map (fun id => Path.firstZOrder
        (Path.own nestedInstructions id)) = [0, 3, 0] := by
    decide +kernel
  have hKeys :
      Path.keys nestedInstructions =
        [(0, 0), (3, 1), (0, 2)] := by
    simp only [List.map_cons, List.map_nil, List.cons.injEq,
      and_true] at hZOrders
    simp [Path.keys, hIds, hZOrders]
  rw [Path.order, hKeys]
  cbv

theorem isOk_build_nested
    (hIds : Path.ids nestedInstructions = [0, 1, 2]) :
    (Show.build loopTarget
      nestedInstructions).isOk = true := by
  simp only [Show.build, Show.buildWith,
    Placed.ofInstructions, Path.schedule, hIds,
    order_nested hIds, Path.finalize, Path.resolveAll,
    Path.resolve_eq]
  decide +kernel

theorem entry_runs_first_nested :
    ∃ expanded scheduled encoded paths header,
      nested.expand ⟨"show", ""⟩ loopTarget.device =
          .ok expanded ∧
        Path.schedule 256 expanded.instructions =
          .ok scheduled ∧
        Path.encodeAll loopTarget.device
            (Path.sharedLeds scheduled 3) scheduled =
          .ok encoded ∧
        Path.finalize encoded = .ok paths ∧
        Header.ofPaths loopTarget.device paths = .ok header ∧
        scheduled.map Path.id = [0, 2, 1] ∧
        nested.EntryFirst loopTarget.device header paths := by
  have hOk :
      (nested.expand ⟨"show", ""⟩ loopTarget.device).isOk =
        true := by
    decide +kernel
  rcases Success.exists_of_isOk hOk
    with ⟨expanded, hExpanded⟩
  have hIs :
      nestedInstructions = expanded.instructions := by
    rw [nestedInstructions, hExpanded]
    rfl
  have hIds : Path.ids nestedInstructions = [0, 1, 2] := by
    rw [hIs, ids_expanded hExpanded]
    decide
  have hOrder := order_nested hIds
  rcases Success.exists_of_isOk (isOk_build_nested hIds)
    with ⟨s, hBuilt⟩
  rw [hIs] at hBuilt hOrder
  rcases Show.build_eq_ok hBuilt
    with ⟨scheduled, encoded, placed, _, -, hScheduled,
      hEncoded, hPaths, hHeader, -⟩
  refine ⟨expanded, scheduled, encoded, placed.paths,
    placed.header, hExpanded, hScheduled, hEncoded, hPaths,
    hHeader, ?_, ?_⟩
  · rw [Path.map_id_schedule hScheduled, hOrder]
    rfl
  · exact entry_runs_first hExpanded hScheduled hEncoded
      hPaths hHeader

end Script

end LightShow
