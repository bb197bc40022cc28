import LightShow.Proofs.Encodable
import LightShow.Proofs.Image
import LightShow.Proofs.Linking

/-
  How many paths a header has room for.

  All that the header says about a path fits its fields if
  the path could be encoded, and the blocks of a few hundred
  paths are far shorter than the longest header. What does
  not fit is the number of paths itself: it has eight bits,
  while one path more than that is allowed to be scheduled.

  Key definitions include:
    * `Path.InTicks`
    * `Header.EndsWithin`

  Main statements:
    * `Path.delivers_block`
    * `Header.delivers_ofPaths`
    * `Header.ofPaths_of_full`
    * `Header.room_for_paths`
-/

namespace LightShow

open Success (Delivers)

------------------------------------------------------------
-- Sums Of Widths
------------------------------------------------------------

theorem total_le_length_mul
    {ns : List Nat}
    {bound : Nat}
    (h : ∀ n ∈ ns, n ≤ bound) :
    total ns ≤ ns.length * bound := by
  induction ns with
  | nil => exact Nat.zero_le _
  | cons n ns ih =>
      rcases List.forall_mem_cons.mp h with ⟨hFirst, hRest⟩
      rw [total_cons, List.length_cons, Nat.succ_mul]
      have hLe := ih hRest
      omega

theorem Record.width_append
    (fs gs : List Field) :
    (Record.mk (fs ++ gs)).width =
      (Record.mk fs).width + (Record.mk gs).width := by
  simp [Record.width]

theorem Record.width_flatten
    (blocks : List (List Field)) :
    (Record.mk blocks.flatten).width =
      total (blocks.map fun fs => (Record.mk fs).width) := by
  induction blocks with
  | nil => rfl
  | cons fs blocks ih =>
      rw [List.flatten_cons, width_append, ih]
      rfl

------------------------------------------------------------
-- Ramps And Pauses
------------------------------------------------------------

namespace Path

theorem largest_lt
    {ns : List Nat}
    {bound : Nat}
    (hBound : 0 < bound)
    (h : ∀ n ∈ ns, n < bound) :
    largest ns < bound := by
  have hFold : ∀ (ns : List Nat) (start : Nat),
      start < bound → (∀ n ∈ ns, n < bound) →
        ns.foldl max start < bound := by
    intro ns
    induction ns with
    | nil => exact fun start hStart _ => hStart
    | cons n ns ih =>
        intro start hStart hAll
        rcases List.forall_mem_cons.mp hAll
          with ⟨hFirst, hRest⟩
        exact ih _ (Nat.max_lt.mpr ⟨hStart, hFirst⟩) hRest
  exact hFold ns 0 hBound h

/- All ramps and pauses of a path are short enough. -/
structure InTicks (tick : Nat) (p : Path) : Prop where
  ramps : ∀ n ∈ p.rampTicks tick, n < Nat.pow 2 32
  pauses : ∀ n ∈ p.pauseTicks tick, n < Nat.pow 2 32

variable {tick : Nat}
variable {p : Path}

theorem InTicks.longestRamp_lt
    (h : p.InTicks tick) :
    p.longestRamp tick < Nat.pow 2 32 :=
  largest_lt (by decide) h.ramps

theorem InTicks.longestPause_lt
    (h : p.InTicks tick) :
    p.longestPause tick < Nat.pow 2 32 := by
  unfold longestPause
  split
  · decide
  · exact largest_lt (by decide) h.pauses

/- Steps that have records are in ticks. -/
theorem inTicks_of_encode
    {device : Device}
    (shared : Std.HashSet Nat)
    (h : ∀ op ∈ p.steps.map Step.op, ∃ record,
      op.encode device shared = .ok record) :
    p.InTicks device.tickMillis := by
  have hBodies : ∀ s ∈ p.steps, ∃ body,
      s.op.encodeBody device shared = .ok body := by
    intro s hs
    rcases h s.op (List.mem_map_of_mem hs)
      with ⟨record, hRecord⟩
    rcases Op.encode_eq_ok hRecord with ⟨_, body, -, hBody, -⟩
    exact ⟨body, hBody⟩
  constructor
  · intro n hn
    rcases List.mem_filterMap.mp hn with ⟨s, hs, hTicks⟩
    rcases hBodies s hs with ⟨body, hBody⟩
    split at hTicks
    · rename_i hOp
      cases hTicks
      rw [hOp] at hBody
      rcases Success.bind_eq_ok hBody with ⟨time, hTime, -⟩
      exact WidthCode.lt_of_sized2_eq_ok hTime
    · cases hTicks
  · intro n hn
    rcases List.mem_filterMap.mp hn with ⟨s, hs, hTicks⟩
    rcases hBodies s hs with ⟨body, hBody⟩
    split at hTicks
    · rename_i hOp
      cases hTicks
      rw [hOp] at hBody
      simp only [Op.encodeBody, Op.encodePause] at hBody
      split at hBody
      · cases hBody
      · exact WidthCode.lt_of_sized2_eq_ok hBody
    · cases hTicks

------------------------------------------------------------
-- Path Blocks
------------------------------------------------------------

/- The block of a path in ticks takes a few bytes. -/
theorem delivers_block
    (h : p.InTicks tick)
    {e : Extent}
    (hAddress : e.address < Nat.pow 2 32)
    (hLength : e.length < Nat.pow 2 32)
    (thread : Nat) :
    Delivers (fun fs => (Record.mk fs).width ≤ 172)
      (p.block tick thread e) := by
  have hReserved (n : Nat) :
      0 < Nat.pow 2 (8 * WidthCode.byteCount n) :=
    Nat.two_pow_pos _
  apply (WidthCode.delivers_sized2 _ hAddress).bind
  intro address hAddress
  apply (WidthCode.delivers_sized2 _ hLength).bind
  intro length hLength
  apply (WidthCode.delivers_sized2By _ (hReserved _)).bind
  intro reserved hReserved
  apply (WidthCode.delivers_sized3 _ h.longestRamp_lt).bind
  intro ramp hRamp
  apply (WidthCode.delivers_sized3 _ h.longestPause_lt).bind
  intro pause hPause
  apply Success.delivers_pure
  simp only [Record.width_append]
  omega

/- A place lies before the end of all that is placed. -/
theorem mem_placeFrom_le
    {α β : Type}
    {place : α → Nat → β}
    {width : α → Nat}
    {start : Nat}
    {xs : List α}
    {y : β}
    (h : y ∈ placeFrom place width start xs) :
    ∃ x ∈ xs, ∃ n, y = place x n ∧
      n + width x ≤ start + total (xs.map width) := by
  induction xs generalizing start with
  | nil => cases h
  | cons x xs ih =>
      rcases List.mem_cons.mp h with rfl | h
      · refine ⟨x, List.mem_cons_self .., start, rfl, ?_⟩
        simp only [List.map_cons, total_cons]
        omega
      · rcases ih h with ⟨z, hz, n, rfl, hEnd⟩
        refine ⟨z, List.mem_cons_of_mem x hz, n, rfl, ?_⟩
        simp only [List.map_cons, total_cons]
        omega

end Path

------------------------------------------------------------
-- Headers
------------------------------------------------------------

namespace Header

open LightShow.Path (LaidOutFrom)

variable {device : Device}
variable {ps qs : List Path}

/- The first fields fit if there are fewer than 256 paths. -/
theorem delivers_preamble
    (hLeds : device.ledCount < Nat.pow 2 16)
    (hTick : device.tickMillis < Nat.pow 2 16)
    (hBright : Path.brightness qs < Nat.pow 2 16)
    (hCount : qs.length < Nat.pow 2 8) :
    Delivers
      (fun fs => (Record.mk fs).width = 56 + qs.length)
      (preamble device qs) := by
  have hEnded : (endedBitmap qs.length).width = qs.length :=
    length_endedBitmap qs.length
  apply (Field.delivers_ofValue _ hLeds).bind
  intro leds hLeds
  apply (Field.delivers_ofValue _ hTick).bind
  intro tick hTick
  apply (Field.delivers_ofValue _ hBright).bind
  intro bright hBright
  apply (Field.delivers_ofValue _ hCount).bind
  intro count hCount
  apply Success.delivers_pure
  simp only [Record.width, List.map_cons, List.map_nil,
    total_cons, total_nil, hLeds, hTick, hBright, hCount,
    hEnded]
  omega

/- With 256 paths or more, their number does not fit. -/
theorem ofPaths_of_full
    (hLeds : device.ledCount < Nat.pow 2 16)
    (hTick : device.tickMillis < Nat.pow 2 16)
    (hBright : Path.brightness qs < Nat.pow 2 16)
    (hCount : Nat.pow 2 8 ≤ qs.length) :
    ofPaths device qs =
      .error (.fieldOverflow "total paths" 8 qs.length) := by
  simp only [ofPaths, preamble, Field.ofValue_of_lt _ hLeds,
    Field.ofValue_of_lt _ hTick,
    Field.ofValue_of_lt _ hBright,
    Field.ofValue_of_le _ hCount]
  rfl

/- The extents of laid-out paths lie in their region. -/
theorem extent_lt
    (h : LaidOutFrom 0 ps qs)
    (hSteps : ∀ q ∈ qs, q.steps ≠ [])
    (hRegion :
      total (qs.map Path.width) / 8 < Nat.pow 2 32) :
    ∀ x ∈ extents qs,
      x.1 ∈ qs ∧ x.2.2.address < Nat.pow 2 32 ∧
        x.2.2.length < Nat.pow 2 32 := by
  intro x hx
  have hMem := List.mem_map_of_mem
    (f := fun x : Path × Nat × Extent => (x.1, x.2.2)) hx
  rw [extents_of_laidOutFrom h hSteps] at hMem
  rcases Path.mem_placeFrom_le hMem
    with ⟨q, hq, bit, hPlace, hEnd⟩
  rcases Prod.mk.inj hPlace with ⟨hPath, hExtent⟩
  rw [hPath, hExtent]
  refine ⟨hq, ?_, ?_⟩
  · simp only
    omega
  · simp only
    omega

theorem total_lengths
    (h : LaidOutFrom 0 ps qs)
    (hSteps : ∀ q ∈ qs, q.steps ≠ []) :
    total ((extents qs).map fun x => x.2.2.length) =
      total (qs.map Path.width) / 8 := by
  have hMap :
      ((extents qs).map fun x => x.2.2.length) =
        qs.map fun q => q.width / 8 := by
    have hLengths := congrArg
      (List.map fun x : Path × Extent => x.2.length)
      (extents_of_laidOutFrom h hSteps)
    rw [List.map_map] at hLengths
    refine hLengths.trans (Path.map_placeFrom ?_ 0 qs)
    exact fun _ _ => rfl
  rw [hMap, HeaderFields.total_widths h.width_mod]
  omega

/- Fewer than 256 paths in ticks have a header. -/
theorem delivers_ofPaths
    (h : LaidOutFrom 0 ps qs)
    (hSteps : ∀ q ∈ qs, q.steps ≠ [])
    (hTicks : ∀ q ∈ qs, q.InTicks device.tickMillis)
    (hLeds : device.ledCount < Nat.pow 2 16)
    (hTick : device.tickMillis < Nat.pow 2 16)
    (hBright : Path.brightness qs < Nat.pow 2 16)
    (hRegion :
      total (qs.map Path.width) / 8 < Nat.pow 2 32)
    (hCount : qs.length < Nat.pow 2 8) :
    Delivers (fun _ => True) (ofPaths device qs) := by
  have hExtents : (extents qs).length = qs.length := by
    have hLength := congrArg List.length
      (extents_of_laidOutFrom h hSteps)
    simpa using hLength
  have hBlocks := Success.delivers_mapM
    fun x (hx : x ∈ extents qs) =>
      have hFits := extent_lt h hSteps hRegion x hx
      Path.delivers_block (hTicks x.1 hFits.1) hFits.2.1
        hFits.2.2 x.2.1
  apply (delivers_preamble hLeds hTick hBright hCount).bind
  intro start hStart
  apply hBlocks.bind
  rintro blocks ⟨hLength, hBlocks⟩
  have hWidth :
      (Record.mk blocks.flatten).width ≤
        qs.length * 172 := by
    rw [Record.width_flatten, ← hExtents, ← hLength,
      ← List.length_map (fun fs => (Record.mk fs).width)]
    apply total_le_length_mul
    simpa using hBlocks
  have hLengths := total_lengths h hSteps
  rw [← hLengths] at hRegion
  apply (Field.delivers_ofValue _ hRegion).bind
  intro region _
  -- A header of this many blocks is shorter than 2^16 bytes.
  let rest := start ++ blocks.flatten
  let width := lengthsWidth + (Record.mk rest).width
  have hRest : (Record.mk rest).width ≤ 44171 := by
    have hFew : qs.length < 256 := hCount
    rw [Record.width_append, hStart]
    omega
  have hSize :
      (lengthsWidth + (Record.mk (rest ++
        Path.padding width)).width) / 8 < Nat.pow 2 16 := by
    have hPush := Record.width_push_padding (Record.mk rest)
      width
    have hMissing := Path.missingBits_lt width
    have hLong : 44230 < Nat.pow 2 16 := by
      decide
    simp only [Record.push] at hPush
    rw [hPush, lengthsWidth]
    omega
  apply (Field.delivers_ofValue _ hSize).bind
  intro size _
  exact Success.delivers_pure trivial

------------------------------------------------------------
-- Scheduled Shows
------------------------------------------------------------

section Stages

variable {maxThreads : Nat}
variable {is : List Instruction}
variable {shared : Std.HashSet Nat}
variable {scheduled encoded paths : List Path}

/- The paths of a layout are as many as were scheduled. -/
theorem length_of_stages
    (hScheduled :
      Path.schedule maxThreads is = .ok scheduled)
    (hEncoded :
      Path.encodeAll device shared scheduled = .ok encoded)
    (hFinal : Path.finalize encoded = .ok paths) :
    paths.length = (Path.ids is).length := by
  have hLaid := Path.laidOutFrom_of_finalize hFinal
  have hEach := Success.mapM_eq_ok hEncoded
  rw [hLaid.length_eq, ← hEach.length_eq,
    Path.length_schedule hScheduled]

/- The paths of a layout are in ticks. -/
theorem inTicks_of_stages
    (hEncoded :
      Path.encodeAll device shared scheduled = .ok encoded)
    (hFinal : Path.finalize encoded = .ok paths) :
    ∀ q ∈ paths, q.InTicks device.tickMillis := by
  have hLaid := Path.laidOutFrom_of_finalize hFinal
  refine Success.forall_of_forall₂ ?_ hLaid.forall₂_laidOut
    (Path.encode_of_encodeAll hEncoded)
  rintro p q ⟨bit, hPath⟩ hp
  apply Path.inTicks_of_encode shared
  have hOps : q.steps.map Step.op = p.steps.map Step.op :=
    hPath.map_eq fun _ _ _ _ => rfl
  rw [hOps]
  intro op hOp
  rcases List.mem_map.mp hOp with ⟨s, hs, rfl⟩
  exact ⟨s.record, hp s hs⟩

/-
  With the limits of the protocol, paths that are laid out
  have a header if there are at most 255 of them. If there
  are 256, as many as can be scheduled, their number does
  not fit its field.
-/
theorem room_for_paths
    (hScheduled :
      Path.schedule ({} : Limits).maxThreads is =
        .ok scheduled)
    (hEncoded :
      Path.encodeAll device shared scheduled = .ok encoded)
    (hFinal : Path.finalize encoded = .ok paths)
    (hLeds : device.ledCount ≤ 65535)
    (hTick : device.tickMillis ≤ 65535)
    (hBright : Path.brightness paths ≤ 65535)
    (hRegion :
      total (paths.map Path.width) / 8 < Nat.pow 2 32) :
    (Path.ids is).length ≤ 256 ∧
      ((Path.ids is).length < 256 →
        ∃ header, ofPaths device paths = .ok header) ∧
      ((Path.ids is).length = 256 →
        ofPaths device paths =
          .error (.fieldOverflow "total paths" 8 256)) := by
  have hLaid := Path.laidOutFrom_of_finalize hFinal
  have hLength := length_of_stages hScheduled hEncoded hFinal
  have hLeds := Nat.lt_succ_of_le hLeds
  have hTick := Nat.lt_succ_of_le hTick
  have hBright := Nat.lt_succ_of_le hBright
  refine ⟨Path.length_ids_le_of_schedule hScheduled, ?_, ?_⟩
  · intro hFew
    rw [← hLength] at hFew
    have hSteps : ∀ q ∈ paths, q.steps ≠ [] := by
      apply hLaid.steps_ne_nil
      intro p hp
      exact (Path.encodeAll_eq_ok hEncoded
        (fun r hr =>
          Path.steps_ne_nil_schedule hScheduled hr) p hp).1
    rcases delivers_ofPaths hLaid hSteps
      (inTicks_of_stages hEncoded hFinal) hLeds hTick hBright
      hRegion hFew with ⟨header, hHeader, -⟩
    exact ⟨header, hHeader⟩
  · intro hFull
    rw [← hLength] at hFull
    rw [ofPaths_of_full hLeds hTick hBright
      (Nat.le_of_eq hFull.symm), hFull]

end Stages

------------------------------------------------------------
-- Shows That Only End Their Paths
------------------------------------------------------------

/- A path on which nothing happens before it ends. -/
structure EndsWithin (bound : Nat) (p : Path) : Prop where
  ops : ∀ s ∈ p.steps, s.op = .finish
  width_le : p.width ≤ bound

section Finish

variable {maxThreads : Nat}
variable {is : List Instruction}
variable {shared : Std.HashSet Nat}
variable {scheduled encoded paths : List Path}

theorem op_of_scheduled
    (hOps : ∀ i ∈ is, i.op = .finish)
    (hScheduled :
      Path.schedule maxThreads is = .ok scheduled) :
    ∀ p ∈ scheduled, ∀ s ∈ p.steps, s.op = .finish := by
  intro p hp s hs
  rcases Path.exists_instruction hScheduled hp hs
    with ⟨i, hi, ⟨hOp, -⟩ | ⟨target, _, hActivate, -⟩⟩
  · rw [hOp, hOps i hi]
  · cases (hOps i hi).symm.trans hActivate

/- The record of the end of a path is its tag. -/
theorem width_of_encodeStep
    {s t : Step}
    (hOp : s.op = .finish)
    (h : Path.encodeStep device shared s = .ok t) :
    t.op = .finish ∧ t.width = 4 := by
  rcases Path.encodeStep_eq_ok h with ⟨hRecord, hSame⟩
  have hEnd : t.op = .finish := by
    rw [hSame]
    exact hOp
  rw [hEnd] at hRecord
  refine ⟨hEnd, ?_⟩
  rw [Step.width, ← Except.ok.inj hRecord]
  rfl

theorem endsWithin_of_encodeAll
    (hOps : ∀ i ∈ is, i.op = .finish)
    (hScheduled :
      Path.schedule maxThreads is = .ok scheduled)
    (hEncoded :
      Path.encodeAll device shared scheduled = .ok encoded) :
    ∀ p ∈ encoded, EndsWithin (is.length * 4) p := by
  refine Success.forall_of_forall₂
    (P := fun r => r ∈ scheduled) ?_
    (Success.mapM_eq_ok hEncoded) fun _ hr => hr
  intro r p hPath hr
  have hSteps := (Path.encodeSteps_eq_ok hPath).2
  have hRecords := Success.forall_of_forall₂
    (fun s t hStep hOp => width_of_encodeStep hOp hStep)
    hSteps (op_of_scheduled hOps hScheduled r hr)
  refine ⟨fun t ht => (hRecords t ht).1, ?_⟩
  have hLength : p.steps.length ≤ is.length := by
    have hOwn := Path.steps_schedule hScheduled hr
    rw [← hSteps.length_eq, ← hOwn.length_eq]
    exact List.length_filter_le _ _
  have hWidth : p.width ≤ p.steps.length * 4 := by
    rw [Path.width, ← List.length_map Step.width]
    apply total_le_length_mul
    intro n hn
    rcases List.mem_map.mp hn with ⟨t, ht, rfl⟩
    exact Nat.le_of_eq (hRecords t ht).2
  omega

/- Without jumps there is always a layout. -/
theorem exists_layout_of_endsWithin
    {bound : Nat}
    (hBound : bound < Nat.pow 2 32)
    (hOpen : ∀ p ∈ encoded, p.JumpsOpen)
    (hEnds : ∀ p ∈ encoded, EndsWithin bound p) :
    ∃ paths,
      Path.finalize encoded = .ok paths ∧
        ∀ q ∈ paths, EndsWithin (bound + 7) q := by
  cases hFinal : Path.finalize encoded with
  | error e =>
      rcases Path.finalize_eq_error hOpen
        (fun p hp => Nat.lt_of_le_of_lt
          (hEnds p hp).width_le hBound) hFinal
        with ⟨p, hp, s, hs, label, scope, hGoto, -⟩
      cases ((hEnds p hp).ops s hs).symm.trans hGoto
  | ok paths =>
      refine ⟨paths, rfl, ?_⟩
      have hLaid := Path.laidOutFrom_of_finalize hFinal
      refine Success.forall_of_forall₂ ?_
        hLaid.forall₂_laidOut hEnds
      rintro p q ⟨bit, hPath⟩ hp
      have hSame :
          q.steps.map Step.op = p.steps.map Step.op :=
        hPath.map_eq fun _ _ _ _ => rfl
      constructor
      · intro t ht
        have hMem := List.mem_map_of_mem (f := Step.op) ht
        rw [hSame] at hMem
        rcases List.mem_map.mp hMem with ⟨s, hs, hOp⟩
        rw [← hOp, hp.ops s hs]
      · have hMissing := Path.missingBits_lt p.width
        have hWidth := hp.width_le
        rw [hPath.width_eq]
        omega

theorem brightness_of_endsWithin
    {bound : Nat}
    (hEnds : ∀ q ∈ paths, EndsWithin bound q) :
    Path.brightness paths = 0 := by
  have hDark :
      ((paths.flatMap Path.steps).flatMap fun s =>
        s.op.colors.map Color.brightness) = [] := by
    rw [List.flatMap_eq_nil_iff]
    intro s hs
    rcases List.mem_flatMap.mp hs with ⟨q, hq, hs⟩
    rw [(hEnds q hq).ops s hs]
    rfl
  rw [Path.brightness, hDark]
  rfl

theorem total_of_endsWithin
    {bound : Nat}
    (hEnds : ∀ q ∈ paths, EndsWithin bound q) :
    total (paths.map Path.width) ≤
      paths.length * bound := by
  rw [← List.length_map Path.width]
  apply total_le_length_mul
  intro n hn
  rcases List.mem_map.mp hn with ⟨q, hq, rfl⟩
  exact (hEnds q hq).width_le

end Finish

/- A number of paths, each of which ends at once. -/
def ends (count : Nat) : List Instruction :=
  (List.range count).map fun id =>
    ⟨.finish, some id, some 0, none⟩

def endsTarget : Target where
  device :=
    { ledCount := 1
      tickMillis := 10
      protocol := protocolVersion }

theorem op_of_mem_ends
    {count : Nat} :
    ∀ i ∈ ends count, i.op = .finish := by
  intro i hi
  rcases List.mem_map.mp hi with ⟨id, -, rfl⟩
  rfl

theorem length_ids_ends
    (count : Nat) :
    (Path.ids (ends count)).length = count := by
  have hPerm :
      (Path.ids (ends count)).Perm (List.range count) := by
    rw [List.perm_ext_iff_of_nodup (Path.nodup_ids _)
      List.nodup_range]
    intro id
    rw [Path.mem_ids]
    simp [ends]
  rw [hPerm.length_eq, List.length_range]

/- Up to 256 of them get through all stages to a layout. -/
theorem exists_stages_ends
    (count : Nat)
    (h : count ≤ 256) :
    ∃ scheduled encoded paths,
      Path.schedule 256 (ends count) = .ok scheduled ∧
        Path.encodeAll endsTarget.device
          (Path.sharedLeds scheduled 1) scheduled =
            .ok encoded ∧
        Path.finalize encoded = .ok paths ∧
        Path.brightness paths ≤ 65535 ∧
        total (paths.map Path.width) / 8 <
          Nat.pow 2 32 := by
  have hIds := length_ids_ends count
  have hCount : (ends count).length = count := by
    simp [ends]
  rcases Path.delivers_schedule
    (Nat.le_trans (Nat.le_of_eq hIds) h)
    (fun i hi target hOp => by
      cases (op_of_mem_ends i hi).symm.trans hOp)
    with ⟨scheduled, hScheduled, -⟩
  have hEncodable : ∀ p ∈ scheduled, ∀ s ∈ p.steps,
      s.op.Encodable endsTarget.device := by
    intro p hp s hs
    rw [op_of_scheduled op_of_mem_ends hScheduled p hp s hs]
    trivial
  rcases Path.delivers_encodeAll hEncodable
    (Path.sharedLeds scheduled 1) with ⟨encoded, hEncoded, -⟩
  have hOpen := Path.jumpsOpen_of_encodeAll hEncoded
  have hBound : 1024 < Nat.pow 2 32 := by
    decide
  rcases exists_layout_of_endsWithin (by omega) hOpen
    (endsWithin_of_encodeAll op_of_mem_ends hScheduled
      hEncoded) with ⟨paths, hFinal, hEnds⟩
  refine ⟨scheduled, encoded, paths, hScheduled, hEncoded,
    hFinal, ?_, ?_⟩
  · rw [brightness_of_endsWithin hEnds]
    decide
  · have hTotal := total_of_endsWithin hEnds
    have hRegion : 256 * (256 * 4 + 7) < Nat.pow 2 32 := by
      decide
    have hLe :
        paths.length * ((ends count).length * 4 + 7) ≤
          256 * (256 * 4 + 7) := by
      rw [length_of_stages hScheduled hEncoded hFinal]
      exact Nat.mul_le_mul (by omega) (by omega)
    omega

/- With 255 paths there is a header. -/
theorem room_for_paths_ends :
    ∃ scheduled encoded paths header,
      Path.schedule ({} : Limits).maxThreads (ends 255) =
          .ok scheduled ∧
        Path.encodeAll endsTarget.device
          (Path.sharedLeds scheduled 1) scheduled =
            .ok encoded ∧
        Path.finalize encoded = .ok paths ∧
        Path.brightness paths ≤ 65535 ∧
        total (paths.map Path.width) / 8 < Nat.pow 2 32 ∧
        ofPaths endsTarget.device paths = .ok header := by
  rcases exists_stages_ends 255 (by decide)
    with ⟨scheduled, encoded, paths, hScheduled, hEncoded,
      hFinal, hBright, hRegion⟩
  have hRoom := room_for_paths hScheduled hEncoded hFinal
    (by decide) (by decide) hBright hRegion
  have hFew : (Path.ids (ends 255)).length < 256 := by
    rw [length_ids_ends]
    decide
  rcases hRoom.2.1 hFew with ⟨header, hHeader⟩
  exact ⟨scheduled, encoded, paths, header, hScheduled,
    hEncoded, hFinal, hBright, hRegion, hHeader⟩

/- With 256 paths, which can be scheduled, there is none. -/
theorem no_room_for_last_path :
    ∃ scheduled encoded paths,
      endsTarget.check = .ok () ∧
        (Path.ids (ends 256)).length ≤
          endsTarget.limits.maxThreads ∧
        Path.schedule endsTarget.limits.maxThreads
          (ends 256) = .ok scheduled ∧
        Path.encodeAll endsTarget.device
          (Path.sharedLeds scheduled 1) scheduled =
            .ok encoded ∧
        Path.finalize encoded = .ok paths ∧
        Path.brightness paths ≤ 65535 ∧
        total (paths.map Path.width) / 8 < Nat.pow 2 32 ∧
        ofPaths endsTarget.device paths =
          .error (.fieldOverflow "total paths" 8 256) := by
  rcases exists_stages_ends 256 (by decide)
    with ⟨scheduled, encoded, paths, hScheduled, hEncoded,
      hFinal, hBright, hRegion⟩
  have hLength := length_of_stages hScheduled hEncoded hFinal
  rw [length_ids_ends] at hLength
  refine ⟨scheduled, encoded, paths, by decide, ?_,
    hScheduled, hEncoded, hFinal, hBright, hRegion, ?_⟩
  · rw [length_ids_ends]
    decide
  · rw [ofPaths_of_full (by decide) (by decide)
      (Nat.lt_succ_of_le hBright)
      (Nat.le_of_eq hLength.symm), hLength]

end Header

end LightShow
