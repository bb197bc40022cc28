import LightShow.Proofs.EntryThread

/-
  The longest waits in the header.

  A device makes room for the longest ramp and the longest
  pause of a path before the path runs. The header finds them
  in the operations, not in the records, and leaves a number
  out that is zero. It says nevertheless what a device would
  find if it read all records of the path.

  Key definitions include:
    * `Message.rampTicks?`
    * `Message.pauseTicks?`
    * `PathBlock.Agrees`

  Main statements:
    * `Path.longestPause_eq`
    * `PathBlock.agrees_ofExtent`
    * `Header.longest_ticks_agree`
-/

namespace LightShow

------------------------------------------------------------
-- Ticks Of Operations And Records
------------------------------------------------------------

/- The length of a ramp in ticks. -/
def Op.rampTicks? (tick : Nat) : Op → Option Nat
  | .ramp _ _ _ millis => some (millis / tick)
  | _ => none

/- The length of a pause in ticks. -/
def Op.pauseTicks? (tick : Nat) : Op → Option Nat
  | .pause millis => some (millis / tick)
  | _ => none

namespace Message

/- The length of a ramp, as its record has it. -/
def rampTicks? : Message → Option Nat
  | .ramp ticks _ _ => some ticks
  | _ => none

/- The length of a pause, as its record has it. -/
def pauseTicks? : Message → Option Nat
  | .pause ticks => some ticks
  | _ => none

section Ticks

variable {device : Device}
variable {shared : Nat → Bool}
variable {target : Nat}
variable {op : Op}
variable {m : Message}

theorem rampTicks?_of_ofOp?
    (h : ofOp? device shared target op = some m) :
    m.rampTicks? = op.rampTicks? device.tickMillis := by
  cases op with
  | call function => cases h
  | _ =>
      cases h
      rfl

theorem pauseTicks?_of_ofOp?
    (h : ofOp? device shared target op = some m) :
    m.pauseTicks? = op.pauseTicks? device.tickMillis := by
  cases op with
  | call function => cases h
  | _ =>
      cases h
      rfl

end Ticks

end Message

/-
  A block with the longest ramp and pause that the records of
  its path tell. Without ramps the longest one is zero;
  without pauses it is one, or zero without either.
-/
structure PathBlock.Agrees
    (b : PathBlock)
    (messages : List Message) : Prop where
  longestRamp :
    b.longestRamp =
      (messages.filterMap Message.rampTicks?).max?.getD 0
  longestPause :
    b.longestPause =
      (messages.filterMap Message.pauseTicks?).max?.getD
        (if messages.filterMap Message.rampTicks? = [] then 0
        else 1)

namespace Path

section Told

variable {device : Device}
variable {shared : Nat → Bool}
variable {p : Path}
variable {messages : List Message}

theorem Told.filterMap_rampTicks?
    (h : p.Told device shared messages) :
    messages.filterMap Message.rampTicks? =
      p.rampTicks device.tickMillis :=
  h.filterMap_eq fun _ _ _ => Message.rampTicks?_of_ofOp?

theorem Told.filterMap_pauseTicks?
    (h : p.Told device shared messages) :
    messages.filterMap Message.pauseTicks? =
      p.pauseTicks device.tickMillis :=
  h.filterMap_eq fun _ _ _ => Message.pauseTicks?_of_ofOp?

end Told

------------------------------------------------------------
-- Ticks In The Header
------------------------------------------------------------

/- The largest of no numbers is zero. -/
theorem largest_eq
    (ns : List Nat) :
    largest ns = ns.max?.getD 0 := by
  cases ns with
  | nil => rfl
  | cons n ns =>
      rw [List.max?_cons', Option.getD_some, largest,
        List.foldl_cons, Nat.zero_max]

theorem longestPause_eq
    (tick : Nat)
    (p : Path) :
    p.longestPause tick =
      (p.pauseTicks tick).max?.getD
        (if p.rampTicks tick = [] then 0 else 1) := by
  unfold longestPause
  cases hPauses : p.pauseTicks tick with
  | nil =>
      cases hRamps : p.rampTicks tick with
      | nil => rfl
      | cons ticks ramps => rfl
  | cons ticks pauses =>
      simp [largest_eq]

end Path

/- What the header says of a path is what the path tells. -/
theorem PathBlock.agrees_ofExtent
    {device : Device}
    {shared : Nat → Bool}
    {p : Path}
    {messages : List Message}
    (h : p.Told device shared messages)
    (e : Extent) :
    (ofExtent device.tickMillis p e).Agrees messages := by
  constructor
  · rw [h.filterMap_rampTicks?, ← Path.largest_eq]
    rfl
  · rw [h.filterMap_pauseTicks?, h.filterMap_rampTicks?,
      ← Path.longestPause_eq]
    rfl

------------------------------------------------------------
-- Headers And Streams
------------------------------------------------------------

/- What holds of all items wherever they are placed. -/
theorem Path.forall₂_placeFrom
    {α β γ : Type}
    {R : α → γ → Prop}
    {S : β → γ → Prop}
    {place : α → Nat → β}
    {width : α → Nat}
    {start : Nat}
    {xs : List α}
    {zs : List γ}
    (hPlace : ∀ x n z, R x z → S (place x n) z)
    (h : List.Forall₂ R xs zs) :
    List.Forall₂ S (placeFrom place width start xs) zs := by
  induction h generalizing start with
  | nil => exact .nil
  | cons hHead _ ih => exact .cons (hPlace _ start _ hHead) ih

/-
  Whatever instructions, device and limits are: once all
  paths have a header, reading it gives one block per path,
  and each block agrees with what a device reads from the
  bits of its path.
-/
theorem Header.longest_ticks_agree
    {device : Device}
    {maxThreads : Nat}
    {shared : Std.HashSet Nat}
    {is : List Instruction}
    {scheduled encoded paths : List Path}
    {header : Header}
    (hScheduled : Path.schedule maxThreads is = .ok scheduled)
    (hEncoded :
      Path.encodeAll device shared scheduled = .ok encoded)
    (hPaths : Path.finalize encoded = .ok paths)
    (hHeader : Header.ofPaths device paths = .ok header) :
    ∃ fields zeros messages,
      zeros < 8 ∧
        HeaderFields.read header.record.bits =
          some (fields, Bits.zeros zeros) ∧
        List.Forall₂ (Path.Tells device.ledCount) paths
          messages ∧
        List.Forall₂ PathBlock.Agrees fields.blocks
          messages := by
  have hEach := Success.mapM_eq_ok hEncoded
  have hLaid := Path.laidOutFrom_of_finalize hPaths
  have hSteps := hLaid.steps_ne_nil fun p hp =>
    (Path.encodeAll_eq_ok hEncoded
      (fun o ho => Path.steps_ne_nil_schedule hScheduled ho)
      p hp).1
  have hCount :
      (Header.extents paths).length = paths.length := by
    simpa using congrArg List.length
      (Header.extents_of_laidOutFrom hLaid hSteps)
  rcases Header.exists_written hHeader hCount
    with ⟨written, hRead, hFilled, -⟩
  rcases Path.exists_tells hEach hLaid
    with ⟨messages, hTells, hTold⟩
  refine ⟨_, Path.missingBits written.length, messages,
    Path.missingBits_lt _, hFilled ▸ hRead _, hTells, ?_⟩
  rw [HeaderFields.blocks_ofPaths hLaid hSteps]
  exact Path.forall₂_placeFrom
    (fun _ _ _ hPath => PathBlock.agrees_ofExtent hPath _)
    hTold

/- Paths with a ramp alone, a pause of no ticks, and both. -/
def waitingInstructions : List Instruction :=
  [⟨.ramp [0] ⟨0, 0, 0, 31⟩ ⟨9, 0, 0, 31⟩ 30, some 0, some 0,
      none⟩,
   ⟨.pause 0, some 1, some 0, none⟩,
   ⟨.pause 20, some 2, some 0, none⟩,
   ⟨.ramp [0] ⟨9, 0, 0, 31⟩ ⟨0, 0, 0, 31⟩ 5, some 2, some 0,
      none⟩]

/- The ramps and pauses that their header announces. -/
def waitingTicks : Except Located (List (Nat × Nat)) := do
  let device := Show.loopTarget.device
  let scheduled ← Path.schedule 256 waitingInstructions
  let encoded ← Path.encodeAll device ∅ scheduled
  let paths ← Path.finalize encoded
  let header ← Located.unplaced (Header.ofPaths device paths)
  let read := HeaderFields.read header.record.bits
  return read.elim [] fun x =>
    x.1.blocks.map fun b => (b.longestRamp, b.longestPause)

theorem waitingTicks_eq :
    waitingTicks = .ok [(3, 1), (0, 0), (0, 2)] := by
  have hIds : Path.ids waitingInstructions = [0, 1, 2] := by
    cbv
  have hOrder :
      Path.order waitingInstructions =
        [(0, 0), (0, 1), (0, 2)] := by
    cbv
  simp only [waitingTicks, Path.schedule, hIds, hOrder,
    Path.finalize, Path.resolveAll, Path.resolve_eq]
  decide +kernel

theorem Header.longest_ticks_agree_waiting :
    ∃ scheduled encoded paths header fields zeros messages,
      Path.schedule 256 waitingInstructions =
          .ok scheduled ∧
        Path.encodeAll Show.loopTarget.device ∅ scheduled =
          .ok encoded ∧
        Path.finalize encoded = .ok paths ∧
        Header.ofPaths Show.loopTarget.device paths =
          .ok header ∧
        HeaderFields.read header.record.bits =
          some (fields, Bits.zeros zeros) ∧
        (fields.blocks.map fun b =>
            (b.longestRamp, b.longestPause)) =
          [(3, 1), (0, 0), (0, 2)] ∧
        List.Forall₂ (Path.Tells 3) paths messages ∧
        List.Forall₂ PathBlock.Agrees fields.blocks
          messages := by
  have hTicks := waitingTicks_eq
  rcases Success.bind_eq_ok hTicks
    with ⟨scheduled, hScheduled, hTicks⟩
  rcases Success.bind_eq_ok hTicks
    with ⟨encoded, hEncoded, hTicks⟩
  rcases Success.bind_eq_ok hTicks
    with ⟨paths, hPaths, hTicks⟩
  rcases Success.bind_eq_ok hTicks
    with ⟨header, hPlaced, hTicks⟩
  have hHeader := Success.unplaced_eq_ok hPlaced
  rcases Header.longest_ticks_agree hScheduled hEncoded
    hPaths hHeader
    with ⟨fields, zeros, messages, -, hRead, hTells, hAgree⟩
  have hBlocks := Success.pure_eq_ok hTicks
  rw [hRead, Option.elim_some] at hBlocks
  exact ⟨scheduled, encoded, paths, header, fields, zeros,
    messages, hScheduled, hEncoded, hPaths, hHeader, hRead,
    hBlocks, hTells, hAgree⟩

end LightShow
