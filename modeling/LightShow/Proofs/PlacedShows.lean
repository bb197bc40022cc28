import LightShow.Proofs.Image

/-
  What the numbers of a header count.

  The header of a show that was built gives its own length,
  that of the instruction region and that of the longest
  path in bytes. These are the bits of the records, divided
  by eight without a rest.

  Key definitions include:
    * `Placed.Measured`

  Main statements:
    * `Show.measured_of_buildWith`
-/

namespace LightShow

/- Placed paths with a header that measures them right. -/
structure Placed.Measured
    (p : Placed)
    (encoded : List Path) : Prop where
  laid : Path.LaidOutFrom 0 encoded p.paths
  steps : ∀ q ∈ p.paths, q.steps ≠ []
  header :
    p.header.record.bits.length = 8 * p.header.byteLength
  region :
    (instructionBits p.paths).length =
      8 * p.header.instructionBytes
  longest :
    p.header.maxPathBytes =
      Path.largest (p.paths.map fun q => q.width / 8)

namespace Header

open LightShow.Path (LaidOutFrom)

variable {device : Device}
variable {header : Header}
variable {encoded paths : List Path}

/- The longest path is the longest of the extents. -/
theorem maxPathBytes_eq
    (h : ofPaths device paths = .ok header) :
    header.maxPathBytes =
      Path.largest ((extents paths).map fun x =>
        x.2.2.length) := by
  rcases Success.bind_eq_ok h with ⟨start, -, h⟩
  rcases Success.bind_eq_ok h with ⟨blocks, -, h⟩
  rcases Success.bind_eq_ok h with ⟨region, -, h⟩
  rcases Success.bind_eq_ok h with ⟨size, -, h⟩
  cases Success.pure_eq_ok h
  rfl

/- A header measures the paths that it was made for. -/
theorem measured_of_ofPaths
    (h : ofPaths device paths = .ok header)
    (hLaid : LaidOutFrom 0 encoded paths)
    (hSteps : ∀ q ∈ paths, q.steps ≠ []) :
    Placed.Measured ⟨header, paths⟩ encoded := by
  have hCount : (extents paths).length = paths.length := by
    simpa using congrArg List.length
      (extents_of_laidOutFrom hLaid hSteps)
  rcases exists_written h hCount with ⟨_, -, -, hSize⟩
  have hLengths := HeaderFields.map_length_blocks hLaid hSteps
    device header
  refine ⟨hLaid, hSteps, hSize, ?_, ?_⟩
  · rw [Placed.length_instructionBits, instructionBytes_eq h,
      hLengths]
    exact HeaderFields.total_widths hLaid.width_mod
  · have hBlocks :
        ((extents paths).map fun x => x.2.2.length) =
          (HeaderFields.ofPaths device paths
            header).blocks.map PathBlock.length := by
      simp [HeaderFields.ofPaths, PathBlock.ofExtent,
        Function.comp_def]
    rw [maxPathBytes_eq h, hBlocks, hLengths]

end Header

/- The stages of a show that was built, and its measures. -/
theorem Show.measured_of_buildWith
    {t : Target}
    {is : List Instruction}
    {s : Show}
    {placed : Placed}
    (h : buildWith t is = .ok (s, placed)) :
    ∃ scheduled encoded,
      Path.schedule t.limits.maxThreads is =
          .ok scheduled ∧
        Path.encodeAll t.device
            (Path.sharedLeds scheduled t.device.ledCount)
            scheduled =
          .ok encoded ∧
        Path.finalize encoded = .ok placed.paths ∧
        placed.Measured encoded := by
  rcases buildWith_eq_ok h
    with ⟨scheduled, encoded, -, -, hScheduled, hEncoded,
      hPaths, hHeader, -⟩
  have hLaid := Path.laidOutFrom_of_finalize hPaths
  have hEach := Path.encodeAll_eq_ok hEncoded
    fun p hp => Path.steps_ne_nil_schedule hScheduled hp
  have hSteps := hLaid.steps_ne_nil
    fun p hp => (hEach p hp).1
  exact ⟨scheduled, encoded, hScheduled, hEncoded, hPaths,
    Header.measured_of_ofPaths hHeader hLaid hSteps⟩

end LightShow
