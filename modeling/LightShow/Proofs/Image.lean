import LightShow.Image.Show
import LightShow.Proofs.Header
import LightShow.Proofs.Schedule

/-
  Images read back from their bytes.

  The header says where each path lies; the bytes there are
  the records of the path. Behind the paths only the filler
  of the last packet follows.

  Key definitions include:
    * `Show.ReadsBack`

  Main statements:
    * `Header.extents_of_laidOutFrom`
    * `Show.image_reads_back`
-/

namespace LightShow

------------------------------------------------------------
-- Extents
------------------------------------------------------------

namespace Path

/- A path ends its width behind its start. -/
theorem LaidOut.last_bit
    {start : Nat}
    {p q : Path}
    (h : LaidOut start p q)
    {before : List Step}
    {last : Step}
    (hSteps : q.steps = before ++ [last]) :
    last.bit + last.width = start + q.width := by
  rcases h.address hSteps with ⟨hPathBit, hBit⟩
  have hWidth :
      q.width =
        total (before.map Step.width) + last.width := by
    simp [width, hSteps]
  omega

theorem LaidOut.extent?_eq
    {start : Nat}
    {p q : Path}
    (h : LaidOut start p q)
    (hSteps : q.steps ≠ []) :
    q.extent? 0 = some ⟨start / 8, q.width / 8⟩ := by
  rcases List.exists_cons_of_ne_nil hSteps
    with ⟨first, rest, hFirst⟩
  rcases (List.eq_nil_or_concat q.steps).resolve_left hSteps
    with ⟨before, last, hLast⟩
  rw [List.concat_eq_append] at hLast
  have hHead : q.steps.head? = some first := by
    simp [hFirst]
  have hEnd : q.steps.getLast? = some last := by
    simp [hLast]
  have hStart := h.head_bit hFirst
  have hStop := h.last_bit hLast
  have hLength : last.bit + last.width - start = q.width := by
    omega
  simp [extent?, hHead, hEnd, hStart, hLength]

end Path

namespace Header

open LightShow.Path (LaidOut LaidOutFrom placeFrom)

/- The extents of paths laid out from a bit on. -/
theorem filterMap_extents
    {start : Nat}
    {ps qs : List Path}
    (h : LaidOutFrom start ps qs)
    (hSteps : ∀ q ∈ qs, q.steps ≠ [])
    (thread : Nat) :
    ((qs.zipIdx thread).filterMap fun x =>
        (x.1.extent? 0).map fun e => (x.1, x.2, e)).map
          (fun x => (x.1, x.2.2)) =
      placeFrom
        (fun q bit => (q, Extent.mk (bit / 8) (q.width / 8)))
        Path.width start qs := by
  induction h generalizing thread with
  | nil => rfl
  | @cons start p q ps qs hFirst _ ih =>
      have hExtent := hFirst.extent?_eq
        (hSteps q (List.mem_cons_self ..))
      have hRest := ih
        (fun r hr => hSteps r (List.mem_cons_of_mem q hr))
        (thread + 1)
      rw [List.zipIdx_cons, List.filterMap_cons]
      simp only [hExtent, Option.map_some, List.map_cons,
        placeFrom]
      rw [hRest]

/- The first path starts at bit zero. -/
theorem base_eq_zero
    {ps qs : List Path}
    (h : LaidOutFrom 0 ps qs) :
    (qs.head?.bind Path.start?).getD 0 = 0 := by
  cases h with
  | nil => rfl
  | @cons _ p q ps qs hFirst hRest =>
      cases hSteps : q.steps with
      | nil => simp [Path.start?, hSteps]
      | cons first rest =>
          simp [Path.start?, hSteps, hFirst.head_bit hSteps]

theorem extents_of_laidOutFrom
    {ps qs : List Path}
    (h : LaidOutFrom 0 ps qs)
    (hSteps : ∀ q ∈ qs, q.steps ≠ []) :
    (extents qs).map (fun x => (x.1, x.2.2)) =
      placeFrom
        (fun q bit => (q, Extent.mk (bit / 8) (q.width / 8)))
        Path.width 0 qs := by
  have hAll := filterMap_extents h hSteps 0
  rw [extents, base_eq_zero h]
  exact hAll

end Header

------------------------------------------------------------
-- Bits Of The Image
------------------------------------------------------------

/- Packets are filled with fewer ones than they have bits. -/
theorem Packet.exists_fill
    {packetBits : Nat}
    (hPositive : packetBits ≠ 0)
    (bits : Bits) :
    ∃ count,
      Packet.fill packetBits bits =
          bits ++ Bits.ones count ∧
        count < packetBits ∧
        (bits.length + count) % packetBits = 0 := by
  have hLt : bits.length % packetBits < packetBits :=
    Nat.mod_lt _ (Nat.pos_of_ne_zero hPositive)
  unfold Packet.fill
  by_cases hWhole : bits.length % packetBits = 0
  · refine ⟨0, ?_, Nat.pos_of_ne_zero hPositive, hWhole⟩
    rw [if_pos (.inr hWhole)]
    simp [Bits.ones]
  · refine ⟨packetBits - bits.length % packetBits, ?_,
      by omega, ?_⟩
    · rw [if_neg (by omega)]
    · have hSplit := Nat.div_add_mod bits.length packetBits
      have hSum :
          bits.length +
              (packetBits - bits.length % packetBits) =
            packetBits * (bits.length / packetBits + 1) := by
        rw [Nat.mul_add, Nat.mul_one]
        omega
      rw [hSum]
      exact Nat.mul_mod_right _ _

namespace Placed

/- The bits of the steps of one path. -/
def pathBits (p : Path) : Bits :=
  p.steps.flatMap fun s => s.record.bits

theorem length_pathBits
    (p : Path) :
    (pathBits p).length = p.width := by
  rcases p with ⟨_, _, _, steps⟩
  induction steps with
  | nil => rfl
  | cons s steps ih =>
      simp only [pathBits, Path.width] at ih ⊢
      rw [List.flatMap_cons, List.length_append, ih,
        Record.length_bits]
      rfl

theorem length_instructionBits
    (paths : List Path) :
    (instructionBits paths).length =
      total (paths.map Path.width) := by
  induction paths with
  | nil => rfl
  | cons p paths ih =>
      have hPath := length_pathBits p
      simp only [pathBits] at hPath
      simp only [instructionBits] at ih ⊢
      rw [List.flatMap_cons, List.length_append, ih, hPath]
      rfl

/- A path stands behind the bits of the paths before it. -/
theorem take_drop_instructionBits
    (before after : List Path)
    (p : Path)
    (behind : Bits) :
    ((instructionBits (before ++ p :: after) ++ behind).drop
        (total (before.map Path.width))).take p.width =
      pathBits p := by
  have hSplit :
      instructionBits (before ++ p :: after) ++ behind =
        instructionBits before ++
          (pathBits p ++ (instructionBits after ++
            behind)) := by
    simp [instructionBits, pathBits]
  rw [hSplit, List.drop_left' (length_instructionBits before),
    List.take_left' (length_pathBits p)]

end Placed

------------------------------------------------------------
-- Blocks
------------------------------------------------------------

namespace HeaderFields

open LightShow.Path (LaidOutFrom placeFrom)

/- The blocks of laid-out paths. -/
theorem blocks_ofPaths
    {device : Device}
    {header : Header}
    {ps qs : List Path}
    (h : LaidOutFrom 0 ps qs)
    (hSteps : ∀ q ∈ qs, q.steps ≠ []) :
    (ofPaths device qs header).blocks =
      placeFrom
        (fun q bit =>
          PathBlock.ofExtent device.tickMillis q
            ⟨bit / 8, q.width / 8⟩)
        Path.width 0 qs := by
  have hMap :
      (ofPaths device qs header).blocks =
        ((Header.extents qs).map
          (fun x => (x.1, x.2.2))).map fun x =>
            PathBlock.ofExtent device.tickMillis x.1 x.2 := by
    simp [ofPaths]
  rw [hMap, Header.extents_of_laidOutFrom h hSteps,
    Path.map_placeFrom_eq]

/- Widths of whole bytes, added up in bytes. -/
theorem total_widths
    {paths : List Path}
    (hWhole : ∀ p ∈ paths, p.width % 8 = 0) :
    total (paths.map Path.width) =
      8 * total (paths.map fun p => p.width / 8) := by
  induction paths with
  | nil => rfl
  | cons p paths ih =>
      have hFirst := hWhole p (List.mem_cons_self ..)
      have hRest := ih fun q hq =>
        hWhole q (List.mem_cons_of_mem p hq)
      simp only [List.map_cons, total_cons]
      omega

/- The lengths in the blocks are the widths in bytes. -/
theorem map_length_blocks
    {ps qs : List Path}
    (h : LaidOutFrom 0 ps qs)
    (hSteps : ∀ q ∈ qs, q.steps ≠ [])
    (device : Device)
    (header : Header) :
    (ofPaths device qs header).blocks.map PathBlock.length =
      qs.map fun q => q.width / 8 := by
  have hKeep :
      ∀ (q : Path) (bit : Nat),
        (PathBlock.ofExtent device.tickMillis q
          ⟨bit / 8, q.width / 8⟩).length = q.width / 8 :=
    fun _ _ => rfl
  rw [blocks_ofPaths h hSteps]
  exact Path.map_placeFrom hKeep 0 qs

/- The block of a path in front of which others stand. -/
theorem getElem?_blocks
    {device : Device}
    {header : Header}
    {ps qs before after : List Path}
    {q : Path}
    (h : LaidOutFrom 0 ps qs)
    (hSteps : ∀ q ∈ qs, q.steps ≠ [])
    (hqs : qs = before ++ q :: after) :
    (ofPaths device qs header).blocks[before.length]? =
      some (PathBlock.ofExtent device.tickMillis q
        ⟨total (before.map fun p => p.width / 8),
          q.width / 8⟩) := by
  have hWhole :
      ∀ p ∈ before, p.width % 8 = 0 := by
    intro p hp
    exact h.width_mod p (hqs ▸ List.mem_append_left _ hp)
  have hAddress :
      (0 + total (before.map Path.width)) / 8 =
        total (before.map fun p => p.width / 8) := by
    rw [total_widths hWhole]
    omega
  rw [blocks_ofPaths h hSteps, hqs, Path.placeFrom_append,
    List.getElem?_append_right (by simp), Path.placeFrom,
    hAddress]
  simp

end HeaderFields

/- Behind a header that was read only zeros fill its bytes. -/
theorem HeaderFields.read_filled
    {fields : HeaderFields}
    {written : Bits}
    {size : Nat}
    (hRead : BitReader.Reads read fields written)
    (hSize :
      written.length + Path.missingBits written.length =
        8 * size)
    (behind : Bits) :
    let bits := written ++
      Bits.zeros (Path.missingBits written.length) ++ behind
    ∃ used rest,
      read bits = some (fields, rest) ∧
        used + rest.length = bits.length ∧
        8 * size ≤ used + 7 ∧
        used ≤ 8 * size ∧
        rest.take (8 * size - used) =
          Bits.zeros (8 * size - used) := by
  have hMissing := Path.missingBits_lt written.length
  have hRest :
      8 * size - written.length =
        Path.missingBits written.length := by
    omega
  refine ⟨written.length,
    Bits.zeros (Path.missingBits written.length) ++ behind,
    ?_, ?_, by omega, by omega, ?_⟩
  · rw [List.append_assoc]
    exact hRead _
  · simp
  · rw [hRest, List.take_left' (Bits.length_zeros _)]

------------------------------------------------------------
-- Reading An Image Back
------------------------------------------------------------

/-
  What the bytes of a show say about the encoded paths it is
  made of, found by reading them from the start.
-/
structure Show.ReadsBack
    (device : Device)
    (s : Show)
    (encoded : List Path)
    (fields : HeaderFields) : Prop where
  /- The tag and both lengths stand at the start. -/
  tag : Bits.toNat ((Bits.ofBytes s.image).take 4) = 13
  headerLength :
    Bits.toNat (((Bits.ofBytes s.image).drop 4).take 16) =
      s.headerBytes
  regionLength :
    Bits.toNat (((Bits.ofBytes s.image).drop 20).take 32) =
      s.instructionBytes
  /- The header is read up to fewer than eight zeros. -/
  header : ∃ used rest,
    HeaderFields.read (Bits.ofBytes s.image) =
      some (fields, rest) ∧
    used + rest.length = (Bits.ofBytes s.image).length ∧
    8 * s.headerBytes ≤ used + 7 ∧
    used ≤ 8 * s.headerBytes ∧
    rest.take (8 * s.headerBytes - used) =
      Bits.zeros (8 * s.headerBytes - used)
  /- It says what the show was made for. -/
  announced :
    fields.headerBytes = s.headerBytes ∧
      fields.instructionBytes = s.instructionBytes ∧
      fields.ledCount = device.ledCount ∧
      fields.tickMillis = device.tickMillis ∧
      fields.brightness = s.brightness
  /- There is one bit and one block for each path. -/
  paths :
    fields.ended.length = encoded.length ∧
      fields.blocks.length = encoded.length
  lengths :
    total (fields.blocks.map PathBlock.length) =
      s.instructionBytes
  /- Each block leads to the records of its path. -/
  blocks : ∀ (i : Nat) (block : PathBlock) (p : Path),
    fields.blocks[i]? = some block →
    encoded[i]? = some p →
    block.address =
      total ((fields.blocks.take i).map PathBlock.length) ∧
    ∃ zeros < 8,
      Bits.ofBytes
          ((s.image.drop
            (s.headerBytes + block.address)).take
              block.length) =
        p.linkedBits ++ Bits.zeros zeros
  /- The jumps in these records lead to labels. -/
  jumps : ∀ p ∈ encoded, ∀ step ∈ p.steps, ∀ label scope,
    step.op = .goto label scope →
    ∃ target,
      p.labelBit? label scope = some target ∧
        target < Nat.pow 2 32
  /- Behind the paths, ones fill the last packet. -/
  filler : ∀ b ∈
    s.image.drop (s.headerBytes + s.instructionBytes),
    b = 0xFF
  packets :
    s.headerBytes + s.instructionBytes ≤ s.image.length ∧
      s.image.length <
        s.headerBytes + s.instructionBytes +
          device.usbPacketBytes ∧
      s.image.length % device.usbPacketBytes = 0

------------------------------------------------------------
-- Shows That Were Built
------------------------------------------------------------

/- A checked device speaks the protocol and is usable. -/
theorem Target.check_eq_ok
    {t : Target}
    (h : t.check = .ok ()) :
    t.device.protocol = protocolVersion ∧
      t.device.validate = .ok () := by
  unfold check at h
  split at h
  · rename_i hProtocol
    split at h
    · rename_i hValid
      exact ⟨hProtocol, hValid⟩
    · cases h
  · cases h

/- A device without room for packets is refused. -/
theorem Target.usbPacketBytes_ne_zero
    {t : Target}
    (h : t.check = .ok ()) :
    t.device.usbPacketBytes ≠ 0 :=
  (Device.validate_eq_ok_iff.mp (check_eq_ok h).2).2.2

/- The stages behind a show that was built. -/
theorem Show.buildWith_eq_ok
    {t : Target}
    {is : List Instruction}
    {s : Show}
    {placed : Placed}
    (h : Show.buildWith t is = .ok (s, placed)) :
    ∃ (scheduled encoded : List Path) (usage : Usage),
      t.check = .ok () ∧
        Path.schedule t.limits.maxThreads is =
          .ok scheduled ∧
        Path.encodeAll t.device
            (Path.sharedLeds scheduled t.device.ledCount)
            scheduled =
          .ok encoded ∧
        Path.finalize encoded = .ok placed.paths ∧
        Header.ofPaths t.device placed.paths =
          .ok placed.header ∧
        Usage.check
            (.of t.device t.limits placed.paths.length
              placed.header.byteLength
              placed.header.maxPathBytes
              (placed.image t).length) =
          .ok usage ∧
        s = {
          image := placed.image t
          headerBytes := placed.header.byteLength
          instructionBytes := placed.header.instructionBytes
          maxPathBytes := placed.header.maxPathBytes
          threadCount := placed.paths.length
          brightness := placed.header.brightness
          usage := usage
          packets :=
            Packets.ofImage t.device (placed.image t) } := by
  rcases Success.bind_eq_ok h with ⟨made, hPlaced, h⟩
  rcases Success.bind_eq_ok h with ⟨finished, hFinished, h⟩
  cases Success.pure_eq_ok h
  have hFinished := Success.unplaced_eq_ok hFinished
  rcases Success.bind_eq_ok hFinished
    with ⟨usage, hUsage, hFinished⟩
  cases Success.pure_eq_ok hFinished
  rcases Success.bind_eq_ok hPlaced
    with ⟨⟨⟩, hCheck, hPlaced⟩
  rcases Success.bind_eq_ok hPlaced
    with ⟨scheduled, hScheduled, hPlaced⟩
  rcases Success.bind_eq_ok hPlaced
    with ⟨encoded, hEncoded, hPlaced⟩
  rcases Success.bind_eq_ok hPlaced
    with ⟨paths, hPaths, hPlaced⟩
  rcases Success.bind_eq_ok hPlaced
    with ⟨header, hHeader, hPlaced⟩
  cases Success.pure_eq_ok hPlaced
  exact ⟨scheduled, encoded, usage,
    Success.unplaced_eq_ok hCheck, hScheduled, hEncoded,
    hPaths, Success.unplaced_eq_ok hHeader, hUsage, rfl⟩

theorem Show.build_eq_ok
    {t : Target}
    {is : List Instruction}
    {s : Show}
    (h : Show.build t is = .ok s) :
    ∃ (scheduled encoded : List Path) (placed : Placed)
      (usage : Usage),
      t.check = .ok () ∧
        Path.schedule t.limits.maxThreads is =
          .ok scheduled ∧
        Path.encodeAll t.device
            (Path.sharedLeds scheduled t.device.ledCount)
            scheduled =
          .ok encoded ∧
        Path.finalize encoded = .ok placed.paths ∧
        Header.ofPaths t.device placed.paths =
          .ok placed.header ∧
        s = {
          image := placed.image t
          headerBytes := placed.header.byteLength
          instructionBytes := placed.header.instructionBytes
          maxPathBytes := placed.header.maxPathBytes
          threadCount := placed.paths.length
          brightness := placed.header.brightness
          usage := usage
          packets :=
            Packets.ofImage t.device (placed.image t) } := by
  rcases Success.bind_eq_ok h
    with ⟨⟨finished, placed⟩, hBuilt, h⟩
  cases Success.pure_eq_ok h
  rcases buildWith_eq_ok hBuilt
    with ⟨scheduled, encoded, usage, hCheck, hScheduled,
      hEncoded, hPaths, hHeader, -, hShow⟩
  exact ⟨scheduled, encoded, placed, usage, hCheck,
    hScheduled, hEncoded, hPaths, hHeader, hShow⟩

/-
  The image of whole bytes is the header and the paths with
  fewer bytes of ones than a packet has behind them.
-/
theorem Placed.exists_image
    {t : Target}
    {p : Placed}
    (hPackets : t.device.usbPacketBytes ≠ 0)
    {size region : Nat}
    (hHeader : p.header.record.bits.length = 8 * size)
    (hRegion :
      (instructionBits p.paths).length = 8 * region) :
    ∃ count < t.device.usbPacketBytes,
      (p.image t).drop (size + region) =
          List.replicate count 0xFF ∧
        Bits.ofBytes (p.image t) =
          p.header.record.bits ++ instructionBits p.paths ++
            Bits.ones (8 * count) ∧
        (p.image t).length = size + region + count ∧
        (p.image t).length % t.device.usbPacketBytes = 0 := by
  let front := p.header.record.bits ++ instructionBits p.paths
  have hFront : front.length = 8 * (size + region) := by
    rw [List.length_append, hHeader, hRegion]
    omega
  have hPacketBits : t.device.packetBits ≠ 0 := by
    unfold Device.packetBits
    omega
  rcases Packet.exists_fill hPacketBits front
    with ⟨ones, hFill, hLt, hWhole⟩
  have hMultiple := Nat.div_add_mod
    (front.length + ones) t.device.packetBits
  rw [hWhole, hFront] at hMultiple
  unfold Device.packetBits at hMultiple hLt
  -- Packets hold whole bytes, so the filler does as well.
  have hBytes : ∃ count, ones = 8 * count := by
    refine ⟨ones / 8, ?_⟩
    have hEight :
        t.device.usbPacketBytes * 8 *
            ((8 * (size + region) + ones) /
              (t.device.usbPacketBytes * 8)) =
          8 * (t.device.usbPacketBytes *
            ((8 * (size + region) + ones) /
              (t.device.usbPacketBytes * 8))) := by
      rw [Nat.mul_comm t.device.usbPacketBytes 8,
        Nat.mul_assoc]
    omega
  rcases hBytes with ⟨count, rfl⟩
  have hImage :
      p.image t =
        Bits.toBytes (front ++ Bits.ones (8 * count)) :=
    congrArg Bits.toBytes hFill
  have hBits :
      Bits.ofBytes (p.image t) =
        front ++ Bits.ones (8 * count) := by
    rw [hImage, Bits.ofBytes_toBytes_of_dvd]
    rw [List.length_append, hFront, Bits.length_ones]
    omega
  have hLength :
      (p.image t).length = size + region + count := by
    have hEight := congrArg List.length hBits
    rw [Bits.length_ofBytes, List.length_append, hFront,
      Bits.length_ones] at hEight
    omega
  refine ⟨count, by omega, ?_, hBits, hLength, ?_⟩
  · have hFrontBytes :
        (Bits.toBytes front).length = size + region := by
      have hEight :
          8 * (Bits.toBytes front).length = front.length :=
        Bits.length_toBytes_of_dvd (by omega)
      omega
    rw [hImage, Bits.toBytes_append (by omega),
      Bits.toBytes_ones, List.drop_left' hFrontBytes]
  · rw [hFront] at hWhole
    unfold Device.packetBits at hWhole
    have hScale :
        8 * (size + region) + 8 * count =
          (size + region + count) * 8 := by
      omega
    rw [hScale, Nat.mul_mod_mul_right] at hWhole
    rw [hLength]
    omega

------------------------------------------------------------
-- Paths Of An Image
------------------------------------------------------------

namespace Placed

open LightShow.Path (LaidOutFrom)

/- The bits of a laid-out path in the middle of an image. -/
theorem linkedBits_of_split
    {ps before after : List Path}
    {p q : Path}
    (h : LaidOutFrom 0 ps (before ++ q :: after))
    (hp : ps[before.length]? = some p)
    (hOpen : p.JumpsOpen)
    (front behind : Bits) :
    ∃ zeros < 8,
      ((front ++ (instructionBits (before ++ q :: after) ++
          behind)).drop
            (front.length +
              total (before.map Path.width))).take q.width =
        p.linkedBits ++ Bits.zeros zeros := by
  rcases h.laidOut_of_append rfl
    with ⟨ahead, p', back, rfl, hLength, hLaid⟩
  have hSame : p' = p := by
    rw [← hLength] at hp
    simpa using hp
  subst hSame
  refine ⟨Path.missingBits p'.width,
    Path.missingBits_lt _, ?_⟩
  rw [← List.drop_drop, List.drop_left,
    take_drop_instructionBits]
  exact hLaid.bits_eq hOpen

/- A block leads to the records of its path. -/
theorem path_of_block
    {device : Device}
    {placed : Placed}
    {encoded : List Path}
    {image : List UInt8}
    {behind : Bits}
    (hLaid : LaidOutFrom 0 encoded placed.paths)
    (hSteps : ∀ q ∈ placed.paths, q.steps ≠ [])
    (hOpen : ∀ p ∈ encoded, p.JumpsOpen)
    (hSize :
      placed.header.record.bits.length =
        8 * placed.header.byteLength)
    (hImage :
      Bits.ofBytes image =
        placed.header.record.bits ++
          (instructionBits placed.paths ++ behind))
    {i : Nat}
    {block : PathBlock}
    {p : Path}
    (hBlock :
      (HeaderFields.ofPaths device placed.paths
        placed.header).blocks[i]? = some block)
    (hp : encoded[i]? = some p) :
    block.address =
        total (((HeaderFields.ofPaths device placed.paths
          placed.header).blocks.take i).map
            PathBlock.length) ∧
      ∃ zeros < 8,
        Bits.ofBytes
            ((image.drop
              (placed.header.byteLength +
                block.address)).take block.length) =
          p.linkedBits ++ Bits.zeros zeros := by
  have hLt : i < placed.paths.length := by
    rw [hLaid.length_eq]
    exact (List.getElem?_eq_some_iff.mp hp).1
  -- Split the paths at the one that the block is about.
  obtain ⟨before, q, after, hPaths, hLength⟩ :
      ∃ before q after,
        placed.paths = before ++ q :: after ∧
          before.length = i := by
    refine ⟨placed.paths.take i, placed.paths[i],
      placed.paths.drop (i + 1), ?_, ?_⟩
    · rw [← List.drop_eq_getElem_cons hLt,
        List.take_append_drop]
    · rw [List.length_take]
      omega
  subst hLength
  have hWhole := hLaid.width_mod
  rw [hPaths] at hWhole
  rw [HeaderFields.getElem?_blocks hLaid hSteps hPaths]
    at hBlock
  cases hBlock
  have hLengths :
      total (((HeaderFields.ofPaths device placed.paths
          placed.header).blocks.take before.length).map
            PathBlock.length) =
        total (before.map fun p => p.width / 8) := by
    rw [List.map_take,
      HeaderFields.map_length_blocks hLaid hSteps, hPaths]
    simp
  refine ⟨hLengths.symm, ?_⟩
  have hBefore := HeaderFields.total_widths
    (fun r hr => hWhole r (List.mem_append_left _ hr))
  have hWidth := hWhole q (by simp)
  have hStart :
      8 * (placed.header.byteLength +
          total (before.map fun p => p.width / 8)) =
        placed.header.record.bits.length +
          total (before.map Path.width) := by
    omega
  have hEnd : 8 * (q.width / 8) = q.width := by
    omega
  rw [hPaths] at hLaid hImage
  have hPath := linkedBits_of_split hLaid hp
    (hOpen p (List.mem_of_getElem? hp))
    placed.header.record.bits behind
  simp only [PathBlock.ofExtent]
  rw [Bits.ofBytes_take, Bits.ofBytes_drop, hImage, hStart,
    hEnd]
  exact hPath

end Placed

namespace Show

/-
  A show that was built can be read back from its bytes
  alone, whatever paths and records it is made of.
-/
theorem image_reads_back
    {t : Target}
    {is : List Instruction}
    {s : Show}
    (h : build t is = .ok s) :
    ∃ scheduled encoded fields,
      Path.schedule t.limits.maxThreads is =
          .ok scheduled ∧
        Path.encodeAll t.device
            (Path.sharedLeds scheduled t.device.ledCount)
            scheduled =
          .ok encoded ∧
        ReadsBack t.device s encoded fields := by
  rcases build_eq_ok h
    with ⟨scheduled, encoded, placed, usage, hCheck,
      hScheduled, hEncoded, hPaths, hHeader, rfl⟩
  refine ⟨scheduled, encoded,
    HeaderFields.ofPaths t.device placed.paths placed.header,
    hScheduled, hEncoded, ?_⟩
  have hLaid := Path.laidOutFrom_of_finalize hPaths
  have hEach := Path.encodeAll_eq_ok hEncoded
    fun p hp => Path.steps_ne_nil_schedule hScheduled hp
  have hSteps := hLaid.steps_ne_nil
    fun p hp => (hEach p hp).1
  have hCount :
      (Header.extents placed.paths).length =
        placed.paths.length := by
    simpa using congrArg List.length
      (Header.extents_of_laidOutFrom hLaid hSteps)
  rcases Header.exists_written hHeader hCount
    with ⟨written, hRead, hFilled, hSize⟩
  have hLengths := HeaderFields.map_length_blocks hLaid hSteps
    t.device placed.header
  have hRegion := Header.instructionBytes_eq hHeader
  have hBits :
      (Placed.instructionBits placed.paths).length =
        8 * placed.header.instructionBytes := by
    rw [Placed.length_instructionBits, hRegion, hLengths]
    exact HeaderFields.total_widths hLaid.width_mod
  have hPacket := Target.usbPacketBytes_ne_zero hCheck
  rcases Placed.exists_image hPacket hSize hBits
    with ⟨count, hLt, hFiller, hOfBytes, hLength, hWhole⟩
  have hLe :
      placed.header.byteLength +
          placed.header.instructionBytes ≤
        (placed.image t).length := by
    omega
  have hBound :
      (placed.image t).length <
        placed.header.byteLength +
            placed.header.instructionBytes +
          t.device.usbPacketBytes := by
    omega
  have hWritten :
      written.length + Path.missingBits written.length =
        8 * placed.header.byteLength := by
    rw [← hSize, hFilled, List.length_append,
      Bits.length_zeros]
  have hHead := HeaderFields.read_filled hRead hWritten
    (Placed.instructionBits placed.paths ++
      Bits.ones (8 * count))
  rw [← hFilled, ← List.append_assoc, ← hOfBytes] at hHead
  rcases id hHead with ⟨_, _, hFields, -⟩
  rcases HeaderFields.read_eq_some hFields
    with ⟨hTag, hHeaderLength, hRegionLength⟩
  exact {
    tag := hTag
    headerLength := hHeaderLength
    regionLength := hRegionLength
    header := hHead
    announced := ⟨rfl, rfl, rfl, rfl, rfl⟩
    paths := by
      rw [← hLaid.length_eq]
      exact ⟨Header.length_endedBitmap _, by
        simpa using congrArg List.length hLengths⟩
    lengths := hRegion.symm
    blocks := by
      intro i block p hBlock hp
      rw [List.append_assoc] at hOfBytes
      exact Placed.path_of_block hLaid hSteps
        (fun p hp => (hEach p hp).2) hSize hOfBytes hBlock hp
    jumps := by
      intro p hp
      rcases hLaid.exists_laidOut p hp with ⟨bit, q, hq⟩
      exact hq.exists_target (hEach p hp).2
    filler := by
      intro b hb
      rw [hFiller] at hb
      exact List.eq_of_mem_replicate hb
    packets := ⟨hLe, hBound, hWhole⟩ }

------------------------------------------------------------
-- A Show With A Loop
------------------------------------------------------------

/- A device with small packets. -/
def loopTarget : Target where
  device := {
    usbPacketBytes := 16
    tickMillis := 10
    ramBytes := 4096
    ledCount := 3
    protocol := protocolVersion }

/- A path that waits again and again beside another one. -/
def loopInstructions : List Instruction :=
  [⟨.activate 1, some 0, some 0, none⟩,
   ⟨.here "a" 0, some 0, some 0, none⟩,
   ⟨.pause 20, some 0, some 0, none⟩,
   ⟨.goto "a" 0, some 0, some 0, none⟩,
   ⟨.glow [0, 2] ⟨255, 0, 0, 9⟩, some 1, some 1, none⟩,
   ⟨.finish, some 1, some 1, none⟩]

theorem isOk_build_loop :
    (build loopTarget loopInstructions).isOk = true := by
  have hIds : Path.ids loopInstructions = [0, 1] := by
    cbv
  have hOrder :
      Path.order loopInstructions = [(0, 0), (1, 1)] := by
    cbv
  simp only [build, buildWith, Placed.ofInstructions,
    Path.schedule, hIds, hOrder, Path.finalize,
    Path.resolveAll, Path.resolve_eq]
  decide +kernel

theorem image_reads_back_loop :
    ∃ s,
      build loopTarget loopInstructions = .ok s ∧
        ∃ scheduled encoded fields,
          Path.schedule 256 loopInstructions =
              .ok scheduled ∧
            Path.encodeAll loopTarget.device
                (Path.sharedLeds scheduled 3) scheduled =
              .ok encoded ∧
            ReadsBack loopTarget.device s encoded fields := by
  cases h : build loopTarget loopInstructions with
  | error e =>
      have hOk := isOk_build_loop
      rw [h] at hOk
      cases hOk
  | ok s => exact ⟨s, rfl, image_reads_back h⟩

end Show

end LightShow
