import LightShow.Image.HeaderReading
import LightShow.Proofs.Layout

/-
  Headers read back.

  Reading a header gives the numbers it was made from: its
  lengths, the device, the brightness and one block for each
  path that has steps. Fewer than eight zeros follow.

  Key definitions include:
    * `PathBlock.ofExtent`
    * `HeaderFields.ofPaths`

  Main statements:
    * `PathBlock.reads_block`
    * `Header.exists_written`
-/

namespace LightShow

open BitReader (Reads)

------------------------------------------------------------
-- Path Blocks
------------------------------------------------------------

namespace PathBlock

/- What the header says about a path with an extent. -/
def ofExtent
    (tick : Nat)
    (p : Path)
    (e : Extent) : PathBlock where
  address := e.address
  length := e.length
  reserved := 0
  longestRamp := p.longestRamp tick
  longestPause := p.longestPause tick

/- The block of a path is read back. -/
theorem reads_block
    {tick thread : Nat}
    {p : Path}
    {e : Extent}
    {fields : List Field}
    (h : p.block tick thread e = .ok fields) :
    Reads read (ofExtent tick p e)
      (fields.flatMap Field.bits) := by
  rcases Success.bind_eq_ok h with ⟨address, hAddress, h⟩
  rcases Success.bind_eq_ok h with ⟨length, hLength, h⟩
  rcases Success.bind_eq_ok h with ⟨reserved, hReserved, h⟩
  rcases Success.bind_eq_ok h with ⟨ramp, hRamp, h⟩
  rcases Success.bind_eq_ok h with ⟨pause, hPause, h⟩
  cases Success.pure_eq_ok h
  simp only [List.flatMap_append, List.append_assoc]
  apply (BitReader.reads_sized2 hAddress).bind
  apply (BitReader.reads_sized2 hLength).bind
  apply (BitReader.reads_sized2 hReserved).bind
  apply (BitReader.reads_sized3 hRamp).bind
  exact (BitReader.reads_sized3 hPause).map fun pause =>
    PathBlock.mk e.address e.length 0 (p.longestRamp tick)
      pause

/- Blocks in a row are read back one after the other. -/
theorem reads_readMany
    {blocks : List PathBlock}
    {fields : List (List Field)}
    (h : List.Forall₂
      (fun b fs => Reads read b (fs.flatMap Field.bits))
      blocks fields) :
    Reads (readMany blocks.length) blocks
      (fields.flatten.flatMap Field.bits) := by
  induction h with
  | nil => exact BitReader.reads_pure []
  | cons hHead _ ih =>
      rw [List.flatten_cons, List.flatMap_append]
      exact hHead.bind (ih.map _)

end PathBlock

------------------------------------------------------------
-- Headers
------------------------------------------------------------

/- What the header of some paths says. -/
def HeaderFields.ofPaths
    (device : Device)
    (paths : List Path)
    (header : Header) : HeaderFields where
  headerBytes := header.byteLength
  instructionBytes := header.instructionBytes
  ledCount := device.ledCount
  tickMillis := device.tickMillis
  brightness := header.brightness
  ended := (Header.endedBitmap paths.length).bits
  blocks := (Header.extents paths).map fun x =>
    PathBlock.ofExtent device.tickMillis x.1 x.2.2

namespace Header

theorem length_endedBitmap
    (count : Nat) :
    (endedBitmap count).bits.length = count := by
  simp [endedBitmap]

/- The blocks of a header are read back. -/
theorem reads_blocks
    {tick : Nat}
    {placed : List (Path × Nat × Extent)}
    {blocks : List (List Field)}
    (h : List.Forall₂
      (fun x fs => x.1.block tick x.2.1 x.2.2 = .ok fs)
      placed blocks) :
    Reads (PathBlock.readMany placed.length)
      (placed.map fun x => PathBlock.ofExtent tick x.1 x.2.2)
      (blocks.flatten.flatMap Field.bits) := by
  have hRead :
      List.Forall₂
        (fun b fs =>
          Reads PathBlock.read b (fs.flatMap Field.bits))
        (placed.map fun x =>
          PathBlock.ofExtent tick x.1 x.2.2)
        blocks :=
    List.forall₂_map_left_iff.mpr
      (h.imp fun _ _ hBlock => PathBlock.reads_block hBlock)
  have hAll := PathBlock.reads_readMany hRead
  rwa [List.length_map] at hAll

/- The fields of a header that could be made. -/
theorem preamble_eq_ok
    {device : Device}
    {paths : List Path}
    {fields : List Field}
    (h : preamble device paths = .ok fields) :
    ∃ leds tick bright count,
      Field.ofValue "led count" 16 device.ledCount =
          .ok leds ∧
        Field.ofValue "tick interval" 16 device.tickMillis =
          .ok tick ∧
        Field.ofValue "sim bright coeff" 16
          (Path.brightness paths) = .ok bright ∧
        Field.ofValue "total paths" 8 paths.length =
          .ok count ∧
        fields = [leds, tick, bright, count,
          endedBitmap paths.length] := by
  rcases Success.bind_eq_ok h with ⟨leds, hLeds, h⟩
  rcases Success.bind_eq_ok h with ⟨tick, hTick, h⟩
  rcases Success.bind_eq_ok h with ⟨bright, hBright, h⟩
  rcases Success.bind_eq_ok h with ⟨count, hCount, h⟩
  exact ⟨leds, tick, bright, count, hLeds, hTick, hBright,
    hCount, (Success.pure_eq_ok h).symm⟩

/- The fields between the lengths and the padding. -/
theorem reads_fields
    {tag lengths regions leds tick bright count : Nat}
    {a b c d e f : Field}
    {ended rest : Bits}
    {blocks : List PathBlock}
    (hTag : tag = Op.headerTag)
    (ha : Reads (BitReader.number 16) lengths a.bits)
    (hb : Reads (BitReader.number 32) regions b.bits)
    (hc : Reads (BitReader.number 16) leds c.bits)
    (hd : Reads (BitReader.number 16) tick d.bits)
    (he : Reads (BitReader.number 16) bright e.bits)
    (hf : Reads (BitReader.number 8) count f.bits)
    (hEnded : ended.length = count)
    (hBlocks :
      Reads (PathBlock.readMany count) blocks rest) :
    Reads HeaderFields.read
      ⟨lengths, regions, leds, tick, bright, ended, blocks⟩
      ((Op.tagField tag).bits ++ (a.bits ++ (b.bits ++
        (c.bits ++ (d.bits ++ (e.bits ++ (f.bits ++
          (ended ++ rest)))))))) := by
  subst hTag
  have hRead :
      Reads (BitReader.number Op.tagWidth) Op.headerTag
        (Op.tagField Op.headerTag).bits :=
    Op.reads_fixed (by decide)
  apply hRead.bind
  rw [if_neg (fun hNe => hNe rfl)]
  refine ha.bind (hb.bind (hc.bind (hd.bind (he.bind
    (hf.bind ?_)))))
  apply (BitReader.reads_bits hEnded).bind
  exact hBlocks.map fun blocks =>
    HeaderFields.mk lengths regions leds tick bright ended
      blocks

/-
  A header is what its reader reads back, filled up to whole
  bytes with fewer than eight zeros.
-/
theorem exists_written
    {device : Device}
    {paths : List Path}
    {header : Header}
    (h : ofPaths device paths = .ok header)
    (hExtents : (extents paths).length = paths.length) :
    ∃ written,
      Reads HeaderFields.read
          (HeaderFields.ofPaths device paths header)
          written ∧
        header.record.bits =
          written ++ Bits.zeros
            (Path.missingBits written.length) ∧
        header.record.bits.length =
          8 * header.byteLength := by
  rcases Success.bind_eq_ok h with ⟨start, hStart, h⟩
  rcases Success.bind_eq_ok h with ⟨blocks, hBlocks, h⟩
  rcases Success.bind_eq_ok h with ⟨region, hRegion, h⟩
  rcases Success.bind_eq_ok h with ⟨size, hSize, h⟩
  rcases preamble_eq_ok hStart
    with ⟨leds, tick, bright, count, hLeds, hTick, hBright,
      hCount, rfl⟩
  have hMade := Success.pure_eq_ok h
  have hReadBlocks :=
    reads_blocks (Success.mapM_eq_ok hBlocks)
  rw [hExtents] at hReadBlocks
  have hRead := reads_fields rfl
    (Field.reads_ofValue hSize) (Field.reads_ofValue hRegion)
    (Field.reads_ofValue hLeds) (Field.reads_ofValue hTick)
    (Field.reads_ofValue hBright)
    (Field.reads_ofValue hCount)
    (length_endedBitmap paths.length) hReadBlocks
  -- The header is this body with the padding behind it.
  let rest :=
    [leds, tick, bright, count, endedBitmap paths.length] ++
      blocks.flatten
  let body := Record.mk
    (Op.tagField Op.headerTag :: size :: region :: rest)
  have hTag : (Op.tagField Op.headerTag).width = 4 := rfl
  have hWidth :
      lengthsWidth + (Record.mk rest).width = body.width := by
    simp only [body, Record.width, List.map_cons, total_cons,
      hTag, Field.width_ofValue hSize,
      Field.width_ofValue hRegion, lengthsWidth]
    omega
  have hRecord :
      header.record =
        body.push (Path.padding body.width) := by
    rw [← hMade, ← hWidth]
    rfl
  have hPadded :
      lengthsWidth +
          (Record.mk
            (rest ++ Path.padding body.width)).width =
        body.width + Path.missingBits body.width := by
    have hPush :=
      Record.width_push_padding (Record.mk rest) body.width
    simp only [Record.push] at hPush
    rw [hPush]
    omega
  have hByteLength :
      header.byteLength =
        (body.width + Path.missingBits body.width) / 8 := by
    rw [← hPadded, ← hWidth, ← hMade]
  refine ⟨body.bits, ?_, ?_, ?_⟩
  · rw [← hMade]
    simpa [body, rest, Record.bits, HeaderFields.ofPaths]
      using hRead
  · rw [hRecord, Record.bits_push, Path.bits_padding,
      Record.length_bits]
  · have hWhole := Path.add_missingBits_mod body.width
    rw [Record.length_bits, hRecord,
      Record.width_push_padding, hByteLength]
    omega

/- The instruction region is as long as its paths. -/
theorem instructionBytes_eq
    {device : Device}
    {paths : List Path}
    {header : Header}
    (h : ofPaths device paths = .ok header) :
    header.instructionBytes =
      total ((HeaderFields.ofPaths device paths
        header).blocks.map PathBlock.length) := by
  rcases Success.bind_eq_ok h with ⟨start, -, h⟩
  rcases Success.bind_eq_ok h with ⟨blocks, -, h⟩
  rcases Success.bind_eq_ok h with ⟨region, -, h⟩
  rcases Success.bind_eq_ok h with ⟨size, -, h⟩
  cases Success.pure_eq_ok h
  simp [HeaderFields.ofPaths, PathBlock.ofExtent,
    Function.comp_def]

end Header

------------------------------------------------------------
-- Numbers At Fixed Places
------------------------------------------------------------

namespace BitReader

/- A reading that succeeds passes through a rest between. -/
theorem bind_eq_some
    {α β : Type}
    {p : BitReader α}
    {f : α → BitReader β}
    {bits rest : Bits}
    {b : β}
    (h : (p >>= f) bits = some (b, rest)) :
    ∃ a between,
      p bits = some (a, between) ∧
        f a between = some (b, rest) := by
  rcases Option.bind_eq_some_iff.mp h with ⟨x, hp, hf⟩
  exact ⟨x.1, x.2, hp, hf⟩

/- A number is what the first bits spell. -/
theorem number_eq_some
    {width n : Nat}
    {bits rest : Bits}
    (h : number width bits = some (n, rest)) :
    n = Bits.toNat (bits.take width) ∧
      rest = bits.drop width := by
  rcases bind_eq_some h with ⟨taken, between, hTaken, h⟩
  unfold BitReader.bits at hTaken
  split at hTaken
  · cases hTaken
    cases h
    exact ⟨rfl, rfl⟩
  · cases hTaken

end BitReader

namespace HeaderFields

/- The tag and the lengths of a header stand at its start. -/
theorem read_eq_some
    {bits rest : Bits}
    {fields : HeaderFields}
    (h : read bits = some (fields, rest)) :
    Bits.toNat (bits.take 4) = Op.headerTag ∧
      Bits.toNat ((bits.drop 4).take 16) =
        fields.headerBytes ∧
      Bits.toNat ((bits.drop 20).take 32) =
        fields.instructionBytes := by
  rcases BitReader.bind_eq_some h with ⟨tag, b₁, hTag, h⟩
  by_cases hHeader : tag ≠ Op.headerTag
  · rw [if_pos hHeader] at h
    cases h
  rw [if_neg hHeader] at h
  rcases BitReader.bind_eq_some h with ⟨size, b₂, hSize, h⟩
  rcases BitReader.bind_eq_some h
    with ⟨region, b₃, hRegion, h⟩
  rcases BitReader.bind_eq_some h with ⟨leds, b₄, -, h⟩
  rcases BitReader.bind_eq_some h with ⟨tick, b₅, -, h⟩
  rcases BitReader.bind_eq_some h with ⟨bright, b₆, -, h⟩
  rcases BitReader.bind_eq_some h with ⟨count, b₇, -, h⟩
  rcases BitReader.bind_eq_some h with ⟨ended, b₈, -, h⟩
  rcases BitReader.bind_eq_some h with ⟨blocks, b₉, -, h⟩
  cases h
  rcases BitReader.number_eq_some hTag with ⟨rfl, rfl⟩
  rcases BitReader.number_eq_some hSize with ⟨rfl, rfl⟩
  rcases BitReader.number_eq_some hRegion with ⟨rfl, rfl⟩
  refine ⟨not_not.mp hHeader, rfl, ?_⟩
  rw [List.drop_drop]
  rfl

end HeaderFields

end LightShow
