import LightShow.Image.Decoding
import LightShow.Proofs.Reading

/-
  Records read back.

  Each record says by its own bits how far it goes. Reading
  it for a device with the same number of LEDs gives what
  its operation tells the device and leaves what follows.

  Main statements:
    * `Message.reads_encode`
    * `Message.reads_jump`
    * `Message.stream_uniquely_decodable`
-/

namespace LightShow

open BitReader (Reads)

------------------------------------------------------------
-- LED Bitmaps
------------------------------------------------------------

/- Marking LEDs keeps the marks and adds the LEDs. -/
theorem getElem?_foldl_setIfInBounds
    (leds : List Nat)
    (marks : Array Bool)
    (k : Nat) :
    (leds.foldl
        (fun marks led => marks.setIfInBounds led true)
        marks)[k]? =
      marks[k]?.map fun mark => mark || leds.contains k := by
  induction leds generalizing marks with
  | nil => simp
  | cons led leds ih =>
      rw [List.foldl_cons, ih, Array.getElem?_setIfInBounds]
      by_cases hLed : led = k
      · subst hLed
        by_cases hSize : led < marks.size
        · simp [hSize]
        · simp [hSize]
      · have hOther : k ≠ led := Ne.symm hLed
        simp [hLed, hOther]

/- The marks of a bitmap are the selected LEDs. -/
theorem ledMarks_eq_ledSet
    (leds : List Nat)
    (count : Nat) :
    ledMarks leds count = Message.ledSet leds count := by
  apply List.ext_getElem?
  intro k
  rw [ledMarks, Array.getElem?_toList,
    getElem?_foldl_setIfInBounds, Message.ledSet]
  by_cases hk : k < count <;> simp [hk]

@[simp] theorem Message.length_ledSet
    (leds : List Nat)
    (count : Nat) :
    (Message.ledSet leds count).length = count := by
  simp [Message.ledSet]

theorem ledBitmap_eq_ok
    {leds : List Nat}
    {count : Nat}
    {f : Field}
    (h : ledBitmap leds count = .ok f) :
    f.bits = Message.ledSet leds count := by
  unfold ledBitmap at h
  split at h
  · cases h
  · cases h
    exact ledMarks_eq_ledSet leds count

/- The selected LEDs are read off their bitmap. -/
theorem reads_ledBitmap
    {leds : List Nat}
    {count : Nat}
    {f : Field}
    (h : ledBitmap leds count = .ok f) :
    Reads (BitReader.bits count) (Message.ledSet leds count)
      f.bits := by
  rw [ledBitmap_eq_ok h]
  exact BitReader.reads_bits (Message.length_ledSet _ _)

------------------------------------------------------------
-- Channels
------------------------------------------------------------

theorem Color.get_lt
    (c : Color)
    (ch : Channel) :
    c.get ch < Nat.pow 2 8 := by
  cases ch <;> exact UInt8.toNat_lt _

theorem Op.reads_fixed
    {name : String}
    {width value : Nat}
    (hValue : value < Nat.pow 2 width) :
    Reads (BitReader.number width) value
      (Op.fixed name width value).bits :=
  BitReader.reads_number hValue

/- The number of a bitmap of some of the channels. -/
def Channel.code (channels : List Channel) : Nat :=
  total (channels.map fun ch => Nat.pow 2 ch.bit)

/- A choice of channels is a choice for each of the four. -/
theorem Channel.forall_choice
    {motive : (Channel → Bool) → Prop}
    (h : ∀ r g b l : Bool, motive fun
      | .red => r | .green => g | .blue => b | .bright => l)
    (keep : Channel → Bool) :
    motive keep := by
  have hKeep :
      keep = fun
        | .red => keep .red | .green => keep .green
        | .blue => keep .blue | .bright => keep .bright := by
    funext ch
    cases ch <;> rfl
  rw [hKeep]
  exact h _ _ _ _

/- A channel bitmap marks the channels it is made of. -/
theorem Channel.marked_code
    (keep : Channel → Bool) :
    Channel.marked (Channel.code (Channel.all.filter keep)) =
      Channel.all.filter keep :=
  Channel.forall_choice
    (motive := fun keep =>
      Channel.marked
          (Channel.code (Channel.all.filter keep)) =
        Channel.all.filter keep)
    (by decide) keep

theorem Channel.code_lt
    (keep : Channel → Bool) :
    Channel.code (Channel.all.filter keep) < Nat.pow 2 4 :=
  Channel.forall_choice
    (motive := fun keep =>
      Channel.code (Channel.all.filter keep) < Nat.pow 2 4)
    (by decide) keep

/- A channel bitmap is read back as its number. -/
theorem Op.reads_channelBitmap
    (keep : Channel → Bool) :
    Reads (BitReader.number 4)
      (Channel.code (Channel.all.filter keep))
      (Op.channelBitmap (Channel.all.filter keep)).bits :=
  Op.reads_fixed (Channel.code_lt keep)

------------------------------------------------------------
-- Color Records
------------------------------------------------------------

/- The values of a color are read channel by channel. -/
theorem Op.reads_colorFields
    {color : Color}
    {fields : List Field}
    (h : Op.colorFields color = .ok fields) :
    Reads
      (Channel.all.mapM fun ch =>
        BitReader.number ch.valueWidth)
      (Channel.all.map color.get)
      (fields.flatMap Field.bits) :=
  BitReader.Reads.mapM
    ((Success.mapM_eq_ok h).imp fun _ _ hField =>
      Field.reads_ofValue hField)

theorem Message.reads_glow
    {count : Nat}
    {leds : List Nat}
    {color : Color}
    {fields : List Field}
    (h : Op.encodeGlow count leds color = .ok fields) :
    Reads (Message.readGlow count)
      (.glow (Channel.all.map color.get)
        (Message.ledSet leds count))
      (fields.flatMap Field.bits) := by
  rcases Success.bind_eq_ok h with ⟨values, hValues, h⟩
  rcases Success.bind_eq_ok h with ⟨bitmap, hBitmap, h⟩
  cases Success.pure_eq_ok h
  have hMarked :
      Channel.marked (Channel.code Channel.all) =
        Channel.all := by
    decide
  have hCode := Op.reads_channelBitmap fun _ => true
  have hAction :
      Reads (BitReader.number 2) 0
        (Op.fixed "action opcode" 2 0).bits :=
    Op.reads_fixed (by decide)
  have hLeds := (reads_ledBitmap hBitmap).map
    (Message.glow (Channel.all.map color.get))
  simp only [List.flatMap_append, List.flatMap_cons,
    List.flatMap_nil, List.append_nil, List.append_assoc]
  refine hCode.bind (hAction.bind ?_)
  exact (hMarked ▸ Op.reads_colorFields hValues).bind hLeds

------------------------------------------------------------
-- Ramp Records
------------------------------------------------------------

theorem Direction.code_lt
    (d : Direction) :
    d.code < Nat.pow 2 2 := by
  cases d <;> decide

theorem Direction.ofCode?_code
    (d : Direction) :
    Direction.ofCode? d.code = some d := by
  cases d <;> rfl

theorem Direction.of_eq_level_iff
    (delta : Int) :
    Direction.of delta = .level ↔ delta = 0 := by
  unfold Direction.of
  split
  · simp only [reduceCtorEq, false_iff]
    omega
  split
  · simp only [reduceCtorEq, false_iff]
    omega
  · simp only [true_iff]
    omega

/- A channel that moves has a step behind its direction. -/
theorem ChannelRamp.reads_step
    {name size : String}
    {direction : Direction}
    {step : RampStep}
    {pace : List Field}
    {color : Field}
    (hDirection : direction ≠ .level)
    (hPace : WidthCode.sized2 name step.ticks = .ok pace)
    (hColor : Field.ofValue size 8 step.color = .ok color) :
    Reads (ChannelRamp.readStep direction) (some step)
      (pace.flatMap Field.bits ++ color.bits) := by
  have hBoth :
      Reads
        (BitReader.sized2 >>= fun ticks =>
          BitReader.number 8 >>= fun color =>
            pure (some (RampStep.mk ticks color)))
        (some step)
        (pace.flatMap Field.bits ++ color.bits) :=
    (BitReader.reads_sized2 hPace).bind
      ((Field.reads_ofValue hColor).map fun color =>
        some (RampStep.mk step.ticks color))
  cases direction with
  | level => exact absurd rfl hDirection
  | up => exact hBoth
  | down => exact hBoth

/- What a ramp does to a channel is read back. -/
theorem ChannelRamp.reads_rampChannel
    {start stop : Color}
    {ticks : Nat}
    {ch : Channel}
    {fields : List Field}
    (h : Op.rampChannel start stop ticks ch = .ok fields) :
    Reads (ChannelRamp.read ch)
      (Message.channelRamp start stop ticks ch)
      (fields.flatMap Field.bits) := by
  let direction := Direction.of (start.delta stop ch)
  let initialField :=
    Op.fixed s!"{ch.text} init value" 8 (start.get ch)
  let directionField :=
    Op.fixed s!"{ch.text} inc/dec opcode" 2 direction.code
  -- Both shapes of the record start with these two fields.
  have hHead :
      ∀ {step : Option RampStep} {rest : Bits},
        Reads (ChannelRamp.readStep direction) step rest →
        Reads (ChannelRamp.read ch)
          ⟨ch, start.get ch, direction, step⟩
          (initialField.bits ++
            (directionField.bits ++ rest)) := by
    intro step rest hStep
    have hInitial :
        Reads (BitReader.number 8) (start.get ch)
          initialField.bits :=
      Op.reads_fixed (Color.get_lt start ch)
    have hCode :
        Reads (BitReader.number 2) direction.code
          directionField.bits :=
      Op.reads_fixed (Direction.code_lt direction)
    have hKnown := BitReader.reads_known
      (Direction.ofCode?_code direction)
    refine hInitial.bind (hCode.bind ?_)
    exact hKnown.bind (hStep.map _)
  unfold Op.rampChannel at h
  by_cases hDelta : start.delta stop ch = 0
  · rw [if_pos hDelta] at h
    cases Success.pure_eq_ok h
    have hLevel : direction = .level :=
      (Direction.of_eq_level_iff _).mpr hDelta
    have hNone :
        Reads (ChannelRamp.readStep direction) none [] := by
      rw [hLevel]
      exact BitReader.reads_pure none
    rw [Message.channelRamp, if_pos hDelta]
    exact hHead hNone
  · rw [if_neg hDelta] at h
    rcases Success.bind_eq_ok h with ⟨pace, hPace, h⟩
    rcases Success.bind_eq_ok h with ⟨size, hSize, h⟩
    cases Success.pure_eq_ok h
    have hMoves : direction ≠ .level := fun hLevel =>
      hDelta ((Direction.of_eq_level_iff _).mp hLevel)
    have hStep := ChannelRamp.reads_step hMoves hPace hSize
    rw [Message.channelRamp, if_neg hDelta]
    simp only [List.flatMap_append, List.flatMap_cons,
      List.flatMap_nil, List.append_nil, List.append_assoc]
    exact hHead hStep

theorem Message.reads_ramp
    {count ticks : Nat}
    {leds : List Nat}
    {start stop : Color}
    {forced : Bool}
    {fields : List Field}
    (h : Op.encodeRamp count leds start stop ticks forced =
      .ok fields) :
    Reads (Message.readRamp count)
      (.ramp ticks
        ((Op.rampChannels start stop forced).map
          (Message.channelRamp start stop ticks))
        (Message.ledSet leds count))
      (fields.flatMap Field.bits) := by
  rcases Success.bind_eq_ok h with ⟨time, hTime, h⟩
  rcases Success.bind_eq_ok h with ⟨moves, hMoves, h⟩
  rcases Success.bind_eq_ok h with ⟨bitmap, hBitmap, h⟩
  cases Success.pure_eq_ok h
  have hMarked :
      Channel.marked
          (Channel.code (Op.rampChannels start stop forced)) =
        Op.rampChannels start stop forced :=
    Channel.marked_code _
  have hCode :
      Reads (BitReader.number 4)
        (Channel.code (Op.rampChannels start stop forced))
        (Op.channelBitmap
          (Op.rampChannels start stop forced)).bits :=
    Op.reads_channelBitmap _
  have hChannels := BitReader.Reads.mapM
    ((Success.mapM_eq_ok hMoves).imp fun _ _ hField =>
      ChannelRamp.reads_rampChannel hField)
  have hLeds := (reads_ledBitmap hBitmap).map
    (Message.ramp ticks
      ((Op.rampChannels start stop forced).map
        (Message.channelRamp start stop ticks)))
  simp only [List.flatMap_append, List.flatMap_cons,
    List.flatMap_nil, List.append_nil, List.append_assoc,
    List.flatten_eq_flatMap, List.flatMap_assoc, id]
  apply (BitReader.reads_sized2 hTime).bind
  apply hCode.bind
  rw [hMarked]
  apply hChannels.bind
  exact hLeds

------------------------------------------------------------
-- Records
------------------------------------------------------------

namespace Message

theorem reads_control
    (memory : Memory)
    (command : Control) :
    Reads readControl (.control memory command)
      ((Op.controlFields memory command).flatMap
        Field.bits) := by
  cases memory <;> cases command <;> exact fun _ => rfl

theorem reads_pause
    {tick millis : Nat}
    {fields : List Field}
    (h : Op.encodePause tick millis = .ok fields) :
    Reads BitReader.sized2 (millis / tick)
      (fields.flatMap Field.bits) := by
  unfold Op.encodePause at h
  split at h
  · cases h
  · exact BitReader.reads_sized2 h

end Message

/- A record is the tag of its operation and a body. -/
theorem Op.encode_eq_ok
    {device : Device}
    {shared : Std.HashSet Nat}
    {op : Op}
    {r : Record}
    (h : op.encode device shared = .ok r) :
    ∃ tag body,
      op.tag? = some tag ∧
        op.encodeBody device shared = .ok body ∧
        r = ⟨Op.tagField tag :: body⟩ := by
  unfold Op.encode at h
  cases hTag : op.tag? with
  | none =>
      rw [hTag] at h
      cases h
  | some tag =>
      rw [hTag] at h
      rcases Success.bind_eq_ok h with ⟨body, hBody, h⟩
      exact ⟨tag, body, rfl, hBody,
        (Success.pure_eq_ok h).symm⟩

/- The fields of a jump to a bit address. -/
def Op.jumpFields (target : Nat) : List Field :=
  [Op.tagField 2, Op.fixed Op.targetName 32 target]

/- The bits of a jump to a bit address. -/
def Op.jumpBits (target : Nat) : Bits :=
  (Op.jumpFields target).flatMap Field.bits

/- A value for a name goes into the first field of it. -/
theorem Record.setNamed_append
    {name : String}
    {front : List Field}
    {f : Field}
    (hName : f.name = name)
    (hFront : ∀ g ∈ front, g.name ≠ name)
    (back : List Field)
    (value : Nat) :
    (Record.mk (front ++ f :: back)).setNamed name value =
      some (do
        let g ← f.set value
        return ⟨front ++ g :: back⟩) := by
  have hIndex :
      (front ++ f :: back).findIdx?
          (fun g => g.name == name) =
        some front.length := by
    have hNone :
        front.findIdx? (fun g => g.name == name) = none := by
      simpa using hFront
    simp [List.findIdx?_append, hNone, List.findIdx?_cons,
      hName]
  have hField :
      (front ++ f :: back)[front.length]? = some f := by
    simp
  have hSet :
      ∀ g, (front ++ f :: back).set front.length g =
        front ++ g :: back := by
    intro g
    simp
  simp only [Record.setNamed, hIndex, Option.bind_some,
    Record.setAt, hField, Option.map_some, hSet]

/- A new target replaces that of a jump, if it fits. -/
theorem Op.setNamed_jump
    (old target : Nat)
    (extra : List Field) :
    (Record.mk (Op.jumpFields old ++ extra)).setNamed
        Op.targetName target =
      some (if target < Nat.pow 2 32 then
        .ok ⟨Op.jumpFields target ++ extra⟩
      else
        .error
          (.fieldOverflow Op.targetName 32 target)) := by
  have hFront :
      ∀ g ∈ [Op.tagField 2], g.name ≠ Op.targetName := by
    decide
  have hSet :=
    Record.setNamed_append
      (f := Op.fixed Op.targetName 32 old) rfl hFront extra
      target
  have hWidth :
      (Op.fixed Op.targetName 32 old).width = 32 :=
    Bits.length_ofNat 32 old
  rw [Field.set, hWidth] at hSet
  refine hSet.trans (congrArg some ?_)
  split
  · rfl
  · rfl

namespace Message

theorem reads_jump
    {target : Nat}
    (hTarget : target < Nat.pow 2 32)
    (ledCount : Nat) :
    Reads (read ledCount) (.goto target)
      (Op.jumpBits target) := by
  have hTag :
      Reads (BitReader.number Op.tagWidth) 2
        (Op.tagField 2).bits :=
    Op.reads_fixed (by decide)
  apply hTag.bind
  exact (BitReader.reads_number hTarget).map Message.goto

/-
  Every record that is written is read back as what its
  operation tells the device. A jump still leads to bit zero.
-/
theorem reads_encode
    {device : Device}
    {shared : Std.HashSet Nat}
    {op : Op}
    {r : Record}
    (h : op.encode device shared = .ok r) :
    ∃ m, ofOp? device shared.contains 0 op = some m ∧
      Reads (read device.ledCount) m r.bits := by
  rcases Op.encode_eq_ok h
    with ⟨tag, body, hTag, hBody, rfl⟩
  have hRead :
      tag < Nat.pow 2 Op.tagWidth →
        Reads (BitReader.number Op.tagWidth) tag
          (Op.tagField tag).bits :=
    Op.reads_fixed
  cases op with
  | control memory command =>
      cases hTag
      cases hBody
      refine ⟨_, rfl, (hRead (by decide)).bind ?_⟩
      exact reads_control memory command
  | here label scope =>
      cases hTag
      cases hBody
      refine ⟨_, rfl, (hRead (by decide)).bind ?_⟩
      exact BitReader.reads_pure Message.here
  | goto label scope =>
      cases hTag
      cases hBody
      refine ⟨_, rfl, ?_⟩
      exact reads_jump (by decide) device.ledCount
  | pause millis =>
      cases hTag
      refine ⟨_, rfl, (hRead (by decide)).bind ?_⟩
      exact (reads_pause hBody).map Message.pause
  | glow leds color =>
      cases hTag
      refine ⟨_, rfl, (hRead (by decide)).bind ?_⟩
      exact reads_glow hBody
  | ramp leds start stop millis =>
      cases hTag
      refine ⟨_, rfl, (hRead (by decide)).bind ?_⟩
      exact reads_ramp hBody
  | activate target =>
      cases hTag
      rcases Success.bind_eq_ok hBody
        with ⟨index, hIndex, hBody⟩
      cases Success.pure_eq_ok hBody
      refine ⟨_, rfl, (hRead (by decide)).bind ?_⟩
      have hValue :=
        (Field.reads_ofValue hIndex).map Message.activate
      simpa using hValue
  | finish =>
      cases hTag
      cases hBody
      refine ⟨_, rfl, (hRead (by decide)).bind ?_⟩
      exact BitReader.reads_pure Message.finish
  | call function => cases hTag

------------------------------------------------------------
-- Streams
------------------------------------------------------------

/- Records in a row are read back one after the other. -/
theorem reads_readMany
    {ledCount : Nat}
    {messages : List Message}
    {records : List Record}
    (h : List.Forall₂
      (fun m r => Reads (read ledCount) m (Record.bits r))
      messages records) :
    Reads (readMany ledCount records.length) messages
      (records.flatMap Record.bits) := by
  induction h with
  | nil => exact BitReader.reads_pure []
  | cons hHead _ ih =>
      rw [List.flatMap_cons]
      exact hHead.bind (ih.map _)

/- The messages of some operations, with their records. -/
theorem messages_of_encode
    {device : Device}
    {shared : Std.HashSet Nat}
    {ops : List Op}
    {records : List Record}
    (h : List.Forall₂
      (fun op r => op.encode device shared = .ok r)
      ops records) :
    ∃ messages,
      ops.mapM (ofOp? device shared.contains 0) =
          some messages ∧
        List.Forall₂
          (fun m r =>
            Reads (read device.ledCount) m (Record.bits r))
          messages records := by
  induction h with
  | nil => exact ⟨[], rfl, .nil⟩
  | cons hHead _ ih =>
      rcases reads_encode hHead with ⟨m, hMessage, hRead⟩
      rcases ih with ⟨messages, hMessages, hReads⟩
      refine ⟨m :: messages, ?_, .cons hRead hReads⟩
      rw [List.mapM_cons, hMessage, hMessages]
      rfl

end Message

theorem Record.length_bits
    (r : Record) :
    r.bits.length = r.width := by
  rcases r with ⟨fields⟩
  induction fields with
  | nil => rfl
  | cons f fields ih =>
      simp only [Record.bits, Record.width] at ih ⊢
      rw [List.flatMap_cons, List.length_append, ih]
      rfl

namespace Message

/-
  The stream of records is read back for a device with the
  same number of LEDs, whatever its tick and whichever LEDs
  are shared: record by record, each taking exactly its own
  width, and with any target in a jump. Hence no record of a
  device is the beginning of another one.
-/
theorem stream_uniquely_decodable :
    (∀ (device : Device)
        (shared : Std.HashSet Nat)
        (ops : List Op)
        (records : List Record),
      ops.mapM (Op.encode device shared) = .ok records →
      ∃ messages,
        ops.mapM (ofOp? device shared.contains 0) =
          some messages ∧
        (∀ rest,
          readMany device.ledCount ops.length
              (records.flatMap Record.bits ++ rest) =
            some (messages, rest)) ∧
        ∀ (i : Nat) (m : Message) (r : Record),
          messages[i]? = some m → records[i]? = some r →
          r.bits.length = r.width ∧
          ∀ rest,
            read device.ledCount (r.bits ++ rest) =
              some (m, rest)) ∧
    (∀ (device : Device)
        (shared : Std.HashSet Nat)
        (label : String)
        (scope target : Nat)
        (r linked : Record),
      (Op.goto label scope).encode device shared = .ok r →
      r.setNamed Op.targetName target = some (.ok linked) →
      ∀ rest,
        read device.ledCount (linked.bits ++ rest) =
          some (.goto target, rest)) ∧
    ∀ (first second : Device)
        (firstShared secondShared : Std.HashSet Nat)
        (op other : Op)
        (r s : Record),
      first.ledCount = second.ledCount →
      op.encode first firstShared = .ok r →
      other.encode second secondShared = .ok s →
      r.bits <+: s.bits →
      r.bits = s.bits := by
  refine ⟨?_, ?_, ?_⟩
  · intro device shared ops records hEncode
    have hEach := Success.mapM_eq_ok hEncode
    have hCount := hEach.length_eq
    rcases messages_of_encode hEach
      with ⟨messages, hMessages, hReads⟩
    refine ⟨messages, hMessages, ?_, ?_⟩
    · rw [hCount]
      exact reads_readMany hReads
    · intro i m r hm hr
      rcases List.getElem?_eq_some_iff.mp hm with ⟨hi, rfl⟩
      rcases List.getElem?_eq_some_iff.mp hr with ⟨hj, rfl⟩
      exact ⟨Record.length_bits _, hReads.get hi hj⟩
  · intro device shared label scope target r linked hr hLinked
    rcases Op.encode_eq_ok hr
      with ⟨tag, body, hTag, hBody, rfl⟩
    cases hTag
    cases hBody
    have hSet := Op.setNamed_jump 0 target []
    rw [List.append_nil, List.append_nil] at hSet
    have hBoth := hSet.symm.trans hLinked
    split at hBoth
    · rename_i hTarget
      cases hBoth
      exact reads_jump hTarget device.ledCount
    · cases hBoth
  · intro first second firstShared secondShared op other r s
      hLeds hr hs hPrefix
    rcases reads_encode hr with ⟨m, -, hm⟩
    rcases reads_encode hs with ⟨n, -, hn⟩
    rcases hPrefix with ⟨rest, hRest⟩
    -- Reading the longer record off leaves what the shorter
    -- one leaves, and that is nothing.
    have hLong := hn []
    rw [List.append_nil, ← hRest, ← hLeds, hm rest] at hLong
    have hEmpty : rest = [] := by
      simpa using congrArg (Option.map Prod.snd) hLong
    rw [← hRest, hEmpty, List.append_nil]

/- A loop on a device with a shared LED is read back. -/
theorem stream_uniquely_decodable_loop :
    (∃ records messages,
      [Op.here "loop" 4, .glow [0, 2] ⟨9, 8, 7, 31⟩,
        .ramp [1] ⟨0, 200, 5, 31⟩ ⟨250, 0, 5, 31⟩ 3000,
        .pause 5000, .goto "loop" 4].mapM
          (Op.encode { ledCount := 3, tickMillis := 10 }
            ((∅ : Std.HashSet Nat).insert 1)) =
        .ok records ∧
      readMany 3 5 (records.flatMap Record.bits ++ [true]) =
        some (messages, [true])) ∧
    read 3 (Op.jumpBits 77 ++ [true]) =
      some (.goto 77, [true]) ∧
    ∃ r s,
      (Op.here "loop" 4).encode { ledCount := 3 } ∅ = .ok r ∧
      (Op.here "end" 5).encode
        { ledCount := 3, tickMillis := 10 } ∅ = .ok s ∧
      r.bits = s.bits := by
  refine ⟨?_, ?_, ?_⟩
  · have hShared :
        ((∅ : Std.HashSet Nat).insert 1).contains 1 =
          true := by
      simp
    have hRamp :
        ∃ r, (Op.ramp [1] ⟨0, 200, 5, 31⟩ ⟨250, 0, 5, 31⟩
          3000).encode { ledCount := 3, tickMillis := 10 }
            ((∅ : Std.HashSet Nat).insert 1) = .ok r := by
      simp only [Op.encode, Op.tag?, Op.encodeBody,
        List.any_cons, hShared, Bool.true_or]
      exact ⟨_, rfl⟩
    rcases hRamp with ⟨ramp, hRamp⟩
    have hEncode :
        ∃ records,
          [Op.here "loop" 4, .glow [0, 2] ⟨9, 8, 7, 31⟩,
            .ramp [1] ⟨0, 200, 5, 31⟩ ⟨250, 0, 5, 31⟩ 3000,
            .pause 5000, .goto "loop" 4].mapM
              (Op.encode { ledCount := 3, tickMillis := 10 }
                ((∅ : Std.HashSet Nat).insert 1)) =
            .ok records := by
      simp only [List.mapM_cons, hRamp]
      exact ⟨_, rfl⟩
    rcases hEncode with ⟨records, hEncode⟩
    rcases stream_uniquely_decodable.1 _ _ _ _ hEncode
      with ⟨messages, -, hRead, -⟩
    exact ⟨records, messages, hEncode, hRead [true]⟩
  · exact stream_uniquely_decodable.2.1 { ledCount := 3 } ∅
      "loop" 4 77 _ ⟨Op.jumpFields 77⟩ rfl rfl [true]
  · exact ⟨_, _, rfl, rfl,
      stream_uniquely_decodable.2.2 { ledCount := 3 }
        { ledCount := 3, tickMillis := 10 } ∅ ∅
        (.here "loop" 4) (.here "end" 5) _ _ rfl rfl rfl
        (List.prefix_refl _)⟩

end Message

end LightShow
