import LightShow.Proofs.Encodable
import LightShow.Proofs.Layout

/-
  Ramps whose LEDs other paths select hold every channel.

  The LEDs that two paths select are counted path by path. A
  record of a ramp holds all four channels if one of its LEDs
  is among them, and else those that move; a channel has a
  step exactly if it moves.

  Key definitions include:
    * `Contested`
    * `Color.moving`
    * `ChannelRamp.Follows`
    * `Record.HoldsRamp`

  Main statements:
    * `Path.mem_sharedLeds`
    * `Path.mem_sharedLeds_iff`
    * `Path.any_sharedLeds_iff`
    * `Op.holdsRamp_of_encode`
    * `Path.contested_ramps_hold_all_channels`
-/

namespace LightShow

------------------------------------------------------------
-- What Ramps Hold
------------------------------------------------------------

/-
  Some LEDs of the path with a number, one of which another
  path selects as well.
-/
def Contested
    (is : List Instruction)
    (id : Nat)
    (leds : List Nat) : Prop :=
  ∃ led ∈ leds, ∃ i ∈ is, ∃ other,
    i.path = some other ∧
      other ≠ id ∧
      led ∈ i.op.leds

/- The channels in which two colors differ. -/
def Color.moving (start stop : Color) : List Channel :=
  Channel.all.filter fun ch => start.get ch != stop.get ch

/- A channel that goes from one color to another. -/
structure ChannelRamp.Follows
    (start stop : Color)
    (c : ChannelRamp) : Prop where
  initial : c.initial = start.get c.channel
  up : c.direction = .up ↔
    start.get c.channel < stop.get c.channel
  down : c.direction = .down ↔
    stop.get c.channel < start.get c.channel
  level : c.direction = .level ↔
    start.get c.channel = stop.get c.channel
  step : c.step.isSome ↔
    start.get c.channel ≠ stop.get c.channel

/-
  A ramp record with data for some channels: its bitmap marks
  them, and reading it gives them, one after the other.
-/
structure Record.HoldsRamp
    (ledCount : Nat)
    (start stop : Color)
    (held : List Channel)
    (r : Record) : Prop where
  bitmap : ∃ f,
    r.find? "color bitmap" = some f ∧
      f.bits = Channel.all.map held.contains
  channels : ∃ ticks channels leds,
    Message.read ledCount r.bits =
        some (.ramp ticks channels leds, []) ∧
      channels.map ChannelRamp.channel = held ∧
      ∀ c ∈ channels, c.Follows start stop

------------------------------------------------------------
-- Counting Paths
------------------------------------------------------------

namespace SharedLeds

/- LEDs in lists before, once and more than once. -/
structure Counts (s : SharedLeds) (led count : Nat) : Prop where
  seen : led ∈ s.seen ↔ 1 ≤ count
  shared : led ∈ s.shared ↔ 2 ≤ count

theorem mem_foldl_insert
    {leds : List Nat}
    {set : Std.HashSet Nat}
    {led : Nat} :
    led ∈ leds.foldl Std.HashSet.insert set ↔
      led ∈ leds ∨ led ∈ set := by
  induction leds generalizing set with
  | nil => simp
  | cons first leds ih =>
      rw [List.foldl_cons, ih, Std.HashSet.mem_insert,
        List.mem_cons, beq_iff_eq]
      grind

theorem mem_foldl_shared
    {seen set : Std.HashSet Nat}
    {leds : List Nat}
    {led : Nat} :
    led ∈ leds.foldl
        (fun shared led =>
          if seen.contains led then shared.insert led
          else shared)
        set ↔
      led ∈ leds ∧ led ∈ seen ∨ led ∈ set := by
  induction leds generalizing set with
  | nil => simp
  | cons first leds ih =>
      rw [List.foldl_cons, ih, List.mem_cons]
      by_cases hSeen : seen.contains first = true
      · rw [if_pos hSeen, Std.HashSet.mem_insert, beq_iff_eq]
        rw [Std.HashSet.contains_iff_mem] at hSeen
        grind
      · rw [if_neg hSeen]
        rw [Std.HashSet.contains_iff_mem] at hSeen
        grind

/- One more list counts once, however often it has an LED. -/
theorem Counts.add
    {s : SharedLeds}
    {led count : Nat}
    (h : s.Counts led count)
    (leds : List Nat) :
    (s.add leds).Counts led
      (if led ∈ leds then count + 1 else count) := by
  have hSeen :
      led ∈ (s.add leds).seen ↔ led ∈ leds ∨ led ∈ s.seen :=
    mem_foldl_insert
  have hShared :
      led ∈ (s.add leds).shared ↔
        led ∈ leds ∧ led ∈ s.seen ∨ led ∈ s.shared :=
    mem_foldl_shared
  rw [h.seen] at hSeen hShared
  rw [h.shared] at hShared
  by_cases hLed : led ∈ leds
  · simp only [hLed, true_or, true_and, iff_true]
      at hSeen hShared
    rw [if_pos hLed]
    constructor
    · exact iff_of_true hSeen (Nat.le_add_left 1 count)
    · rw [hShared]
      omega
  · simp only [hLed, false_or, false_and] at hSeen hShared
    rw [if_neg hLed]
    exact ⟨hSeen, hShared⟩

theorem counts_foldl
    {s : SharedLeds}
    {led count : Nat}
    (h : s.Counts led count)
    (lists : List (List Nat)) :
    (lists.foldl add s).Counts led
      (count + lists.countP fun leds => led ∈ leds) := by
  induction lists generalizing s count with
  | nil => exact h
  | cons leds lists ih =>
      have hRest := ih (h.add leds)
      rw [List.foldl_cons, List.countP_cons]
      by_cases hLed : led ∈ leds
      · rw [if_pos hLed] at hRest
        simpa [hLed, Nat.add_assoc, Nat.add_comm 1]
          using hRest
      · rw [if_neg hLed] at hRest
        simpa [hLed] using hRest

theorem counts_empty
    (led : Nat) :
    Counts {} led 0 := by
  constructor
  · simp
  · simp

end SharedLeds

/- Of items with keys, another one has a property as well. -/
theorem two_le_countP_iff
    {α : Type}
    {key : α → Nat}
    (keep : α → Bool)
    {xs : List α}
    {x : α}
    (hNodup : (xs.map key).Nodup)
    (hx : x ∈ xs)
    (hKeep : keep x = true) :
    2 ≤ xs.countP keep ↔
      ∃ y ∈ xs, key y ≠ key x ∧ keep y = true := by
  rcases List.append_of_mem hx with ⟨front, back, rfl⟩
  rw [List.map_append, List.map_cons, List.nodup_middle,
    List.nodup_cons] at hNodup
  rcases hNodup with ⟨hAlone, -⟩
  have hCount :
      (front ++ x :: back).countP keep =
        (front ++ back).countP keep + 1 := by
    rw [List.countP_append, List.countP_cons_of_pos hKeep,
      List.countP_append]
    omega
  have hOthers :
      2 ≤ (front ++ x :: back).countP keep ↔
        0 < (front ++ back).countP keep := by
    omega
  rw [hOthers, List.countP_pos_iff]
  constructor
  · rintro ⟨y, hy, hOther⟩
    refine ⟨y, ?_, ?_, hOther⟩
    · rw [List.mem_append, List.mem_cons]
      rw [List.mem_append] at hy
      tauto
    · intro hSame
      rw [← List.map_append, ← hSame] at hAlone
      exact hAlone (List.mem_map_of_mem hy)
  · rintro ⟨y, hy, hNe, hOther⟩
    refine ⟨y, ?_, hOther⟩
    rw [List.mem_append, List.mem_cons] at hy
    rw [List.mem_append]
    rcases hy with hFront | rfl | hBack
    · exact .inl hFront
    · exact absurd rfl hNe
    · exact .inr hBack

namespace Path

/- The shared LEDs are those that two paths select. -/
theorem mem_sharedLeds
    {paths : List Path}
    {ledCount led : Nat} :
    led ∈ sharedLeds paths ledCount ↔
      led < ledCount ∧
        2 ≤ paths.countP fun p => led ∈ p.leds := by
  have hCounts := SharedLeds.counts_foldl
    (SharedLeds.counts_empty led) (paths.map leds)
  have hShared := hCounts.shared
  rw [Nat.zero_add, List.countP_map] at hShared
  rw [sharedLeds, Std.HashSet.mem_filter]
  simp only [Std.HashSet.get_eq, decide_eq_true_eq,
    exists_prop]
  rw [hShared, and_comm]
  rfl

/- What the steps of a scheduled path select. -/
theorem mem_leds_schedule
    {maxThreads : Nat}
    {is : List Instruction}
    {scheduled : List Path}
    (h : schedule maxThreads is = .ok scheduled)
    {p : Path}
    (hp : p ∈ scheduled)
    {led : Nat} :
    led ∈ p.leds ↔
      ∃ i ∈ is, i.path = some p.id ∧ led ∈ i.op.leds := by
  have hSteps := steps_schedule h hp
  have hLeds :
      p.steps.map (fun s => s.op.leds) =
        (own is p.id).map fun i => i.op.leds := by
    refine Success.map_eq_of_forall₂ ?_ hSteps
    intro i s hs
    rcases retarget_eq_ok (toStep_eq_ok hs).1
      with hSame | ⟨target, thread, hOld, hNew⟩
    · rw [hSame]
    · rw [hOld, hNew]
      rfl
  have hFlat :
      p.leds = (own is p.id).flatMap fun i => i.op.leds := by
    rw [leds, List.flatMap_def, hLeds, ← List.flatMap_def]
  rw [hFlat, List.mem_flatMap]
  simp only [own, List.mem_filter, beq_iff_eq, and_assoc]

/- An LED of a path is shared if another path selects it. -/
theorem mem_sharedLeds_iff
    {maxThreads : Nat}
    {is : List Instruction}
    {scheduled : List Path}
    (h : schedule maxThreads is = .ok scheduled)
    {p : Path}
    (hp : p ∈ scheduled)
    {ledCount led : Nat}
    (hLed : led ∈ p.leds)
    (hCount : led < ledCount) :
    led ∈ sharedLeds scheduled ledCount ↔
      ∃ i ∈ is, ∃ other,
        i.path = some other ∧
          other ≠ p.id ∧
          led ∈ i.op.leds := by
  have hTwo := two_le_countP_iff
    (fun q : Path => decide (led ∈ q.leds))
    (nodup_id_schedule h) hp (decide_eq_true hLed)
  rw [mem_sharedLeds, and_iff_right hCount, hTwo]
  constructor
  · rintro ⟨q, hq, hNe, hSelects⟩
    rcases (mem_leds_schedule h hq).mp
      (of_decide_eq_true hSelects) with ⟨i, hi, hPath, hOp⟩
    exact ⟨i, hi, q.id, hPath, hNe, hOp⟩
  · rintro ⟨i, hi, other, hPath, hNe, hOp⟩
    rcases exists_mem_schedule h hi hPath
      with ⟨q, hq, rfl⟩
    have hSelects : led ∈ q.leds :=
      (mem_leds_schedule h hq).mpr ⟨i, hi, hPath, hOp⟩
    exact ⟨q, hq, hNe, decide_eq_true hSelects⟩

end Path

------------------------------------------------------------
-- Records Of Ramps
------------------------------------------------------------

theorem Color.delta_eq_zero_iff
    (start stop : Color)
    (ch : Channel) :
    start.delta stop ch = 0 ↔ start.get ch = stop.get ch := by
  unfold Color.delta
  omega

/- A ramp on shared LEDs holds all channels. -/
theorem Op.rampChannels_forced
    (start stop : Color) :
    rampChannels start stop true = Channel.all :=
  List.filter_eq_self.mpr fun _ _ => rfl

/- Another ramp holds the channels that move. -/
theorem Op.rampChannels_moving
    (start stop : Color) :
    rampChannels start stop false = start.moving stop := by
  apply List.filter_congr
  intro ch _
  have hZero := Color.delta_eq_zero_iff start stop ch
  rw [Bool.false_or, Bool.eq_iff_iff, bne_iff_ne,
    bne_iff_ne, ne_eq, ne_eq, hZero]

/- A bitmap has one bit for each channel. -/
theorem Op.bits_channelBitmap
    (keep : Channel → Bool) :
    (channelBitmap (Channel.all.filter keep)).bits =
      Channel.all.map (Channel.all.filter keep).contains :=
  Channel.forall_choice
    (motive := fun keep =>
      (channelBitmap (Channel.all.filter keep)).bits =
        Channel.all.map (Channel.all.filter keep).contains)
    (by decide) keep

theorem Direction.of_eq_up_iff
    (delta : Int) :
    Direction.of delta = .up ↔ 0 < delta := by
  unfold Direction.of
  split
  · simp only [true_iff]
    omega
  split
  · simp only [reduceCtorEq, false_iff]
    omega
  · simp only [reduceCtorEq, false_iff]
    omega

theorem Direction.of_eq_down_iff
    (delta : Int) :
    Direction.of delta = .down ↔ delta < 0 := by
  unfold Direction.of
  split
  · simp only [reduceCtorEq, false_iff]
    omega
  split
  · simp only [true_iff]
    omega
  · simp only [reduceCtorEq, false_iff]
    omega

/- What a ramp does to a channel follows its colors. -/
theorem Message.follows_channelRamp
    (start stop : Color)
    (ticks : Nat)
    (ch : Channel) :
    (channelRamp start stop ticks ch).Follows start stop := by
  have hDelta :
      start.delta stop ch =
        (stop.get ch : Int) - (start.get ch : Int) := rfl
  have hZero := Color.delta_eq_zero_iff start stop ch
  constructor
  · rfl
  · have hUp :
        0 < start.delta stop ch ↔
          start.get ch < stop.get ch := by
      omega
    exact (Direction.of_eq_up_iff _).trans hUp
  · have hDown :
        start.delta stop ch < 0 ↔
          stop.get ch < start.get ch := by
      omega
    exact (Direction.of_eq_down_iff _).trans hDown
  · exact (Direction.of_eq_level_iff _).trans hZero
  · unfold channelRamp
    by_cases hSame : start.delta stop ch = 0
    · simp [hSame, hZero.mp hSame]
    · have hMoves := mt hZero.mpr hSame
      simp [hSame, hMoves]

section RampRecords

variable {device : Device}
variable {shared : Std.HashSet Nat}
variable {leds : List Nat}
variable {start stop : Color}
variable {millis : Nat}
variable {r : Record}

/- The bitmap of channels stands behind the length. -/
theorem Op.find?_colorBitmap
    (h : (Op.ramp leds start stop millis).encode device
      shared = .ok r) :
    r.find? "color bitmap" =
      some (channelBitmap
        (rampChannels start stop
          (leds.any shared.contains))) := by
  rcases Op.encode_eq_ok h with ⟨tag, body, hTag, hBody, rfl⟩
  cases hTag
  rcases Success.bind_eq_ok hBody with ⟨time, hTime, hBody⟩
  rcases Success.bind_eq_ok hBody with ⟨moves, -, hBody⟩
  rcases Success.bind_eq_ok hBody with ⟨bitmap, -, hBody⟩
  cases Success.pure_eq_ok hBody
  rcases Success.bind_eq_ok hTime with ⟨f, hf, hTime⟩
  cases Success.pure_eq_ok hTime
  rcases Field.ofValue_eq_ok hf with ⟨-, rfl⟩
  rfl

/- The LEDs of a record are on the device. -/
theorem Op.lt_of_encode_ramp
    (h : (Op.ramp leds start stop millis).encode device
      shared = .ok r) :
    ∀ led ∈ leds, led < device.ledCount := by
  rcases Op.encode_eq_ok h with ⟨tag, body, hTag, hBody, rfl⟩
  cases hTag
  rcases Success.bind_eq_ok hBody with ⟨time, -, hBody⟩
  rcases Success.bind_eq_ok hBody with ⟨moves, -, hBody⟩
  rcases Success.bind_eq_ok hBody with ⟨bitmap, hBitmap, -⟩
  unfold ledBitmap at hBitmap
  split at hBitmap
  · cases hBitmap
  · rename_i hNone
    intro led hLed
    simpa using List.find?_eq_none.mp hNone led hLed

/- A record of a ramp holds what its channels do. -/
theorem Op.holdsRamp_of_encode
    (h : (Op.ramp leds start stop millis).encode device
      shared = .ok r) :
    r.HoldsRamp device.ledCount start stop
      (rampChannels start stop
        (leds.any shared.contains)) := by
  constructor
  · exact ⟨_, Op.find?_colorBitmap h,
      Op.bits_channelBitmap _⟩
  · rcases Message.reads_encode h with ⟨m, hm, hRead⟩
    cases hm
    have hWhole := hRead []
    rw [List.append_nil] at hWhole
    refine ⟨_, _, _, hWhole, ?_, ?_⟩
    · rw [List.map_map]
      exact List.map_id _
    · intro c hc
      rcases List.mem_map.mp hc with ⟨ch, -, rfl⟩
      exact Message.follows_channelRamp start stop _ ch

end RampRecords

------------------------------------------------------------
-- Shared LEDs
------------------------------------------------------------

namespace Path

/- LEDs of a path have a shared one if they are contested. -/
theorem any_sharedLeds_iff
    {maxThreads : Nat}
    {is : List Instruction}
    {scheduled : List Path}
    (h : schedule maxThreads is = .ok scheduled)
    {p : Path}
    (hp : p ∈ scheduled)
    {leds : List Nat}
    {ledCount : Nat}
    (hOwn : ∀ led ∈ leds, led ∈ p.leds)
    (hCount : ∀ led ∈ leds, led < ledCount) :
    leds.any (sharedLeds scheduled ledCount).contains =
        true ↔
      Contested is p.id leds := by
  rw [List.any_eq_true]
  apply exists_congr
  intro led
  apply and_congr_right
  intro hLed
  rw [Std.HashSet.contains_iff_mem]
  exact mem_sharedLeds_iff h hp (hOwn led hLed)
    (hCount led hLed)

/-
  Whatever instructions and device are: once their paths are
  encoded, a ramp that shares an LED with another path holds
  all four channels, and any other ramp those that move.
-/
theorem contested_ramps_hold_all_channels
    {device : Device}
    {maxThreads : Nat}
    {is : List Instruction}
    {scheduled encoded : List Path}
    (hScheduled : schedule maxThreads is = .ok scheduled)
    (hEncoded :
      encodeAll device
          (sharedLeds scheduled device.ledCount) scheduled =
        .ok encoded) :
    ∀ p ∈ encoded, ∀ s ∈ p.steps,
      ∀ leds start stop millis,
        s.op = .ramp leds start stop millis →
          (Contested is p.id leds →
            s.record.HoldsRamp device.ledCount start stop
              Channel.all) ∧
          (¬ Contested is p.id leds →
            s.record.HoldsRamp device.ledCount start stop
              (start.moving stop)) := by
  intro p hp s hs leds start stop millis hOp
  rcases Success.exists_of_forall₂
    (Success.mapM_eq_ok hEncoded) p hp with ⟨o, ho, hPath⟩
  rcases encodeSteps_eq_ok hPath with ⟨hId, hSteps⟩
  rcases Success.exists_of_forall₂ hSteps s hs
    with ⟨t, ht, hStep⟩
  rcases encodeStep_eq_ok hStep with ⟨hRecord, hSame⟩
  have hOld : t.op = .ramp leds start stop millis := by
    rw [← hOp, hSame]
  rw [hOp] at hRecord
  have hOwn : ∀ led ∈ leds, led ∈ o.leds := by
    intro led hLed
    refine List.mem_flatMap.mpr ⟨t, ht, ?_⟩
    rw [hOld]
    exact hLed
  have hForced := any_sharedLeds_iff hScheduled ho hOwn
    (Op.lt_of_encode_ramp hRecord)
  rw [← hId] at hForced
  have hHolds := Op.holdsRamp_of_encode hRecord
  constructor
  · intro hContested
    rw [hForced.mpr hContested, Op.rampChannels_forced]
      at hHolds
    exact hHolds
  · intro hAlone
    have hNot := Bool.eq_false_iff.mpr (mt hForced.mp hAlone)
    rw [hNot, Op.rampChannels_moving] at hHolds
    exact hHolds

/- A ramp on an LED of another path, and one on its own. -/
def crossedInstructions : List Instruction :=
  [⟨.ramp [0, 1] ⟨0, 0, 5, 31⟩ ⟨9, 0, 0, 31⟩ 30, some 0,
      some 0, none⟩,
   ⟨.ramp [2] ⟨0, 0, 5, 31⟩ ⟨9, 0, 0, 31⟩ 30, some 0, some 0,
      none⟩,
   ⟨.glow [1] ⟨7, 7, 7, 7⟩, some 1, some 0, none⟩]

/- Its paths. -/
def crossedPaths : List Path :=
  [⟨0, 0, 0,
    [{ op := .ramp [0, 1] ⟨0, 0, 5, 31⟩ ⟨9, 0, 0, 31⟩ 30,
       span := none, thread := 0 },
     { op := .ramp [2] ⟨0, 0, 5, 31⟩ ⟨9, 0, 0, 31⟩ 30,
       span := none, thread := 0 }]⟩,
   ⟨1, 1, 0,
    [{ op := .glow [1] ⟨7, 7, 7, 7⟩, span := none,
       thread := 1 }]⟩]

def crossedDevice : Device :=
  { tickMillis := 10, ledCount := 3 }

theorem schedule_crossed :
    schedule 256 crossedInstructions = .ok crossedPaths := by
  have hIds : ids crossedInstructions = [0, 1] := by
    cbv
  have hOrder :
      order crossedInstructions = [(0, 0), (0, 1)] := by
    cbv
  simp only [schedule, hIds, hOrder]
  decide

theorem exists_encoded_crossed
    (shared : Std.HashSet Nat) :
    ∃ encoded,
      encodeAll crossedDevice shared crossedPaths =
        .ok encoded := by
  have hAll :
      ∀ p ∈ crossedPaths, ∀ s ∈ p.steps,
        s.op.Encodable crossedDevice := by
    simp only [crossedPaths, List.forall_mem_cons,
      List.not_mem_nil, false_implies, implies_true, and_true]
    exact ⟨⟨⟨by decide, by decide⟩, by decide, by decide⟩,
      by decide, by decide⟩
  rcases delivers_encodeAll hAll shared
    with ⟨encoded, hEncoded, -⟩
  exact ⟨encoded, hEncoded⟩

theorem contested_ramps_hold_all_channels_crossed :
    schedule 256 crossedInstructions = .ok crossedPaths ∧
      ∃ encoded p,
        encodeAll crossedDevice (sharedLeds crossedPaths 3)
            crossedPaths =
          .ok encoded ∧
        p ∈ encoded ∧
        (∃ s ∈ p.steps,
          s.op = .ramp [0, 1] ⟨0, 0, 5, 31⟩ ⟨9, 0, 0, 31⟩
              30 ∧
            s.record.HoldsRamp 3 ⟨0, 0, 5, 31⟩
              ⟨9, 0, 0, 31⟩ Channel.all) ∧
        ∃ s ∈ p.steps,
          s.op = .ramp [2] ⟨0, 0, 5, 31⟩ ⟨9, 0, 0, 31⟩ 30 ∧
            s.record.HoldsRamp 3 ⟨0, 0, 5, 31⟩
              ⟨9, 0, 0, 31⟩ [.red, .blue] := by
  refine ⟨schedule_crossed, ?_⟩
  rcases exists_encoded_crossed (sharedLeds crossedPaths 3)
    with ⟨encoded, hEncoded⟩
  rcases List.forall₂_cons_left_iff.mp
    (Success.mapM_eq_ok hEncoded)
    with ⟨p, rest, hPath, -, rfl⟩
  rcases encodeSteps_eq_ok hPath with ⟨hId, hSteps⟩
  rcases List.forall₂_cons_left_iff.mp hSteps
    with ⟨s, more, hFirst, hMore, hSplit⟩
  rcases List.forall₂_cons_left_iff.mp hMore
    with ⟨t, none, hSecond, -, rfl⟩
  have hp : p ∈ p :: rest := List.mem_cons_self ..
  have hs : s ∈ p.steps := by simp [hSplit]
  have ht : t ∈ p.steps := by simp [hSplit]
  have hFirstOp :
      s.op =
        .ramp [0, 1] ⟨0, 0, 5, 31⟩ ⟨9, 0, 0, 31⟩ 30 := by
    rw [(encodeStep_eq_ok hFirst).2]
  have hSecondOp :
      t.op = .ramp [2] ⟨0, 0, 5, 31⟩ ⟨9, 0, 0, 31⟩ 30 := by
    rw [(encodeStep_eq_ok hSecond).2]
  have hHeld :=
    contested_ramps_hold_all_channels schedule_crossed
      hEncoded p hp
  refine ⟨_, p, hEncoded, hp, ⟨s, hs, hFirstOp, ?_⟩,
    ⟨t, ht, hSecondOp, ?_⟩⟩
  · apply (hHeld s hs _ _ _ _ hFirstOp).1
    rw [hId]
    exact ⟨1, by decide, _, List.mem_of_getElem? (i := 2) rfl,
      1, rfl, by decide, by decide⟩
  · apply (hHeld t ht _ _ _ _ hSecondOp).2
    rw [hId]
    simp [Contested, crossedInstructions, Op.leds]

end Path

end LightShow
