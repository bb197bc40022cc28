import LightShow.Image.Layout
import LightShow.Image.SharedLeds
import LightShow.Proofs.Message

/-
  Where records lie and where jumps lead.

  A path is laid out from a bit on: it is filled to whole
  bytes, every step lies behind the widths before it, and
  every jump holds the address of the first label of its
  name and scope in the same path.

  Key definitions include:
    * `Path.labelBit?`
    * `Path.linkedBits`
    * `Path.LaidOut`
    * `Path.LaidOutFrom`

  Main statements:
    * `Path.resolve_eq`
    * `Path.LaidOut.width_eq`
    * `Path.LaidOut.address`
    * `Path.LaidOut.bits_eq`
    * `Path.encodeSteps_jumpsOpen`
    * `Path.laidOutFrom_of_finalize`
-/

namespace LightShow

------------------------------------------------------------
-- Padding
------------------------------------------------------------

namespace Path

theorem missingBits_lt
    (width : Nat) :
    missingBits width < 8 := by
  unfold missingBits
  omega

theorem add_missingBits_mod
    (width : Nat) :
    (width + missingBits width) % 8 = 0 := by
  unfold missingBits
  omega

theorem bits_padding
    (width : Nat) :
    (padding width).flatMap Field.bits =
      Bits.zeros (missingBits width) := by
  unfold padding
  split
  · rename_i hWhole
    rw [hWhole]
    rfl
  · simp [Field.zeros]

end Path

theorem Record.bits_push
    (r : Record)
    (fields : List Field) :
    (r.push fields).bits =
      r.bits ++ fields.flatMap Field.bits :=
  List.flatMap_append

theorem Record.width_push_padding
    (r : Record)
    (width : Nat) :
    (r.push (Path.padding width)).width =
      r.width + Path.missingBits width := by
  rw [← Record.length_bits, ← Record.length_bits,
    Record.bits_push, Path.bits_padding, List.length_append,
    Bits.length_zeros]

namespace Path

/- The last step with fields at its end. -/
def extended (fields : List Field) (s : Step) : Step :=
  { s with record := s.record.push fields }

theorem extendLast_concat
    (fields : List Field)
    (steps : List Step)
    (last : Step) :
    extendLast fields (steps ++ [last]) =
      steps ++ [extended fields last] := by
  unfold extendLast
  rw [List.getLast?_concat, List.dropLast_concat]
  rfl

/- Filling up a path changes nothing but its last record. -/
theorem pad_steps
    (p : Path) :
    p.steps = [] ∧ p.pad.steps = [] ∨
      ∃ steps last,
        p.steps = steps ++ [last] ∧
          p.pad.steps =
            steps ++ [extended (padding p.width) last] := by
  rcases List.eq_nil_or_concat p.steps with hNil | hLast
  · exact .inl ⟨hNil, by simp [pad, hNil, extendLast]⟩
  · rcases hLast with ⟨steps, last, hSteps⟩
    rw [List.concat_eq_append] at hSteps
    refine .inr ⟨steps, last, hSteps, ?_⟩
    unfold pad
    rw [hSteps]
    exact extendLast_concat _ steps last

theorem pad_width
    (p : Path) :
    p.pad.width = p.width + missingBits p.width := by
  rcases pad_steps p with ⟨hNil, hPad⟩ | hLast
  · simp [width, hNil, hPad, missingBits]
  · rcases hLast with ⟨steps, last, hSteps, hPad⟩
    have hWidth :
        p.width =
          total (steps.map Step.width) + last.width := by
      simp [width, hSteps]
    have hExtended :
        (extended (padding p.width) last).width =
          last.width + missingBits p.width :=
      Record.width_push_padding last.record p.width
    have hPadded :
        p.pad.width =
          total (steps.map Step.width) +
            (extended (padding p.width) last).width := by
      simp [width, hPad]
    rw [hPadded, hExtended]
    omega

------------------------------------------------------------
-- Running Sums
------------------------------------------------------------

/- Give each item the sum of the widths before it. -/
def placeFrom
    {α β : Type}
    (place : α → Nat → β)
    (width : α → Nat) :
    Nat → List α → List β
  | _, [] => []
  | start, x :: xs =>
      place x start ::
        placeFrom place width (start + width x) xs

/- Sums so far only add to the sums to come. -/
theorem offsets_foldl
    (widths seen : List Nat)
    (start : Nat) :
    (widths.foldl
      (fun (acc : List Nat × Nat) w =>
        (acc.2 :: acc.1, acc.2 + w))
      (seen, start)).1.reverse =
      seen.reverse ++
        placeFrom (fun _ n => n) (fun w => w) start
          widths := by
  induction widths generalizing seen start with
  | nil => simp [placeFrom]
  | cons w widths ih =>
      rw [List.foldl_cons, ih]
      simp [placeFrom]

/- Offsets of widths are running sums. -/
theorem zipWith_offsets
    {α β : Type}
    (place : α → Nat → β)
    (width : α → Nat)
    (xs : List α) :
    List.zipWith place xs (offsets (xs.map width)) =
      placeFrom place width 0 xs := by
  have hFrom :
      ∀ start,
        List.zipWith place xs
            (placeFrom (fun _ n => n) (fun w => w) start
              (xs.map width)) =
          placeFrom place width start xs := by
    induction xs with
    | nil => intro start; rfl
    | cons x xs ih =>
        intro start
        simp [placeFrom, ih]
  have hOffsets := offsets_foldl (xs.map width) [] 0
  rw [offsets, hOffsets]
  exact hFrom 0

theorem stamp_steps
    (p : Path)
    (start : Nat) :
    (p.stamp start).steps =
      placeFrom (stampStep start) Step.width 0 p.steps :=
  zipWith_offsets (stampStep start) Step.width p.steps

theorem stampAll_eq_placeFrom
    (paths : List Path) :
    stampAll paths = placeFrom stamp width 0 paths :=
  zipWith_offsets stamp width paths

/- What is done to placed items can be done in placing. -/
theorem map_placeFrom_eq
    {α β γ : Type}
    (place : α → Nat → β)
    (width : α → Nat)
    (g : β → γ)
    (start : Nat)
    (xs : List α) :
    (placeFrom place width start xs).map g =
      placeFrom (fun x n => g (place x n)) width start
        xs := by
  induction xs generalizing start with
  | nil => rfl
  | cons x xs ih => simp [placeFrom, ih]

/- Placing does not touch what it does not write. -/
theorem map_placeFrom
    {α β γ : Type}
    {place : α → Nat → β}
    {width : α → Nat}
    {f : α → γ}
    {g : β → γ}
    (hKeep : ∀ x n, g (place x n) = f x)
    (start : Nat)
    (xs : List α) :
    (placeFrom place width start xs).map g = xs.map f := by
  induction xs generalizing start with
  | nil => rfl
  | cons x xs ih => simp [placeFrom, hKeep, ih]

@[simp] theorem length_placeFrom
    {α β : Type}
    (place : α → Nat → β)
    (width : α → Nat)
    (start : Nat)
    (xs : List α) :
    (placeFrom place width start xs).length = xs.length := by
  induction xs generalizing start with
  | nil => rfl
  | cons x xs ih => simp [placeFrom, ih]

/- An item that is placed lies behind the widths before. -/
theorem placeFrom_eq_append
    {α β : Type}
    {place : α → Nat → β}
    {width : α → Nat}
    {start : Nat}
    {xs : List α}
    {before after : List β}
    {y : β}
    (h : placeFrom place width start xs =
      before ++ y :: after) :
    ∃ front x back,
      xs = front ++ x :: back ∧
        front.length = before.length ∧
        y = place x (start + total (front.map width)) := by
  induction before generalizing start xs with
  | nil =>
      cases xs with
      | nil => simp [placeFrom] at h
      | cons x xs =>
          simp only [placeFrom, List.nil_append,
            List.cons.injEq] at h
          exact ⟨[], x, xs, rfl, rfl, h.1.symm⟩
  | cons b before ih =>
      cases xs with
      | nil => simp [placeFrom] at h
      | cons x xs =>
          simp only [placeFrom, List.cons_append,
            List.cons.injEq] at h
          rcases ih h.2
            with ⟨front, z, back, hxs, hLength, hy⟩
          refine ⟨x :: front, z, back, ?_, ?_, ?_⟩
          · rw [hxs]
            rfl
          · simp [hLength]
          · rw [hy, List.map_cons, total_cons,
              Nat.add_assoc]

/- Filling up a path changes only records. -/
theorem map_pad
    {γ : Type}
    {f : Step → γ}
    (hKeep : ∀ s record, f { s with record := record } = f s)
    (p : Path) :
    p.pad.steps.map f = p.steps.map f := by
  rcases pad_steps p with ⟨hNil, hPad⟩ | hLast
  · rw [hNil, hPad]
  · rcases hLast with ⟨steps, last, hSteps, hPad⟩
    rw [hSteps, hPad, List.map_append, List.map_append]
    exact congrArg (steps.map f ++ [·]) (hKeep last _)

/- Placing the steps of a path changes only addresses. -/
theorem map_stamp
    {γ : Type}
    {f : Step → γ}
    (hKeep : ∀ s bit pathBit,
      f { s with bit := bit, pathBit := pathBit } = f s)
    (p : Path)
    (start : Nat) :
    (p.stamp start).steps.map f = p.steps.map f := by
  rw [stamp_steps]
  exact map_placeFrom (fun s n => hKeep s _ _) 0 p.steps

------------------------------------------------------------
-- Labels
------------------------------------------------------------

/- Whether a step is a label of a name and scope. -/
def isLabel
    (label : String)
    (scope : Nat)
    (s : Step) : Bool :=
  s.op == .here label scope

theorem getElem?_foldl_noteLabel
    (steps : List Step)
    (labels : Labels)
    (label : String)
    (scope : Nat) :
    (steps.foldl noteLabel labels)[(label, scope)]? =
      labels[(label, scope)]?.or
        ((steps.find? (isLabel label scope)).map
          Step.pathBit) := by
  induction steps generalizing labels with
  | nil => simp
  | cons s steps ih =>
      rw [List.foldl_cons, ih]
      by_cases hLabel : s.op = .here label scope
      · have hNote :
            noteLabel labels s =
              labels.insertIfNew (label, scope)
                s.pathBit := by
          simp [noteLabel, hLabel]
        have hFind : isLabel label scope s = true := by
          simp [isLabel, hLabel]
        rw [hNote, Std.HashMap.getElem?_insertIfNew,
          List.find?_cons_of_pos hFind]
        by_cases hMem : (label, scope) ∈ labels
        · simp [hMem]
        · simp [hMem]
      · have hFind : isLabel label scope s = false := by
          simp [isLabel, hLabel]
        have hNote :
            (noteLabel labels s)[(label, scope)]? =
              labels[(label, scope)]? := by
          unfold noteLabel
          split
          · rename_i other otherScope hOp
            have hOther :
                (other, otherScope) ≠ (label, scope) := by
              rintro ⟨rfl, rfl⟩
              exact hLabel hOp
            simp [Std.HashMap.getElem?_insertIfNew, hOther]
          · rfl
        rw [hNote, List.find?_cons_of_neg (by simp [hFind])]
/-
  The address of the first label of a name and scope: the
  sum of the widths before it.
-/
def labelBit?
    (p : Path)
    (label : String)
    (scope : Nat) : Option Nat :=
  (p.steps.findIdx? (isLabel label scope)).map fun i =>
    total ((p.steps.take i).map Step.width)

/- Where the first of some placed steps of a label lies. -/
theorem find?_placeFrom
    (start offset : Nat)
    (label : String)
    (scope : Nat)
    (steps : List Step) :
    ((placeFrom (stampStep start) Step.width offset
        steps).find? (isLabel label scope)).map
          Step.pathBit =
      (steps.findIdx? (isLabel label scope)).map fun i =>
        offset + total ((steps.take i).map Step.width) := by
  induction steps generalizing offset with
  | nil => rfl
  | cons s steps ih =>
      have hStamp :
          isLabel label scope (stampStep start s offset) =
            isLabel label scope s := rfl
      rw [placeFrom, List.find?_cons, hStamp,
        List.findIdx?_cons]
      cases hLabel : isLabel label scope s with
      | true => simp [stampStep]
      | false =>
          simp [ih, Function.comp_def, Nat.add_assoc]

/- Where the first step of a label says that it lies. -/
def notedBit?
    (p : Path)
    (label : String)
    (scope : Nat) : Option Nat :=
  (p.steps.find? (isLabel label scope)).map Step.pathBit

/- Jumps lead to the first steps of their labels. -/
theorem resolve_eq :
    resolve = fun p => do
      let steps ← p.steps.mapM (resolveStep p.notedBit?)
      return { p with steps := steps } := by
  funext p
  have hLabels :
      (fun label scope => p.labels[(label, scope)]?) =
        p.notedBit? := by
    funext label scope
    rw [labels, getElem?_foldl_noteLabel]
    simp [notedBit?]
  rw [resolve, hLabels]

/- What a step of a placed path says is its place. -/
theorem notedBit?_stamp
    (p : Path)
    (start : Nat) :
    (p.stamp start).notedBit? = p.labelBit? := by
  funext label scope
  rw [notedBit?, stamp_steps, find?_placeFrom]
  simp [labelBit?]

/- Filling up a path moves no label. -/
theorem labelBit?_pad
    (p : Path) :
    p.pad.labelBit? = p.labelBit? := by
  funext label scope
  rcases pad_steps p with ⟨hNil, hPad⟩ | hLast
  · simp [labelBit?, hNil, hPad]
  · rcases hLast with ⟨steps, last, hSteps, hPad⟩
    have hFind :
        (steps ++ [extended (padding p.width) last]).findIdx?
            (isLabel label scope) =
          (steps ++ [last]).findIdx?
            (isLabel label scope) := by
      simp [List.findIdx?_append, List.findIdx?_cons,
        isLabel, extended]
    simp only [labelBit?, hSteps, hPad, hFind]
    cases hIndex :
        (steps ++ [last]).findIdx? (isLabel label scope) with
    | none => rfl
    | some i =>
        have hLt := (List.findIdx?_eq_some_iff_getElem.mp
          hIndex).1
        rw [List.length_append] at hLt
        -- The label is at most the last step itself.
        have hLe : i ≤ steps.length := Nat.lt_succ_iff.mp hLt
        rw [Option.map_some, Option.map_some,
          List.take_append_of_le_length hLe,
          List.take_append_of_le_length hLe]

------------------------------------------------------------
-- Jumps
------------------------------------------------------------

/- What it means for the jump of a step to be filled in. -/
theorem resolveStep_eq_ok
    {target? : String → Nat → Option Nat}
    {s t : Step}
    (h : resolveStep target? s = .ok t) :
    (∀ label scope, s.op ≠ .goto label scope) ∧ t = s ∨
      ∃ label scope target record,
        s.op = .goto label scope ∧
          target? label scope = some target ∧
          s.record.setNamed Op.targetName target =
            some (.ok record) ∧
          t = { s with record := record } := by
  unfold resolveStep at h
  split at h
  · rename_i label scope hOp
    split at h
    · cases h
    · rename_i target hTarget
      split at h
      · cases h
      · rename_i result hResult
        rcases Success.bind_eq_ok h
          with ⟨record, hRecord, h⟩
        have hOk := Success.placed_eq_ok hRecord
        exact .inr ⟨label, scope, target, record, hOp,
          hTarget, hOk ▸ hResult, (Success.pure_eq_ok h).symm⟩
  · rename_i hOther
    exact .inl ⟨hOther, (Except.ok.inj h).symm⟩

end Path

theorem Field.width_set
    {f g : Field}
    {value : Nat}
    (h : f.set value = .ok g) :
    g.width = f.width := by
  unfold Field.set at h
  split at h
  · cases h
    exact Bits.length_ofNat f.width value
  · cases h

/- A new value does not change the width of a record. -/
theorem Record.width_setNamed
    {r s : Record}
    {name : String}
    {value : Nat}
    (h : r.setNamed name value = some (.ok s)) :
    s.width = r.width := by
  rcases Option.bind_eq_some_iff.mp h with ⟨i, -, hAt⟩
  rcases Option.map_eq_some_iff.mp hAt
    with ⟨f, hField, hSet⟩
  rcases Success.bind_eq_ok hSet with ⟨g, hg, hs⟩
  cases Success.pure_eq_ok hs
  have hWidths :
      (r.fields.set i g).map Field.width =
        r.fields.map Field.width := by
    rcases List.getElem?_eq_some_iff.mp hField
      with ⟨hi, rfl⟩
    rw [List.map_set, Field.width_set hg, ← List.map_set,
      List.set_getElem_self]
  rw [Record.width, Record.width, hWidths]

namespace Path

theorem resolveStep_width
    {target? : String → Nat → Option Nat}
    {s t : Step}
    (h : resolveStep target? s = .ok t) :
    t.width = s.width := by
  rcases resolveStep_eq_ok h with ⟨-, rfl⟩ | hJump
  · rfl
  · rcases hJump with ⟨_, _, _, record, -, -, hRecord, rfl⟩
    exact Record.width_setNamed hRecord

/- Filling in a jump touches nothing but the record. -/
theorem resolveStep_keeps
    {γ : Type}
    {f : Step → γ}
    (hKeep : ∀ s record, f { s with record := record } = f s)
    {target? : String → Nat → Option Nat}
    {s t : Step}
    (h : resolveStep target? s = .ok t) :
    f t = f s := by
  rcases resolveStep_eq_ok h with ⟨-, rfl⟩ | hJump
  · rfl
  · rcases hJump with ⟨_, _, _, record, -, -, -, rfl⟩
    exact hKeep s record

------------------------------------------------------------
-- Laid-Out Paths
------------------------------------------------------------

/-
  A path is another one, filled up, placed from a bit on and
  with its jumps filled in.
-/
def LaidOut (start : Nat) (p q : Path) : Prop :=
  (p.pad.stamp start).resolve = .ok q

namespace LaidOut

variable {start : Nat}
variable {p q : Path}

/- The steps come from placed steps, one from each. -/
theorem steps_resolve
    (h : LaidOut start p q) :
    List.Forall₂
      (fun s t => resolveStep p.labelBit? s = .ok t)
      (placeFrom (stampStep start) Step.width 0 p.pad.steps)
      q.steps := by
  rw [LaidOut, resolve_eq] at h
  rcases Success.bind_eq_ok h with ⟨steps, hSteps, h⟩
  cases Success.pure_eq_ok h
  rw [notedBit?_stamp, labelBit?_pad] at hSteps
  rw [← stamp_steps]
  exact Success.mapM_eq_ok hSteps

theorem id_eq
    (h : LaidOut start p q) :
    q.id = p.id := by
  rcases Success.bind_eq_ok h with ⟨steps, -, h⟩
  cases Success.pure_eq_ok h
  rfl

/- Layout changes only addresses and records. -/
theorem map_eq
    {γ : Type}
    {f : Step → γ}
    (h : LaidOut start p q)
    (hPlace : ∀ s bit pathBit record,
      f { s with
        bit := bit, pathBit := pathBit, record := record } =
      f s) :
    q.steps.map f = p.steps.map f := by
  have hResolve :
      q.steps.map f = (p.pad.stamp start).steps.map f := by
    rw [stamp_steps]
    exact Success.map_eq_of_forall₂
      (fun s t hst => resolveStep_keeps
        (fun s record => hPlace s s.bit s.pathBit record) hst)
      h.steps_resolve
  rw [hResolve,
    map_stamp (fun s bit pathBit =>
      hPlace s bit pathBit s.record),
    map_pad (fun s record =>
      hPlace s s.bit s.pathBit record)]

theorem map_width
    (h : LaidOut start p q) :
    q.steps.map Step.width = p.pad.steps.map Step.width := by
  have hResolve :
      q.steps.map Step.width =
        (placeFrom (stampStep start) Step.width 0
          p.pad.steps).map Step.width :=
    Success.map_eq_of_forall₂
      (fun _ _ hst => resolveStep_width hst) h.steps_resolve
  have hStamp :
      ∀ s n, (stampStep start s n).width = s.width :=
    fun _ _ => rfl
  rw [hResolve]
  exact map_placeFrom hStamp 0 p.pad.steps

/- A laid-out path takes whole bytes. -/
theorem width_eq
    (h : LaidOut start p q) :
    q.width = p.width + missingBits p.width := by
  rw [width, h.map_width]
  exact pad_width p

theorem width_mod
    (h : LaidOut start p q) :
    q.width % 8 = 0 := by
  rw [h.width_eq]
  exact add_missingBits_mod p.width

/- Every step lies behind the widths before it. -/
theorem address
    (h : LaidOut start p q)
    {before after : List Step}
    {s : Step}
    (hSteps : q.steps = before ++ s :: after) :
    s.pathBit = total (before.map Step.width) ∧
      s.bit = start + s.pathBit := by
  have hAll := h.steps_resolve
  rw [hSteps] at hAll
  rcases Success.forall₂_append_cons hAll
    with ⟨front, t, back, hPlaced, hFront, hStep, -⟩
  rcases placeFrom_eq_append hPlaced
    with ⟨ahead, u, behind, hPad, hLength, hu⟩
  have hCount : ahead.length = before.length := by
    rw [hLength, hFront.length_eq]
  have hWidths :
      before.map Step.width = ahead.map Step.width := by
    have hTake := congrArg (List.take before.length)
      h.map_width
    rw [hSteps, hPad, List.map_append, List.map_append,
      List.take_left' (by simp),
      List.take_left' (by simp [hCount])] at hTake
    exact hTake
  have hPathBit := resolveStep_keeps (fun _ _ => rfl) hStep
    (f := Step.pathBit)
  have hBit := resolveStep_keeps (fun _ _ => rfl) hStep
    (f := Step.bit)
  rw [hPathBit, hBit, hu, hWidths]
  simp [stampStep]

/- A path starts where it is laid out. -/
theorem head_bit
    (h : LaidOut start p q)
    {first : Step}
    {rest : List Step}
    (hSteps : q.steps = first :: rest) :
    first.bit = start := by
  have hSplit : q.steps = [] ++ first :: rest := hSteps
  rcases h.address hSplit with ⟨hPathBit, hBit⟩
  rw [hBit, hPathBit]
  rfl

end LaidOut

------------------------------------------------------------
-- The Bits Of A Path
------------------------------------------------------------

/- Every jump of a path is still to be filled in. -/
def JumpsOpen (p : Path) : Prop :=
  ∀ s ∈ p.steps, ∀ label scope, s.op = .goto label scope →
    s.record = ⟨Op.jumpFields 0⟩

/- The bits of a step of a path, its jump filled in. -/
def stepBits (p : Path) (s : Step) : Bits :=
  match s.op with
  | .goto label scope =>
      Op.jumpBits ((p.labelBit? label scope).getD 0)
  | _ => s.record.bits

/- The bits of all steps of a path, jumps filled in. -/
def linkedBits (p : Path) : Bits :=
  p.steps.flatMap p.stepBits

/- A jump that is filled in, with what stood behind it. -/
theorem resolveStep_jump
    {target? : String → Nat → Option Nat}
    {s t : Step}
    {label : String}
    {scope : Nat}
    {extra : List Field}
    (hOp : s.op = .goto label scope)
    (hRecord : s.record = ⟨Op.jumpFields 0 ++ extra⟩)
    (h : resolveStep target? s = .ok t) :
    ∃ target,
      target? label scope = some target ∧
        target < Nat.pow 2 32 ∧
        t = { s with
          record := ⟨Op.jumpFields target ++ extra⟩ } := by
  rcases resolveStep_eq_ok h with ⟨hOther, -⟩ | hJump
  · exact absurd hOp (hOther label scope)
  · rcases hJump
      with ⟨_, _, target, record, hGoto, hTarget, hSet, rfl⟩
    cases hOp.symm.trans hGoto
    rw [hRecord, Op.setNamed_jump] at hSet
    split at hSet
    · rename_i hLt
      cases hSet
      exact ⟨target, hTarget, hLt, rfl⟩
    · cases hSet

/- The bits of one step, and what was put behind it. -/
theorem resolveStep_bits
    {p : Path}
    {start offset : Nat}
    {extra : List Field}
    {s t : Step}
    (hOpen : ∀ label scope, s.op = .goto label scope →
      s.record = ⟨Op.jumpFields 0⟩)
    (h : resolveStep p.labelBit?
      (stampStep start (extended extra s) offset) = .ok t) :
    t.record.bits =
      p.stepBits s ++ extra.flatMap Field.bits := by
  by_cases hGoto : ∃ label scope, s.op = .goto label scope
  · rcases hGoto with ⟨label, scope, hOp⟩
    have hPlaced :
        (stampStep start (extended extra s) offset).op =
          .goto label scope := hOp
    have hRecord :
        (stampStep start (extended extra s) offset).record =
          ⟨Op.jumpFields 0 ++ extra⟩ := by
      simp [stampStep, extended, hOpen label scope hOp,
        Record.push]
    rcases resolveStep_jump hPlaced hRecord h
      with ⟨target, hTarget, -, rfl⟩
    simp [stepBits, hOp, hTarget, Record.bits, Op.jumpBits]
  · rcases resolveStep_eq_ok h with ⟨-, rfl⟩ | hJump
    · have hBits : p.stepBits s = s.record.bits := by
        unfold stepBits
        split
        · rename_i label scope hOp
          exact absurd ⟨label, scope, hOp⟩ hGoto
        · rfl
      rw [hBits]
      exact Record.bits_push s.record extra
    · rcases hJump with ⟨label, scope, _, _, hOp, -⟩
      exact absurd ⟨label, scope, hOp⟩ hGoto

/- The bits of steps that nothing was put behind. -/
theorem flatMap_bits_of_resolve
    {p : Path}
    {start offset : Nat}
    {steps linked : List Step}
    (hOpen : ∀ s ∈ steps, ∀ label scope,
      s.op = .goto label scope →
        s.record = ⟨Op.jumpFields 0⟩)
    (h : List.Forall₂
      (fun s t => resolveStep p.labelBit? s = .ok t)
      (placeFrom (stampStep start) Step.width offset steps)
      linked) :
    linked.flatMap (fun t => t.record.bits) =
      steps.flatMap p.stepBits := by
  induction steps generalizing offset linked with
  | nil =>
      cases h
      rfl
  | cons s steps ih =>
      cases h with
      | cons hHead hTail =>
          have hNone : extended [] s = s := by
            simp [extended, Record.push]
          rw [← hNone] at hHead
          have hFirst := resolveStep_bits
            (hOpen s (List.mem_cons_self ..)) hHead
          have hRest := ih
            (fun t ht => hOpen t (List.mem_cons_of_mem s ht))
            hTail
          rw [List.flatMap_cons, List.flatMap_cons, hFirst,
            hRest]
          simp

theorem placeFrom_append
    {α β : Type}
    (place : α → Nat → β)
    (width : α → Nat)
    (start : Nat)
    (xs ys : List α) :
    placeFrom place width start (xs ++ ys) =
      placeFrom place width start xs ++
        placeFrom place width
          (start + total (xs.map width)) ys := by
  induction xs generalizing start with
  | nil => rfl
  | cons x xs ih =>
      simp [placeFrom, ih, Nat.add_assoc]

/-
  A laid-out path holds the records of its steps in order,
  jumps filled in, and fewer than eight zeros behind them.
-/
theorem LaidOut.bits_eq
    {start : Nat}
    {p q : Path}
    (h : LaidOut start p q)
    (hOpen : p.JumpsOpen) :
    q.steps.flatMap (fun s => s.record.bits) =
      p.linkedBits ++ Bits.zeros (missingBits p.width) := by
  have hAll := h.steps_resolve
  rcases pad_steps p with ⟨hNil, hPad⟩ | hLast
  · rw [hPad] at hAll
    have hSteps : q.steps = [] :=
      List.forall₂_nil_left_iff.mp hAll
    simp [hSteps, linkedBits, hNil, width, missingBits,
      Bits.zeros]
  · rcases hLast with ⟨steps, last, hSteps, hPad⟩
    rw [hPad, placeFrom_append] at hAll
    rcases Success.forall₂_append_cons hAll.flip
      with ⟨front, linked, back, hq, hFront, hLinked, hBack⟩
    have hNone : back = [] :=
      List.forall₂_nil_right_iff.mp hBack
    have hInit := flatMap_bits_of_resolve
      (fun s hs => hOpen s
        (hSteps ▸ List.mem_append_left [last] hs))
      hFront.flip
    have hEnd := resolveStep_bits
      (hOpen last (hSteps ▸ List.mem_append_right steps
        (List.mem_singleton.mpr rfl))) hLinked
    rw [hq, hNone, List.flatMap_append, hInit,
      List.flatMap_cons, List.flatMap_nil, hEnd, bits_padding,
      linkedBits, hSteps]
    simp

/- Filling up puts fields behind steps, mostly none. -/
theorem forall₂_pad
    (p : Path) :
    List.Forall₂ (fun s t => ∃ extra, t = extended extra s)
      p.steps p.pad.steps := by
  have hSame :
      ∀ steps : List Step,
        List.Forall₂
          (fun s t => ∃ extra, t = extended extra s)
          steps steps := by
    intro steps
    refine List.forall₂_same.mpr fun s _ => ⟨[], ?_⟩
    simp [extended, Record.push]
  rcases pad_steps p with ⟨hNil, hPad⟩ | hLast
  · rw [hNil, hPad]
    exact .nil
  · rcases hLast with ⟨steps, last, hSteps, hPad⟩
    rw [hSteps, hPad]
    exact List.rel_append (hSame steps) (.cons ⟨_, rfl⟩ .nil)

/- What holds of placed items holds of what they came from. -/
theorem forall₂_of_placeFrom
    {α β γ δ : Type}
    {place : β → Nat → γ}
    {width : β → Nat}
    {S : α → β → Prop}
    {R : γ → δ → Prop}
    {start : Nat}
    {xs : List α}
    {ys : List β}
    {zs : List δ}
    (hFirst : List.Forall₂ S xs ys)
    (hPlaced :
      List.Forall₂ R (placeFrom place width start ys) zs) :
    List.Forall₂
      (fun x z => ∃ y n, S x y ∧ R (place y n) z) xs zs := by
  induction hFirst generalizing start zs with
  | nil =>
      rw [List.forall₂_nil_left_iff.mp hPlaced]
      exact .nil
  | @cons x y xs ys hxy _ ih =>
      rcases List.forall₂_cons_left_iff.mp hPlaced
        with ⟨z, zs, hz, hzs, rfl⟩
      exact .cons ⟨y, start, hxy, hz⟩ (ih hzs)

/-
  Each step keeps its operation, and each jump holds the
  address of its label.
-/
theorem LaidOut.forall₂_steps
    {start : Nat}
    {p q : Path}
    (h : LaidOut start p q)
    (hOpen : p.JumpsOpen) :
    List.Forall₂
      (fun s t =>
        t.op = s.op ∧
          ∀ label scope, s.op = .goto label scope →
            ∃ target extra,
              p.labelBit? label scope = some target ∧
                target < Nat.pow 2 32 ∧
                t.record = ⟨Op.jumpFields target ++ extra⟩)
      p.steps q.steps := by
  have hEach := forall₂_of_placeFrom (forall₂_pad p)
    h.steps_resolve
  refine List.Forall₂.imp ?_
    ((List.forall₂_and_left _ _).mpr ⟨hOpen, hEach⟩)
  rintro s t ⟨hJump, _, n, ⟨extra, rfl⟩, hStep⟩
  have hKeep :
      ∀ (u : Step) (record : Record),
        Step.op { u with record := record } = u.op :=
    fun _ _ => rfl
  have hSame : t.op = s.op :=
    (resolveStep_keeps hKeep hStep :)
  refine ⟨hSame, ?_⟩
  intro label scope hOp
  have hPlaced :
      (stampStep start (extended extra s) n).op =
        .goto label scope := hOp
  have hRecord :
      (stampStep start (extended extra s) n).record =
        ⟨Op.jumpFields 0 ++ extra⟩ := by
    simp [stampStep, extended, hJump label scope hOp,
      Record.push]
  rcases resolveStep_jump hPlaced hRecord hStep
    with ⟨target, hTarget, hLt, rfl⟩
  exact ⟨target, extra, hTarget, hLt, rfl⟩

/- Every jump of a laid-out path has a target. -/
theorem LaidOut.exists_target
    {start : Nat}
    {p q : Path}
    (h : LaidOut start p q)
    (hOpen : p.JumpsOpen) :
    ∀ s ∈ p.steps, ∀ label scope,
      s.op = .goto label scope →
      ∃ target,
        p.labelBit? label scope = some target ∧
          target < Nat.pow 2 32 := by
  intro s hs label scope hOp
  rcases Success.exists_of_forall₂
    (h.forall₂_steps hOpen).flip s hs with ⟨t, -, -, hJump⟩
  rcases hJump label scope hOp
    with ⟨target, -, hTarget, hLt, -⟩
  exact ⟨target, hTarget, hLt⟩

------------------------------------------------------------
-- Encoded Paths
------------------------------------------------------------

/- A step that is encoded has the record of its operation. -/
theorem encodeStep_eq_ok
    {device : Device}
    {shared : Std.HashSet Nat}
    {s t : Step}
    (h : encodeStep device shared s = .ok t) :
    t.op.encode device shared = .ok t.record ∧
      t = { s with record := t.record } := by
  rcases Success.bind_eq_ok h with ⟨record, hRecord, h⟩
  cases Success.pure_eq_ok h
  exact ⟨Success.placed_eq_ok hRecord, rfl⟩

/- Encoding changes nothing but the records of the steps. -/
theorem encodeSteps_eq_ok
    {device : Device}
    {shared : Std.HashSet Nat}
    {p q : Path}
    (h : encodeSteps device shared p = .ok q) :
    q.id = p.id ∧
      List.Forall₂
        (fun s t => encodeStep device shared s = .ok t)
        p.steps q.steps := by
  rcases Success.bind_eq_ok h with ⟨steps, hSteps, h⟩
  cases Success.pure_eq_ok h
  exact ⟨rfl, Success.mapM_eq_ok hSteps⟩

theorem encodeSteps_steps_ne_nil
    {device : Device}
    {shared : Std.HashSet Nat}
    {p q : Path}
    (h : encodeSteps device shared p = .ok q)
    (hSteps : p.steps ≠ []) :
    q.steps ≠ [] := by
  have hLength := (encodeSteps_eq_ok h).2.length_eq
  intro hNil
  rw [hNil, List.length_nil, List.length_eq_zero_iff]
    at hLength
  exact hSteps hLength

/- Every step has the record of its operation. -/
theorem encode_of_encodeSteps
    {device : Device}
    {shared : Std.HashSet Nat}
    {p q : Path}
    (h : encodeSteps device shared p = .ok q) :
    ∀ t ∈ q.steps,
      t.op.encode device shared = .ok t.record := by
  intro t ht
  rcases Success.exists_of_forall₂ (encodeSteps_eq_ok h).2
    t ht with ⟨s, -, hStep⟩
  exact (encodeStep_eq_ok hStep).1

theorem map_op_of_encodeSteps
    {device : Device}
    {shared : Std.HashSet Nat}
    {p q : Path}
    (h : encodeSteps device shared p = .ok q) :
    q.steps.map Step.op = p.steps.map Step.op := by
  refine Success.map_eq_of_forall₂ ?_ (encodeSteps_eq_ok h).2
  intro s t hStep
  rw [(encodeStep_eq_ok hStep).2]

theorem encodeSteps_jumpsOpen
    {device : Device}
    {shared : Std.HashSet Nat}
    {p q : Path}
    (h : encodeSteps device shared p = .ok q) :
    q.JumpsOpen := by
  intro t ht label scope hOp
  have hRecord := encode_of_encodeSteps h t ht
  rw [hOp] at hRecord
  exact (Except.ok.inj hRecord).symm

section EncodedPaths

variable {device : Device}
variable {shared : Std.HashSet Nat}
variable {ps qs : List Path}

theorem encode_of_encodeAll
    (h : encodeAll device shared ps = .ok qs) :
    ∀ q ∈ qs, ∀ t ∈ q.steps,
      t.op.encode device shared = .ok t.record := by
  intro q hq
  rcases Success.exists_of_forall₂ (Success.mapM_eq_ok h)
    q hq with ⟨p, -, hEncoded⟩
  exact encode_of_encodeSteps hEncoded

/- The jumps of encoded paths are still open. -/
theorem jumpsOpen_of_encodeAll
    (h : encodeAll device shared ps = .ok qs) :
    ∀ q ∈ qs, q.JumpsOpen := by
  intro q hq
  rcases Success.exists_of_forall₂ (Success.mapM_eq_ok h)
    q hq with ⟨p, -, hEncoded⟩
  exact encodeSteps_jumpsOpen hEncoded

/- What encoded paths have, given paths with steps. -/
theorem encodeAll_eq_ok
    (h : encodeAll device shared ps = .ok qs)
    (hSteps : ∀ p ∈ ps, p.steps ≠ []) :
    ∀ q ∈ qs, q.steps ≠ [] ∧ q.JumpsOpen := by
  have hNonempty :=
    Success.forall_of_forall₂
      (fun _ _ hEncoded => encodeSteps_steps_ne_nil hEncoded)
      (Success.mapM_eq_ok h) hSteps
  intro q hq
  exact ⟨hNonempty q hq, jumpsOpen_of_encodeAll h q hq⟩

end EncodedPaths

------------------------------------------------------------
-- All Paths
------------------------------------------------------------

/- Paths laid out one behind the other from a bit on. -/
inductive LaidOutFrom : Nat → List Path → List Path → Prop
  | nil (start : Nat) : LaidOutFrom start [] []
  | cons
      {start : Nat}
      {p q : Path}
      {ps qs : List Path}
      (first : LaidOut start p q)
      (rest : LaidOutFrom (start + q.width) ps qs) :
      LaidOutFrom start (p :: ps) (q :: qs)

/- Filling in the jumps of placed paths lays them out. -/
theorem laidOutFrom_of_resolveAll
    {start : Nat}
    {ps qs : List Path}
    (h : List.Forall₂ (fun p q => p.resolve = .ok q)
      (placeFrom stamp width start (ps.map pad)) qs) :
    LaidOutFrom start ps qs := by
  induction ps generalizing start qs with
  | nil =>
      rw [List.forall₂_nil_left_iff.mp h]
      exact .nil start
  | cons p ps ih =>
      rcases List.forall₂_cons_left_iff.mp h
        with ⟨q, qs, hFirst, hRest, rfl⟩
      have hLaid : LaidOut start p q := hFirst
      have hWidth : q.width = p.pad.width := by
        rw [hLaid.width_eq, pad_width]
      exact .cons hLaid (hWidth ▸ ih hRest)

theorem laidOutFrom_of_finalize
    {encoded paths : List Path}
    (h : finalize encoded = .ok paths) :
    LaidOutFrom 0 encoded paths := by
  rcases Success.bind_eq_ok h with ⟨resolved, hResolved, h⟩
  rcases Success.bind_eq_ok h with ⟨-, -, h⟩
  cases Success.pure_eq_ok h
  have hEach := Success.mapM_eq_ok hResolved
  rw [stampAll_eq_placeFrom] at hEach
  exact laidOutFrom_of_resolveAll hEach

namespace LaidOutFrom

variable {start : Nat}
variable {ps qs : List Path}

theorem length_eq
    (h : LaidOutFrom start ps qs) :
    qs.length = ps.length := by
  induction h with
  | nil => rfl
  | cons _ _ ih => simp [ih]

/- Each path is laid out behind the widths before it. -/
theorem laidOut_of_append
    (h : LaidOutFrom start ps qs)
    {before after : List Path}
    {q : Path}
    (hqs : qs = before ++ q :: after) :
    ∃ front p back,
      ps = front ++ p :: back ∧
        front.length = before.length ∧
        LaidOut (start + total (before.map width)) p q := by
  induction h generalizing before with
  | nil => simp at hqs
  | @cons start p q' ps qs hFirst _ ih =>
      cases before with
      | nil =>
          simp only [List.nil_append, List.cons.injEq] at hqs
          rcases hqs with ⟨rfl, -⟩
          exact ⟨[], p, ps, rfl, rfl, hFirst⟩
      | cons b before =>
          simp only [List.cons_append, List.cons.injEq] at hqs
          rcases hqs with ⟨rfl, hqs⟩
          rcases ih hqs
            with ⟨front, p', back, rfl, hLength, hLaid⟩
          refine ⟨p :: front, p', back, rfl, ?_, ?_⟩
          · simp [hLength]
          · rw [List.map_cons, total_cons, ← Nat.add_assoc]
            exact hLaid

/- Each path is laid out somewhere. -/
theorem forall₂_laidOut
    (h : LaidOutFrom start ps qs) :
    List.Forall₂ (fun p q => ∃ bit, LaidOut bit p q)
      ps qs := by
  induction h with
  | nil => exact .nil
  | @cons start p q ps qs hFirst _ ih =>
      exact .cons ⟨start, hFirst⟩ ih

theorem exists_laidOut
    (h : LaidOutFrom start ps qs) :
    ∀ p ∈ ps, ∃ bit q, LaidOut bit p q := by
  intro p hp
  rcases Success.exists_of_forall₂ h.forall₂_laidOut.flip p hp
    with ⟨q, -, bit, hLaid⟩
  exact ⟨bit, q, hLaid⟩

theorem steps_ne_nil
    (h : LaidOutFrom start ps qs)
    (hSteps : ∀ p ∈ ps, p.steps ≠ []) :
    ∀ q ∈ qs, q.steps ≠ [] := by
  refine Success.forall_of_forall₂ ?_ h.forall₂_laidOut hSteps
  rintro p q ⟨bit, hLaid⟩ hNe hNil
  have hOps :=
    hLaid.map_eq (f := Step.op) (fun _ _ _ _ => rfl)
  rw [hNil] at hOps
  exact hNe (List.map_eq_nil_iff.mp hOps.symm)

/- Every laid-out path takes whole bytes. -/
theorem width_mod
    (h : LaidOutFrom start ps qs) :
    ∀ q ∈ qs, q.width % 8 = 0 := by
  induction h with
  | nil =>
      intro q hq
      cases hq
  | cons hFirst _ ih =>
      intro q hq
      rcases List.mem_cons.mp hq with rfl | hq
      · exact hFirst.width_mod
      · exact ih q hq

end LaidOutFrom

end Path

end LightShow
