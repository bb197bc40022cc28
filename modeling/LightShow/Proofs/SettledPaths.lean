import LightShow.Proofs.Linking

/-
  What laid-out paths look like.

  A layout writes three things into a path: the addresses of
  its steps, the targets of its jumps and, behind its last
  record, the zeros that fill up a byte. A list of paths is
  laid out, unless one of them has a jump without a label.

  Key definitions include:
    * `Record.SetsFirst`
    * `Path.SettledStep`
    * `Path.Settled`
    * `Path.LaysOut`

  Main statements:
    * `Path.LaidOut.settled`
    * `Path.fault_ne_misalignedPath`
    * `Path.layout_settles_paths`
-/

namespace LightShow

------------------------------------------------------------
-- Writing A Field
------------------------------------------------------------

/-
  Two records that differ in the first field of a name, where
  the second one holds a number.
-/
def Record.SetsFirst
    (name : String)
    (value : Nat)
    (r s : Record) : Prop :=
  ∃ front f g back,
    r.fields = front ++ f :: back ∧
      s.fields = front ++ g :: back ∧
      (∀ other ∈ front, other.name ≠ name) ∧
      f.name = name ∧
      g.name = name ∧
      g.width = f.width ∧
      Bits.toNat g.bits = value

/- A record that takes a value has a field for it. -/
theorem Record.exists_find?_of_setNamed
    {r s : Record}
    {name : String}
    {value : Nat}
    (h : r.setNamed name value = some (.ok s)) :
    ∃ f, r.find? name = some f := by
  rcases Option.bind_eq_some_iff.mp h with ⟨i, hi, -⟩
  apply Option.isSome_iff_exists.mp
  rw [Record.find?, List.find?_isSome]
  rcases List.findIdx?_eq_some_iff_getElem.mp hi
    with ⟨hLt, hName, -⟩
  exact ⟨r.fields[i], List.getElem_mem hLt, hName⟩

/-
  A value for a name that only the fields in front may bear
  is written there, and the fields behind are left alone.
-/
theorem Record.setsFirst_of_setNamed
    {r s : Record}
    {name : String}
    {value : Nat}
    {extra : List Field}
    (hExtra : ∀ f ∈ extra, f.name ≠ name)
    (h : (r.push extra).setNamed name value = some (.ok s)) :
    ∃ linked,
      r.SetsFirst name value linked ∧
        s = linked.push extra := by
  rcases Record.exists_find?_of_setNamed h with ⟨f, hFind⟩
  have hOwn : r.find? name = some f := by
    have hNone :
        extra.find? (fun g => g.name == name) = none := by
      simpa using hExtra
    rw [Record.find?, Record.push, List.find?_append, hNone,
      Option.or_none] at hFind
    exact hFind
  rcases Record.exists_split_of_find? hOwn
    with ⟨front, back, hFields, hName, hFront⟩
  have hSet := Record.setNamed_append hName hFront
    (back ++ extra) value
  have hPush :
      r.push extra = ⟨front ++ f :: (back ++ extra)⟩ := by
    simp [Record.push, hFields]
  rw [hPush, hSet] at h
  rcases Success.bind_eq_ok (Option.some.inj h)
    with ⟨g, hg, hs⟩
  refine ⟨⟨front ++ g :: back⟩, ?_, ?_⟩
  · have hWidth := Field.width_set hg
    unfold Field.set at hg
    split at hg
    · rename_i hLt
      cases hg
      exact ⟨front, f, _, back, hFields, rfl, hFront, hName,
        hName, hWidth, Bits.toNat_ofNat hLt⟩
    · cases hg
  · rw [← Success.pure_eq_ok hs]
    simp [Record.push]

namespace Path

------------------------------------------------------------
-- Settled Paths
------------------------------------------------------------

/-
  A step of a laid-out path, with what was written into it:
  its addresses, the target of its jump and some fields at
  the end of its record.
-/
structure SettledStep
    (start : Nat)
    (q : Path)
    (extra : List Field)
    (i : Nat)
    (s t : Step) : Prop where
  kept :
    t = { s with
      bit := t.bit, pathBit := t.pathBit, record := t.record }
  pathBit :
    t.pathBit = total ((q.steps.take i).map Step.width)
  bit : t.bit = start + t.pathBit
  jump : ∀ label scope, s.op = .goto label scope →
    ∃ first linked,
      q.steps.find? (isLabel label scope) = some first ∧
        s.record.SetsFirst Op.targetName first.pathBit
          linked ∧
        t.record = linked.push extra
  other : (∀ label scope, s.op ≠ .goto label scope) →
    t.record = s.record.push extra

/-
  A path laid out from a bit on: fewer than eight zeros stand
  behind its last step, and it takes whole bytes.
-/
structure Settled (start : Nat) (p q : Path) : Prop where
  kept : q = { p with steps := q.steps }
  count : q.steps.length = p.steps.length
  whole : q.width % 8 = 0
  filled : ∃ extra zeros,
    extra.flatMap Field.bits = Bits.zeros zeros ∧
      zeros < 8 ∧
      q.width = p.width + zeros ∧
      ∀ i s t,
        p.steps[i]? = some s →
        q.steps[i]? = some t →
          SettledStep start q
            (if i + 1 = p.steps.length then extra else [])
            i s t

/- A jump to a label that is nowhere in its path. -/
def Stray (p : Path) (s : Step) : Prop :=
  ∃ label scope,
    s.op = .goto label scope ∧
      ∀ t ∈ p.steps, t.op ≠ .here label scope

/-
  What a layout of some paths does: it never finds a path
  that does not start on a byte, it settles every path behind
  those before it, and, if all targets have room, it fails
  for the first jump without a label and for nothing else.
-/
structure LaysOut
    (ps : List Path)
    (result : Except Located (List Path)) : Prop where
  aligned : ∀ e thread bit,
    result = .error e → e.fault ≠ .misalignedPath thread bit
  settled : ∀ qs, result = .ok qs →
    qs.length = ps.length ∧
      ∀ i p q,
        ps[i]? = some p →
        qs[i]? = some q →
          Settled (total ((qs.take i).map width)) p q
  fails : (∀ p ∈ ps, p.Roomy) →
    ((∃ e, result = .error e) ↔
      ∃ p ∈ ps, ∃ s ∈ p.steps, p.Stray s)
  first : (∀ p ∈ ps, p.Roomy) →
    ∀ e, result = .error e ↔
      ps.findSome? firstStray? = some e

------------------------------------------------------------
-- Items At An Index
------------------------------------------------------------

theorem getElem?_placeFrom
    {α β : Type}
    (place : α → Nat → β)
    (width : α → Nat)
    (start : Nat)
    (xs : List α)
    (i : Nat) :
    (placeFrom place width start xs)[i]? =
      xs[i]?.map fun x =>
        place x (start + total ((xs.take i).map width)) := by
  induction xs generalizing start i with
  | nil => rfl
  | cons x xs ih =>
      cases i with
      | zero => rfl
      | succ i =>
          rw [placeFrom, List.getElem?_cons_succ, ih,
            List.getElem?_cons_succ]
          simp [Nat.add_assoc]

/- Only the last step of a path is filled up. -/
theorem getElem?_pad
    (p : Path)
    (i : Nat) :
    p.pad.steps[i]? =
      p.steps[i]?.map
        (extended
          (if i + 1 = p.steps.length then padding p.width
          else [])) := by
  have hNone : extended [] = fun s => s := by
    funext s
    simp [extended, Record.push]
  rcases pad_steps p with ⟨hNil, hPad⟩ | hLast
  · simp [hNil, hPad]
  · rcases hLast with ⟨steps, last, hSteps, hPad⟩
    rw [hPad, hSteps]
    rcases Nat.lt_trichotomy i steps.length
      with hBefore | rfl | hBehind
    · have hInner : i + 1 ≠ (steps ++ [last]).length := by
        rw [List.length_append, List.length_singleton]
        omega
      rw [if_neg hInner, hNone, Option.map_id',
        List.getElem?_append_left hBefore,
        List.getElem?_append_left hBefore]
    · simp
    · have hOut : ∀ s : Step, (steps ++ [s])[i]? = none := by
        intro s
        apply List.getElem?_eq_none
        rw [List.length_append, List.length_singleton]
        omega
      rw [hOut, hOut, Option.map_none]

namespace LaidOut

variable {start : Nat}
variable {p q : Path}

/- The step that a step of the path becomes. -/
theorem resolve_at
    (h : LaidOut start p q)
    {i : Nat}
    {s t : Step}
    (hs : p.steps[i]? = some s)
    (ht : q.steps[i]? = some t) :
    let extra :=
      if i + 1 = p.steps.length then padding p.width else []
    resolveStep p.labelBit?
        (stampStep start (extended extra s)
          (total ((q.steps.take i).map Step.width))) =
      .ok t := by
  intro extra
  have hPlaced :
      (placeFrom (stampStep start) Step.width 0
          p.pad.steps)[i]? =
        some (stampStep start (extended extra s)
          (total ((q.steps.take i).map Step.width))) := by
    rw [getElem?_placeFrom, getElem?_pad, hs, List.map_take,
      List.map_take, h.map_width, Nat.zero_add]
    rfl
  exact Success.forall₂_getElem? h.steps_resolve hPlaced ht

/- The address of a label is that of its first step. -/
theorem find?_isLabel
    (h : LaidOut start p q)
    {label : String}
    {scope target : Nat}
    (hTarget : p.labelBit? label scope = some target) :
    ∃ first,
      q.steps.find? (isLabel label scope) = some first ∧
        first.pathBit = target := by
  rw [← h.labelBit?_eq] at hTarget
  rcases h.exists_label hTarget
    with ⟨before, first, after, hSplit, hFirst, hBefore,
      hBit, -⟩
  refine ⟨first, ?_, hBit⟩
  rw [List.find?_eq_some_iff_append]
  refine ⟨?_, before, after, hSplit, ?_⟩
  · simp [isLabel, hFirst]
  · intro s hs
    simpa [isLabel] using hBefore s hs

theorem settledStep
    (h : LaidOut start p q)
    {i : Nat}
    {s t : Step}
    (hs : p.steps[i]? = some s)
    (ht : q.steps[i]? = some t) :
    SettledStep start q
      (if i + 1 = p.steps.length then padding p.width else [])
      i s t := by
  have hNames :
      ∀ f ∈ (if i + 1 = p.steps.length then padding p.width
        else []), f.name ≠ Op.targetName := by
    intro f hf
    split at hf
    · unfold padding at hf
      split at hf
      · cases hf
      · cases List.mem_singleton.mp hf
        have hName : paddingName ≠ Op.targetName := by decide
        exact hName
    · cases hf
  have hStep := h.resolve_at hs ht
  rcases resolveStep_eq_ok hStep with ⟨hOther, rfl⟩ | hJump
  · exact {
      kept := rfl
      pathBit := rfl
      bit := rfl
      jump := fun label scope hOp =>
        absurd hOp (hOther label scope)
      other := fun _ => rfl }
  · rcases hJump
      with ⟨label, scope, target, record, hOp, hTarget, hSet,
        rfl⟩
    rcases h.find?_isLabel hTarget with ⟨first, hFind, rfl⟩
    rcases Record.setsFirst_of_setNamed hNames hSet
      with ⟨linked, hLinked, hRecord⟩
    constructor
    · rfl
    · rfl
    · rfl
    · intro other otherScope hOther
      cases hOp.symm.trans hOther
      exact ⟨first, linked, hFind, hLinked, hRecord⟩
    · intro hOther
      exact absurd hOp (hOther label scope)

/- A laid-out path is settled. -/
theorem settled
    (h : LaidOut start p q) :
    Settled start p q := by
  constructor
  · rcases Success.bind_eq_ok h with ⟨steps, -, hq⟩
    cases Success.pure_eq_ok hq
    rfl
  · have hOps := h.map_eq (f := Step.op) fun _ _ _ _ => rfl
    simpa using congrArg List.length hOps
  · exact h.width_mod
  · refine ⟨padding p.width, missingBits p.width,
      bits_padding p.width, missingBits_lt p.width,
      h.width_eq, ?_⟩
    intro i s t hs ht
    exact h.settledStep hs ht

end LaidOut

/- The path at an index lies behind those before it. -/
theorem LaidOutFrom.laidOut_at
    {start : Nat}
    {ps qs : List Path}
    (h : LaidOutFrom start ps qs)
    {i : Nat}
    {p q : Path}
    (hp : ps[i]? = some p)
    (hq : qs[i]? = some q) :
    LaidOut (start + total ((qs.take i).map width)) p q := by
  induction h generalizing i with
  | nil => cases hp
  | cons hFirst _ ih =>
      cases i with
      | zero =>
          cases hp
          cases hq
          exact hFirst
      | succ i =>
          have hRest := ih hp hq
          rw [Nat.add_assoc] at hRest
          exact hRest

------------------------------------------------------------
-- Faults
------------------------------------------------------------

/- A record refuses nothing but a value that is too large. -/
theorem fault_of_setNamed
    {r : Record}
    {name : String}
    {value : Nat}
    {fault : Fault}
    (h : r.setNamed name value = some (.error fault)) :
    ∃ field width,
      fault = .fieldOverflow field width value := by
  rcases Option.bind_eq_some_iff.mp h with ⟨i, -, hAt⟩
  rcases Option.map_eq_some_iff.mp hAt with ⟨f, -, hSet⟩
  rcases Success.bind_eq_error hSet with hField | hPure
  · unfold Field.set at hField
    split at hField
    · cases hField
    · cases hField
      exact ⟨f.name, f.width, rfl⟩
  · rcases hPure with ⟨_, -, hPure⟩
    cases hPure

/- No jump is to blame for where a path starts. -/
theorem resolveStep_ne_misalignedPath
    {target? : String → Nat → Option Nat}
    {s : Step}
    {e : Located}
    (h : resolveStep target? s = .error e)
    (thread bit : Nat) :
    e.fault ≠ .misalignedPath thread bit := by
  intro hFault
  unfold resolveStep at h
  split at h
  · split at h
    · cases h
      cases hFault
    · split at h
      · cases h
        cases hFault
      · rename_i result hResult
        rcases Success.bind_eq_error h with hSet | hPure
        · cases result with
          | ok record => cases hSet
          | error fault =>
              rcases fault_of_setNamed hResult
                with ⟨field, width, rfl⟩
              cases hSet
              cases hFault
        · rcases hPure with ⟨_, -, hPure⟩
          cases hPure
  · cases h

theorem fault_ne_misalignedPath
    {ps : List Path}
    {e : Located}
    (h : finalize ps = .error e)
    (thread bit : Nat) :
    e.fault ≠ .misalignedPath thread bit := by
  rw [finalize_eq_error_iff_resolveAll] at h
  rcases Success.mapM_eq_error h with ⟨p, -, hPath⟩
  rw [resolve_eq] at hPath
  rcases Success.bind_eq_error hPath with hSteps | hPure
  · rcases Success.mapM_eq_error hSteps with ⟨s, -, hStep⟩
    exact resolveStep_ne_misalignedPath hStep thread bit
  · rcases hPure with ⟨_, -, hPure⟩
    cases hPure

------------------------------------------------------------
-- The Whole Layout
------------------------------------------------------------

/- The paths of a layout are settled one after the other. -/
theorem settled_of_finalize
    {ps qs : List Path}
    (h : finalize ps = .ok qs)
    {i : Nat}
    {p q : Path}
    (hp : ps[i]? = some p)
    (hq : qs[i]? = some q) :
    Settled (total ((qs.take i).map width)) p q := by
  have hLaid := (laidOutFrom_of_finalize h).laidOut_at hp hq
  rw [Nat.zero_add] at hLaid
  exact hLaid.settled

/- A jump is astray if nothing takes up its label. -/
theorem exists_strayFault?_iff
    {p : Path}
    {s : Step} :
    (∃ e, p.strayFault? s = some e) ↔ p.Stray s := by
  constructor
  · rintro ⟨e, h⟩
    rcases strayFault?_eq_some.mp h
      with ⟨label, scope, hOp, hNone, -⟩
    exact ⟨label, scope, hOp, labelBit?_eq_none_iff.mp hNone⟩
  · rintro ⟨label, scope, hOp, hNone⟩
    exact ⟨_, strayFault?_eq_some.mpr
      ⟨label, scope, hOp, labelBit?_eq_none_iff.mpr hNone,
        rfl⟩⟩

theorem exists_firstStray?_iff
    {p : Path} :
    (∃ e, p.firstStray? = some e) ↔
      ∃ s ∈ p.steps, p.Stray s := by
  rw [← Option.isSome_iff_exists, firstStray?,
    List.findSome?_isSome_iff]
  simp only [Option.isSome_iff_exists,
    exists_strayFault?_iff]

/-
  Every list of paths, empty ones among them, is laid out as
  it should be, whatever fields its records have.
-/
theorem layout_settles_paths
    (ps : List Path) :
    LaysOut ps (finalize ps) := by
  constructor
  · intro e thread bit h
    exact fault_ne_misalignedPath h thread bit
  · intro qs h
    refine ⟨(laidOutFrom_of_finalize h).length_eq, ?_⟩
    intro i p q hp hq
    exact settled_of_finalize h hp hq
  · intro hRoom
    have hFaults :
        (∃ e, finalize ps = .error e) ↔
          (ps.findSome? firstStray?).isSome = true := by
      rw [Option.isSome_iff_exists]
      exact exists_congr
        (finalize_eq_error_iff_firstStray? hRoom)
    rw [hFaults, List.findSome?_isSome_iff]
    simp only [Option.isSome_iff_exists,
      exists_firstStray?_iff]
  · intro hRoom e
    exact finalize_eq_error_iff_firstStray? hRoom e

/- A step with some fields that is not laid out yet. -/
def openStep (op : Op) (fields : List Field) : Step :=
  { op := op, span := none, thread := 0, record := ⟨fields⟩ }

/- An empty path, and one that jumps forward and back. -/
def loopingPaths : List Path :=
  [⟨3, 0, 0, []⟩,
   ⟨4, 1, 0,
    [openStep (.goto "on" 1) (Op.jumpFields 0),
     openStep (.pause 10) [Field.zeros "ticks" 7],
     openStep (.here "on" 1) [Op.tagField 1],
     openStep (.here "on" 1) [Op.tagField 1],
     openStep (.goto "on" 1) (Op.jumpFields 0)]⟩]

/- A label is no use to a jump of another path. -/
def strayingPaths : List Path :=
  [⟨3, 0, 0, [openStep (.here "on" 1) [Op.tagField 1]]⟩,
   ⟨4, 1, 0,
    [openStep (.goto "on" 1) (Op.jumpFields 0)]⟩]

theorem loopingWidths_eq :
    (finalize loopingPaths).map (fun qs => qs.map width) =
      .ok [0, 88] := by
  simp only [finalize, resolveAll, resolve_eq]
  decide +kernel

theorem layout_settles_paths_looping :
    (∃ qs,
      finalize loopingPaths = .ok qs ∧
        qs.map width = [0, 88] ∧
        ∀ i p q,
          loopingPaths[i]? = some p →
          qs[i]? = some q →
            Settled (total ((qs.take i).map width)) p q) ∧
      finalize strayingPaths =
        .error ⟨.unresolvedLabel "on", none⟩ := by
  constructor
  · have hWidths := loopingWidths_eq
    cases hFinal : finalize loopingPaths with
    | error e =>
        rw [hFinal] at hWidths
        cases hWidths
    | ok qs =>
        rw [hFinal] at hWidths
        have hLays := layout_settles_paths loopingPaths
        exact ⟨qs, rfl, Except.ok.inj hWidths,
          (hLays.settled qs hFinal).2⟩
  · have hOpen : ∀ p ∈ strayingPaths, p.JumpsOpen := by
      intro p hp s hs label scope hOp
      simp only [strayingPaths, List.mem_cons,
        List.not_mem_nil, or_false] at hp
      rcases hp with rfl | rfl
      · cases List.mem_singleton.mp hs
        cases hOp
      · cases List.mem_singleton.mp hs
        rfl
    have hShort :
        ∀ p ∈ strayingPaths, p.width < Nat.pow 2 32 := by
      decide
    have hLays := layout_settles_paths strayingPaths
    rw [hLays.first fun p hp =>
      (hOpen p hp).roomy (hShort p hp)]
    decide

end Path

end LightShow
