import LightShow.Proofs.Layout

/-
  When a layout succeeds.

  Paths that take whole bytes always start on a byte, so
  nothing but a jump without a label keeps paths from being
  laid out, as long as every address fits its field.

  Key definitions include:
    * `Path.firstStray?`
    * `Path.Roomy`
    * `Path.JumpsToFirst`

  Main statements:
    * `Path.checkAlignment_of_laidOutFrom`
    * `Path.finalize_eq_error_iff_firstStray?`
    * `Path.finalize_eq_error`
    * `Path.finalize_eq_error_iff`
    * `Path.LaidOut.jumpsToFirst`
-/

namespace LightShow

namespace Path

------------------------------------------------------------
-- Alignment
------------------------------------------------------------

/- Every path starts on a byte. -/
theorem start?_mod
    {start : Nat}
    {ps qs : List Path}
    (h : LaidOutFrom start ps qs)
    (hStart : start % 8 = 0) :
    ∀ q ∈ qs, ∀ bit, q.start? = some bit → bit % 8 = 0 := by
  induction h with
  | nil =>
      intro q hq
      cases hq
  | @cons start p q ps qs hFirst _ ih =>
      have hWidth := hFirst.width_mod
      intro r hr bit hBit
      rcases List.mem_cons.mp hr with rfl | hr
      · cases hSteps : r.steps with
        | nil => simp [start?, hSteps] at hBit
        | cons first rest =>
            have hHead := hFirst.head_bit hSteps
            simp only [start?, hSteps, List.head?_cons,
              Option.map_some, Option.some.injEq] at hBit
            omega
      · exact ih (by omega) r hr bit hBit

/- Laid-out paths pass the check of their starts. -/
theorem checkAlignment_of_laidOutFrom
    {ps qs : List Path}
    (h : LaidOutFrom 0 ps qs) :
    checkAlignment qs = .ok () := by
  have hStarts := start?_mod h rfl
  unfold checkAlignment
  split
  · rfl
  · rename_i base hBase
    rcases Option.bind_eq_some_iff.mp hBase
      with ⟨first, hFirst, hBit⟩
    have hBase := hStarts first
      (List.mem_of_mem_head? hFirst) base hBit
    apply Success.forM_eq_ok
    intro q hq
    unfold checkStart
    split
    · rfl
    · rename_i bit hStart
      have hBit := hStarts q hq bit hStart
      rw [if_pos (by omega)]

------------------------------------------------------------
-- Jumps Without Labels
------------------------------------------------------------

/- A label lies inside its path. -/
theorem labelBit?_le_width
    {p : Path}
    {label : String}
    {scope target : Nat}
    (h : p.labelBit? label scope = some target) :
    target ≤ p.width := by
  rcases Option.map_eq_some_iff.mp h with ⟨i, -, rfl⟩
  have hSplit :
      p.width =
        total ((p.steps.take i).map Step.width) +
          total ((p.steps.drop i).map Step.width) := by
    rw [← total_append, ← List.map_append,
      List.take_append_drop]
    rfl
  omega

theorem labelBit?_eq_none_iff
    {p : Path}
    {label : String}
    {scope : Nat} :
    p.labelBit? label scope = none ↔
      ∀ s ∈ p.steps, s.op ≠ .here label scope := by
  simp [labelBit?, isLabel]

theorem any_isLabel_iff
    {p : Path}
    {label : String}
    {scope : Nat} :
    p.steps.any (isLabel label scope) = true ↔
      ∃ s ∈ p.steps, s.op = .here label scope := by
  simp [isLabel]

/-
  The fault of a step that jumps to a label which is nowhere
  in its path.
-/
def strayFault? (p : Path) (s : Step) : Option Located :=
  match s.op with
  | .goto label scope =>
      if p.steps.any (isLabel label scope) then none
      else some ⟨.unresolvedLabel label, s.span⟩
  | _ => none

/- The fault of the first jump of a path without a label. -/
def firstStray? (p : Path) : Option Located :=
  p.steps.findSome? p.strayFault?

theorem strayFault?_goto
    {p : Path}
    {s : Step}
    {label : String}
    {scope : Nat}
    (hOp : s.op = .goto label scope) :
    p.strayFault? s =
      if p.steps.any (isLabel label scope) then none
      else some ⟨.unresolvedLabel label, s.span⟩ := by
  simp [strayFault?, hOp]

theorem strayFault?_eq_some
    {p : Path}
    {s : Step}
    {e : Located} :
    p.strayFault? s = some e ↔
      ∃ label scope,
        s.op = .goto label scope ∧
          p.labelBit? label scope = none ∧
          e = ⟨.unresolvedLabel label, s.span⟩ := by
  constructor
  · intro h
    unfold strayFault? at h
    split at h
    · rename_i label scope hOp
      split at h
      · cases h
      · rename_i hNone
        cases h
        refine ⟨label, scope, hOp, ?_, rfl⟩
        rw [labelBit?_eq_none_iff]
        intro t ht hLabel
        exact hNone (any_isLabel_iff.mpr ⟨t, ht, hLabel⟩)
    · cases h
  · rintro ⟨label, scope, hOp, hNone, rfl⟩
    rw [labelBit?_eq_none_iff] at hNone
    rw [strayFault?_goto hOp, if_neg]
    intro hAny
    rcases any_isLabel_iff.mp hAny with ⟨t, ht, hLabel⟩
    exact hNone t ht hLabel

/- Which jumps are astray depends on operations alone. -/
theorem firstStray?_congr
    {p q : Path}
    (h :
      q.steps.map (fun s => (s.op, s.span)) =
        p.steps.map fun s => (s.op, s.span)) :
    q.firstStray? = p.firstStray? := by
  have hKeys :
      ∀ r : Path,
        let keys := r.steps.map fun s => (s.op, s.span)
        r.firstStray? =
          keys.findSome? fun key =>
            match key.1 with
            | .goto label scope =>
                if keys.any (·.1 == .here label scope) then
                  none
                else some ⟨.unresolvedLabel label, key.2⟩
            | _ => none := by
    intro r
    simp only [firstStray?, List.findSome?_map,
      List.any_map]
    rfl
  rw [hKeys, hKeys, h]

/-
  Room for the targets of all jumps: every jump has a target
  field of 32 bits, and no address of the path is longer.
-/
structure Roomy (p : Path) : Prop where
  target : ∀ s ∈ p.steps, ∀ label scope,
    s.op = .goto label scope →
      ∃ f, s.record.find? Op.targetName = some f ∧
        f.width = 32
  short : p.width < Nat.pow 2 32

theorem JumpsOpen.roomy
    {p : Path}
    (hOpen : p.JumpsOpen)
    (hShort : p.width < Nat.pow 2 32) :
    p.Roomy := by
  refine ⟨?_, hShort⟩
  intro s hs label scope hOp
  rw [hOpen s hs label scope hOp]
  exact ⟨Op.fixed Op.targetName 32 0, by decide, by decide⟩

end Path

/- A record splits at the first field of a name. -/
theorem Record.exists_split_of_find?
    {r : Record}
    {name : String}
    {f : Field}
    (h : r.find? name = some f) :
    ∃ front back,
      r.fields = front ++ f :: back ∧
        f.name = name ∧
        ∀ g ∈ front, g.name ≠ name := by
  rcases List.find?_eq_some_iff_append.mp h
    with ⟨hName, front, back, hFields, hFront⟩
  refine ⟨front, back, hFields, by simpa using hName, ?_⟩
  intro g hg
  simpa using hFront g hg

/- A field that a record has stays the first of its name. -/
theorem Record.find?_push
    {r : Record}
    {name : String}
    {f : Field}
    (h : r.find? name = some f)
    (extra : List Field) :
    (r.push extra).find? name = some f := by
  unfold Record.find? at h ⊢
  rw [Record.push, List.find?_append, h]
  rfl

/- Only a number that is too large does not go in. -/
theorem Record.setNamed_eq_of_find?
    {r : Record}
    {name : String}
    {f : Field}
    (h : r.find? name = some f)
    {value : Nat}
    (hValue : value < Nat.pow 2 f.width) :
    ∃ s, r.setNamed name value = some (.ok s) := by
  rcases r.exists_split_of_find? h
    with ⟨front, back, hFields, hName, hFront⟩
  have hSet := Record.setNamed_append hName hFront back value
  rw [← hFields, Field.set, if_pos hValue] at hSet
  exact ⟨_, hSet⟩

namespace Path

/- A jump whose target has room fails for want of a label. -/
theorem resolveStep_eq_error_iff
    {p : Path}
    {target? : String → Nat → Option Nat}
    (hLabels : ∀ label scope,
      (target? label scope).isSome =
        p.steps.any (isLabel label scope))
    (hShort : ∀ label scope target,
      target? label scope = some target →
        target < Nat.pow 2 32)
    {s : Step}
    (hTarget : ∀ label scope, s.op = .goto label scope →
      ∃ f, s.record.find? Op.targetName = some f ∧
        f.width = 32)
    (e : Located) :
    resolveStep target? s = .error e ↔
      p.strayFault? s = some e := by
  by_cases hGoto : ∃ label scope, s.op = .goto label scope
  · rcases hGoto with ⟨label, scope, hOp⟩
    rw [strayFault?_goto hOp, ← hLabels]
    unfold resolveStep
    simp only [hOp]
    cases hNoted : target? label scope with
    | none => simp
    | some target =>
        rcases hTarget label scope hOp
          with ⟨f, hFind, hWidth⟩
        have hLt : target < Nat.pow 2 f.width := by
          rw [hWidth]
          exact hShort label scope target hNoted
        rcases s.record.setNamed_eq_of_find? hFind hLt
          with ⟨record, hSet⟩
        simp only [hSet]
        constructor
        · intro hFault
          cases hFault
        · intro hFault
          cases hFault
  · have hStep : resolveStep target? s = .ok s := by
      unfold resolveStep
      split
      · rename_i label scope hOp
        exact absurd ⟨label, scope, hOp⟩ hGoto
      · rfl
    have hNone : p.strayFault? s = none := by
      unfold strayFault?
      split
      · rename_i label scope hOp
        exact absurd ⟨label, scope, hOp⟩ hGoto
      · rfl
    rw [hStep, hNone]
    constructor
    · intro hFault
      cases hFault
    · intro hFault
      cases hFault

theorem mem_placeFrom
    {α β : Type}
    {place : α → Nat → β}
    {width : α → Nat}
    {start : Nat}
    {xs : List α}
    {y : β}
    (h : y ∈ placeFrom place width start xs) :
    ∃ x ∈ xs, ∃ n, y = place x n := by
  induction xs generalizing start with
  | nil => cases h
  | cons x xs ih =>
      rcases List.mem_cons.mp h with rfl | h
      · exact ⟨x, List.mem_cons_self .., start, rfl⟩
      · rcases ih h with ⟨z, hz, n, rfl⟩
        exact ⟨z, List.mem_cons_of_mem x hz, n, rfl⟩

theorem findSome?_placeFrom
    {α β γ : Type}
    {place : α → Nat → β}
    {width : α → Nat}
    {f : α → Option γ}
    {g : β → Option γ}
    (hKeep : ∀ x n, g (place x n) = f x)
    (start : Nat)
    (xs : List α) :
    (placeFrom place width start xs).findSome? g =
      xs.findSome? f := by
  induction xs generalizing start with
  | nil => rfl
  | cons x xs ih =>
      rw [placeFrom, List.findSome?_cons,
        List.findSome?_cons, hKeep, ih]

/- Steps of a filled path come from steps of the path. -/
theorem exists_of_mem_pad
    {p : Path}
    {t : Step}
    (h : t ∈ p.pad.steps) :
    ∃ s ∈ p.steps, ∃ extra, t = extended extra s :=
  Success.exists_of_forall₂ (forall₂_pad p) t h

/- Filling up a path leads no jump astray. -/
theorem firstStray?_pad
    (p : Path) :
    p.pad.firstStray? = p.firstStray? :=
  firstStray?_congr (map_pad (fun _ _ => rfl) p)

theorem firstStray?_stamp
    (p : Path)
    (start : Nat) :
    (p.stamp start).firstStray? = p.firstStray? :=
  firstStray?_congr (map_stamp (fun _ _ _ => rfl) p start)

/- A placed path fails for its first jump without a label. -/
theorem resolve_eq_error_iff
    {p : Path}
    (hRoom : p.Roomy)
    (start : Nat)
    (e : Located) :
    (p.pad.stamp start).resolve = .error e ↔
      (p.pad.stamp start).firstStray? = some e := by
  have hNoted :
      (p.pad.stamp start).notedBit? = p.labelBit? := by
    rw [notedBit?_stamp, labelBit?_pad]
  have hSteps :
      (p.pad.stamp start).steps.mapM
          (resolveStep (p.pad.stamp start).notedBit?) =
        .error e ↔
      (p.pad.stamp start).firstStray? = some e := by
    apply Success.mapM_eq_error_iff
    intro t ht e
    apply resolveStep_eq_error_iff
    · intro label scope
      rw [notedBit?, Option.isSome_map, Bool.eq_iff_iff,
        List.find?_isSome, List.any_eq_true]
    · intro label scope target hTarget
      rw [hNoted] at hTarget
      exact Nat.lt_of_le_of_lt (labelBit?_le_width hTarget)
        hRoom.short
    · intro label scope hOp
      rw [stamp_steps] at ht
      rcases mem_placeFrom ht with ⟨padded, hPadded, n, rfl⟩
      rcases exists_of_mem_pad hPadded
        with ⟨s, hs, extra, rfl⟩
      rcases hRoom.target s hs label scope hOp
        with ⟨f, hFind, hWidth⟩
      exact ⟨f, Record.find?_push hFind extra, hWidth⟩
  rw [← hSteps, resolve_eq]
  constructor
  · intro hFault
    rcases Success.bind_eq_error hFault with hFault | hPure
    · exact hFault
    · rcases hPure with ⟨_, -, hPure⟩
      cases hPure
  · intro hFault
    simp only [hFault]
    rfl

/- Nothing but its jumps keeps a list from being laid out. -/
theorem finalize_eq_error_iff_resolveAll
    {ps : List Path}
    {e : Located} :
    finalize ps = .error e ↔
      resolveAll (stampAll (ps.map pad)) = .error e := by
  unfold finalize
  constructor
  · intro h
    rcases Success.bind_eq_error h with hFault | hAligned
    · exact hFault
    · rcases hAligned with ⟨resolved, hResolved, h⟩
      have hEach := Success.mapM_eq_ok hResolved
      rw [stampAll_eq_placeFrom] at hEach
      rw [checkAlignment_of_laidOutFrom
        (laidOutFrom_of_resolveAll hEach)] at h
      cases h
  · intro h
    simp only [h]
    rfl

/- Layout fails for the first jump without a label. -/
theorem finalize_eq_error_iff_firstStray?
    {ps : List Path}
    (hRoom : ∀ p ∈ ps, p.Roomy)
    (e : Located) :
    finalize ps = .error e ↔
      ps.findSome? firstStray? = some e := by
  have hPlaced :
      resolveAll (stampAll (ps.map pad)) = .error e ↔
        (stampAll (ps.map pad)).findSome? firstStray? =
          some e := by
    apply Success.mapM_eq_error_iff
    intro placed hMem e
    rw [stampAll_eq_placeFrom] at hMem
    rcases mem_placeFrom hMem with ⟨padded, hPadded, n, rfl⟩
    rcases List.mem_map.mp hPadded with ⟨p, hp, rfl⟩
    exact resolve_eq_error_iff (hRoom p hp) n e
  have hSame :
      (stampAll (ps.map pad)).findSome? firstStray? =
        ps.findSome? firstStray? := by
    rw [stampAll_eq_placeFrom,
      findSome?_placeFrom firstStray?_stamp,
      List.findSome?_map]
    exact congrArg (ps.findSome? ·)
      (funext firstStray?_pad)
  rw [finalize_eq_error_iff_resolveAll, hPlaced, hSame]

/- Layout fails only because of a jump without label. -/
theorem finalize_eq_error
    {ps : List Path}
    {e : Located}
    (hOpen : ∀ p ∈ ps, p.JumpsOpen)
    (hShort : ∀ p ∈ ps, p.width < Nat.pow 2 32)
    (h : finalize ps = .error e) :
    ∃ p ∈ ps, ∃ s ∈ p.steps, ∃ label scope,
      s.op = .goto label scope ∧
        p.labelBit? label scope = none ∧
        e = ⟨.unresolvedLabel label, s.span⟩ := by
  rw [finalize_eq_error_iff_firstStray?
    (fun p hp => (hOpen p hp).roomy (hShort p hp))] at h
  rcases List.exists_of_findSome?_eq_some h
    with ⟨p, hp, hPath⟩
  rcases List.exists_of_findSome?_eq_some hPath
    with ⟨s, hs, hStep⟩
  exact ⟨p, hp, s, hs, strayFault?_eq_some.mp hStep⟩

/- Layout fails exactly if a jump has no label. -/
theorem finalize_eq_error_iff
    {ps : List Path}
    (hOpen : ∀ p ∈ ps, p.JumpsOpen)
    (hShort : ∀ p ∈ ps, p.width < Nat.pow 2 32) :
    (∃ label span,
        finalize ps =
          .error ⟨.unresolvedLabel label, span⟩) ↔
      ∃ p ∈ ps, ∃ s ∈ p.steps, ∃ label scope,
        s.op = .goto label scope ∧
          p.labelBit? label scope = none := by
  constructor
  · rintro ⟨label, span, h⟩
    rcases finalize_eq_error hOpen hShort h
      with ⟨p, hp, s, hs, other, scope, hOp, hNone, -⟩
    exact ⟨p, hp, s, hs, other, scope, hOp, hNone⟩
  · rintro ⟨p, hp, s, hs, label, scope, hOp, hNone⟩
    cases hFinal : finalize ps with
    | ok qs =>
        have hLaid := laidOutFrom_of_finalize hFinal
        rcases hLaid.exists_laidOut p hp with ⟨bit, q, hq⟩
        rcases hq.exists_target (hOpen p hp) s hs label scope
          hOp with ⟨target, hTarget, -⟩
        rw [hNone] at hTarget
        cases hTarget
    | error e =>
        rcases finalize_eq_error hOpen hShort hFinal
          with ⟨_, -, t, -, other, _, -, -, rfl⟩
        exact ⟨other, t.span, rfl⟩

------------------------------------------------------------
-- Jumps With Labels
------------------------------------------------------------

/- Labels depend on operations and widths alone. -/
theorem labelBit?_congr
    {p q : Path}
    (hOps : q.steps.map Step.op = p.steps.map Step.op)
    (hWidths :
      q.steps.map Step.width = p.steps.map Step.width) :
    q.labelBit? = p.labelBit? := by
  have hMaps :
      ∀ (r : Path) (label : String) (scope : Nat),
        r.labelBit? label scope =
          ((r.steps.map Step.op).findIdx?
            (· == .here label scope)).map fun i =>
              total ((r.steps.map Step.width).take i) := by
    intro r label scope
    rw [List.findIdx?_map]
    simp only [labelBit?, List.map_take]
    rfl
  funext label scope
  rw [hMaps, hMaps, hOps, hWidths]

/- Layout moves no label. -/
theorem LaidOut.labelBit?_eq
    {start : Nat}
    {p q : Path}
    (h : LaidOut start p q) :
    q.labelBit? = p.labelBit? := by
  have hOps :
      q.steps.map Step.op = p.pad.steps.map Step.op := by
    rw [h.map_eq (fun _ _ _ _ => rfl)]
    rcases pad_steps p with ⟨hNil, hPad⟩ | hLast
    · rw [hNil, hPad]
    · rcases hLast with ⟨steps, last, hSteps, hPad⟩
      rw [hSteps, hPad, List.map_append, List.map_append]
      rfl
  rw [labelBit?_congr hOps h.map_width, labelBit?_pad]

/- The step that the address of a label belongs to. -/
theorem LaidOut.exists_label
    {start : Nat}
    {p q : Path}
    (h : LaidOut start p q)
    {label : String}
    {scope target : Nat}
    (hTarget : q.labelBit? label scope = some target) :
    ∃ before first after,
      q.steps = before ++ first :: after ∧
        first.op = .here label scope ∧
        (∀ s ∈ before, s.op ≠ .here label scope) ∧
        first.pathBit = target ∧
        target = total (before.map Step.width) := by
  rcases Option.map_eq_some_iff.mp hTarget with ⟨i, hi, rfl⟩
  rcases List.findIdx?_eq_some_iff_getElem.mp hi
    with ⟨hLt, hFirst, hBefore⟩
  have hSplit :
      q.steps =
        q.steps.take i ++
          q.steps[i] :: q.steps.drop (i + 1) := by
    rw [← List.drop_eq_getElem_cons hLt,
      List.take_append_drop]
  refine ⟨_, _, _, hSplit, ?_, ?_, (h.address hSplit).1, rfl⟩
  · simpa [isLabel] using hFirst
  · intro s hs
    rcases List.mem_iff_getElem.mp hs with ⟨j, hj, rfl⟩
    rw [List.length_take] at hj
    rw [List.getElem_take]
    simpa [isLabel] using hBefore j (by omega)

/-
  A step jumps to the first label of a name and scope in its
  path: its target field holds the address of that label.
-/
def JumpsToFirst
    (q : Path)
    (t : Step)
    (label : String)
    (scope : Nat) : Prop :=
  ∃ before first after extra,
    q.steps = before ++ first :: after ∧
      first.op = .here label scope ∧
      (∀ s ∈ before, s.op ≠ .here label scope) ∧
      first.pathBit = total (before.map Step.width) ∧
      first.pathBit < Nat.pow 2 32 ∧
      t.record = ⟨Op.jumpFields first.pathBit ++ extra⟩

theorem LaidOut.jumpsToFirst
    {start : Nat}
    {p q : Path}
    (h : LaidOut start p q)
    (hOpen : p.JumpsOpen) :
    ∀ t ∈ q.steps, ∀ label scope,
      t.op = .goto label scope →
        q.JumpsToFirst t label scope := by
  intro t ht label scope hGoto
  rcases Success.exists_of_forall₂ (h.forall₂_steps hOpen)
    t ht with ⟨s, -, hOp, hJump⟩
  rcases hJump label scope (hOp ▸ hGoto)
    with ⟨target, extra, hTarget, hLt, hRecord⟩
  rw [← h.labelBit?_eq] at hTarget
  rcases h.exists_label hTarget
    with ⟨before, first, after, hSplit, hFirst, hBefore, rfl,
      hSum⟩
  exact ⟨before, first, after, extra, hSplit, hFirst, hBefore,
    hSum, hLt, hRecord⟩

end Path

end LightShow
