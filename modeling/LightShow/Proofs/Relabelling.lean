import LightShow.Image.Show
import LightShow.Proofs.Layout

/-
  Shows do not depend on how labels are called.

  A label is looked up by its name and scope together, and
  only to be compared with others. If names and scopes are
  renamed so that different ones stay different, every stage
  does the same as before, with renamed labels; and in the
  end no label is left.

  Key definitions include:
    * `LabelKey`
    * `Instruction.relabel`
    * `Success.Alike`

  Main statements:
    * `Path.alike_schedule`
    * `Path.alike_finalize`
    * `Header.ofPaths_relabel`
    * `Show.alike_build`
-/

namespace LightShow

------------------------------------------------------------
-- Checks That Correspond
------------------------------------------------------------

namespace Success

variable {ε α β γ δ : Type}

/-
  Two checks both fail, or both succeed, with values that
  correspond. Their faults need not.
-/
def Alike
    (f : α → β)
    (x : Except ε α)
    (y : Except ε β) : Prop :=
  y.toOption = x.toOption.map f

theorem alike_ok
    (f : α → β)
    (a : α) :
    Alike f (.ok a : Except ε α) (.ok (f a)) :=
  rfl

theorem alike_error
    (f : α → β)
    (e e' : ε) :
    Alike f (.error e : Except ε α) (.error e') :=
  rfl

theorem Alike.bind
    {f : α → β}
    {g : γ → δ}
    {x : Except ε α}
    {y : Except ε β}
    {next : α → Except ε γ}
    {next' : β → Except ε δ}
    (h : Alike f x y)
    (hNext : ∀ a, Alike g (next a) (next' (f a))) :
    Alike g (x >>= next) (y >>= next') := by
  cases x with
  | error e =>
      cases y with
      | error e' => rfl
      | ok b => cases h
  | ok a =>
      cases y with
      | error e' => cases h
      | ok b =>
          cases h
          exact hNext a

/- Lists of checks correspond if each check does. -/
theorem alike_mapM
    {f : γ → δ}
    {rename : α → β}
    {check : α → Except ε γ}
    {check' : β → Except ε δ}
    {xs : List α}
    (h : ∀ x ∈ xs, Alike f (check x) (check' (rename x))) :
    Alike (List.map f) (xs.mapM check)
      ((xs.map rename).mapM check') := by
  induction xs with
  | nil =>
      rw [List.map_nil, List.mapM_nil, List.mapM_nil]
      rfl
  | cons x xs ih =>
      rcases List.forall_mem_cons.mp h with ⟨hFirst, hRest⟩
      rw [List.map_cons, List.mapM_cons, List.mapM_cons]
      apply hFirst.bind
      intro y
      apply (ih hRest).bind
      intro ys
      exact alike_ok (List.map f) (y :: ys)

/- A check that succeeds makes its like succeed. -/
theorem Alike.eq_ok
    {f : α → β}
    {x : Except ε α}
    {y : Except ε β}
    {a : α}
    (h : Alike f x y)
    (hx : x = .ok a) :
    y = .ok (f a) := by
  subst hx
  cases y with
  | error e => cases h
  | ok b =>
      cases h
      rfl

/- Checks that are alike have the same value, if any. -/
theorem Alike.eq_ok_iff
    {x y : Except ε α}
    (h : Alike id x y)
    {a : α} :
    y = .ok a ↔ x = .ok a := by
  constructor
  · intro hy
    subst hy
    cases x with
    | error e => cases h
    | ok b =>
        cases h
        rfl
  · exact h.eq_ok

end Success

open Success (Alike)

------------------------------------------------------------
-- Renamed Labels
------------------------------------------------------------

/- The name and the scope of a label. -/
abbrev LabelKey := String × Nat

/- Rename the label of an operation, if it has one. -/
def Op.relabel (σ : LabelKey → LabelKey) : Op → Op
  | .here label scope =>
      .here (σ (label, scope)).1 (σ (label, scope)).2
  | .goto label scope =>
      .goto (σ (label, scope)).1 (σ (label, scope)).2
  | op => op

def Instruction.relabel
    (σ : LabelKey → LabelKey)
    (i : Instruction) : Instruction :=
  { i with op := i.op.relabel σ }

def Step.relabel
    (σ : LabelKey → LabelKey)
    (s : Step) : Step :=
  { s with op := s.op.relabel σ }

def Path.relabel
    (σ : LabelKey → LabelKey)
    (p : Path) : Path :=
  { p with steps := p.steps.map (Step.relabel σ) }

variable (σ : LabelKey → LabelKey)

namespace Op

@[simp] theorem leds_relabel
    (op : Op) :
    (op.relabel σ).leds = op.leds := by
  cases op <;> rfl

@[simp] theorem colors_relabel
    (op : Op) :
    (op.relabel σ).colors = op.colors := by
  cases op <;> rfl

/- No record holds the name of a label. -/
theorem encode_relabel
    (device : Device)
    (shared : Std.HashSet Nat)
    (op : Op) :
    (op.relabel σ).encode device shared =
      op.encode device shared := by
  cases op <;> rfl

/- Renamed labels are the same exactly if the labels are. -/
theorem relabel_eq_here_iff
    (hσ : Function.Injective σ)
    (op : Op)
    (label : String)
    (scope : Nat) :
    op.relabel σ =
        .here (σ (label, scope)).1 (σ (label, scope)).2 ↔
      op = .here label scope := by
  constructor
  · intro h
    cases op with
    | here other otherScope =>
        simp only [relabel, here.injEq] at h
        have hSame := hσ (Prod.ext h.1 h.2)
        cases hSame
        rfl
    | _ => cases h
  · rintro rfl
    rfl

end Op

------------------------------------------------------------
-- Scheduling
------------------------------------------------------------

namespace Path

variable {σ}
variable (is : List Instruction)

theorem ids_relabel :
    ids (is.map (Instruction.relabel σ)) = ids is := by
  rw [ids, ids, List.filterMap_map]
  rfl

theorem own_relabel
    (id : Nat) :
    own (is.map (Instruction.relabel σ)) id =
      (own is id).map (Instruction.relabel σ) := by
  rw [own, own, List.filter_map]
  rfl

theorem firstZOrder_relabel :
    firstZOrder (is.map (Instruction.relabel σ)) =
      firstZOrder is := by
  cases is <;> rfl

theorem order_relabel :
    order (is.map (Instruction.relabel σ)) = order is := by
  simp only [order, keys, ids_relabel, own_relabel,
    firstZOrder_relabel]

theorem alike_toStep
    (threads : List Nat)
    (thread : Nat)
    (i : Instruction) :
    Alike (Step.relabel σ) (toStep threads thread i)
      (toStep threads thread (i.relabel σ)) := by
  rcases i with ⟨op, path, zOrder, span⟩
  cases op with
  | activate target =>
      simp only [toStep, Instruction.relabel, Op.relabel,
        retarget]
      cases threads.idxOf? target with
      | none => rfl
      | some found => rfl
  | _ => rfl

/- Paths of renamed instructions are renamed paths. -/
theorem alike_schedule
    (maxThreads : Nat) :
    Alike (List.map (relabel σ)) (schedule maxThreads is)
      (schedule maxThreads
        (is.map (Instruction.relabel σ))) := by
  simp only [schedule, ids_relabel, order_relabel]
  split
  · exact Success.alike_error _ _ _
  · nth_rewrite 2 [← List.map_id (order is).zipIdx]
    apply Success.alike_mapM
    intro x _
    simp only [ofKey, own_relabel]
    apply (Success.alike_mapM fun i _ =>
      alike_toStep _ _ i).bind
    intro steps
    exact Success.alike_ok (relabel σ) ⟨_, _, _, steps⟩

------------------------------------------------------------
-- Records
------------------------------------------------------------

variable (ps : List Path)

theorem leds_relabel
    (p : Path) :
    (p.relabel σ).leds = p.leds := by
  simp [leds, relabel, Step.relabel, List.flatMap_map]

theorem sharedLeds_relabel
    (ledCount : Nat) :
    sharedLeds (ps.map (relabel σ)) ledCount =
      sharedLeds ps ledCount := by
  have hLeds :
      (ps.map (relabel σ)).map leds = ps.map leds := by
    rw [List.map_map]
    exact List.map_congr_left fun p _ => leds_relabel p
  rw [sharedLeds, sharedLeds, hLeds]

theorem alike_encodeAll
    (device : Device)
    (shared : Std.HashSet Nat) :
    Alike (List.map (relabel σ))
      (encodeAll device shared ps)
      (encodeAll device shared (ps.map (relabel σ))) := by
  apply Success.alike_mapM
  intro p _
  have hStep (s : Step) :
      Alike (Step.relabel σ) (encodeStep device shared s)
        (encodeStep device shared (s.relabel σ)) := by
    simp only [encodeStep, Step.relabel, Op.encode_relabel]
    cases Located.placed s.span
      (s.op.encode device shared) <;> rfl
  apply (Success.alike_mapM fun s _ => hStep s).bind
  intro steps
  exact Success.alike_ok (relabel σ) { p with steps := steps }

------------------------------------------------------------
-- Layout
------------------------------------------------------------

theorem map_width_relabel
    (steps : List Step) :
    (steps.map (Step.relabel σ)).map Step.width =
      steps.map Step.width := by
  rw [List.map_map]
  rfl

theorem width_relabel
    (p : Path) :
    (p.relabel σ).width = p.width := by
  rw [width, width, relabel, map_width_relabel]

theorem pad_relabel
    (p : Path) :
    (p.relabel σ).pad = p.pad.relabel σ := by
  have hLast (fields : List Field) :
      extendLast fields (p.steps.map (Step.relabel σ)) =
        (extendLast fields p.steps).map
          (Step.relabel σ) := by
    unfold extendLast
    rw [List.getLast?_map]
    cases p.steps.getLast? with
    | none => rfl
    | some last => simp [Step.relabel]
  rw [pad, pad, width_relabel]
  simp only [relabel, hLast]

theorem stampAll_relabel :
    stampAll (ps.map (relabel σ)) =
      (stampAll ps).map (relabel σ) := by
  have hStamp (p : Path) (start : Nat) :
      (p.relabel σ).stamp start =
        (p.stamp start).relabel σ := by
    simp only [stamp, relabel, map_width_relabel]
    rw [List.zipWith_map_left, List.map_zipWith]
    rfl
  have hWidths :
      (ps.map (relabel σ)).map width = ps.map width := by
    rw [List.map_map]
    exact List.map_congr_left fun p _ => width_relabel p
  rw [stampAll, stampAll, hWidths, List.zipWith_map_left,
    List.map_zipWith]
  simp only [hStamp]

/- Renamed labels are found where the labels were. -/
theorem notedBit?_relabel
    (hσ : Function.Injective σ)
    (p : Path)
    (label : String)
    (scope : Nat) :
    (p.relabel σ).notedBit? (σ (label, scope)).1
        (σ (label, scope)).2 =
      p.notedBit? label scope := by
  have hFind :
      isLabel (σ (label, scope)).1 (σ (label, scope)).2 ∘
          Step.relabel σ =
        isLabel label scope := by
    funext s
    have hIff :=
      Op.relabel_eq_here_iff σ hσ s.op label scope
    simp only [Function.comp_apply, isLabel, Step.relabel]
    rw [Bool.eq_iff_iff, beq_iff_eq, beq_iff_eq]
    exact hIff
  simp only [notedBit?, relabel]
  rw [List.find?_map, hFind, Option.map_map]
  rfl

theorem alike_resolve
    (hσ : Function.Injective σ)
    (p : Path) :
    Alike (relabel σ) p.resolve (p.relabel σ).resolve := by
  have hStep (s : Step) :
      Alike (Step.relabel σ) (resolveStep p.notedBit? s)
        (resolveStep (p.relabel σ).notedBit?
          (s.relabel σ)) := by
    rcases s with ⟨op, span, thread, bit, pathBit, record⟩
    cases op with
    | goto label scope =>
        simp only [resolveStep, Step.relabel, Op.relabel,
          notedBit?_relabel hσ]
        cases p.notedBit? label scope with
        | none => rfl
        | some target =>
            simp only
            cases record.setNamed Op.targetName target with
            | none => rfl
            | some result => cases result <;> rfl
    | _ => rfl
  simp only [resolve_eq]
  apply (Success.alike_mapM fun s _ => hStep s).bind
  intro steps
  exact Success.alike_ok (relabel σ) { p with steps := steps }

theorem start?_relabel
    (p : Path) :
    (p.relabel σ).start? = p.start? := by
  cases h : p.steps <;> simp [start?, relabel, h, Step.relabel]

theorem checkAlignment_relabel :
    checkAlignment (ps.map (relabel σ)) =
      checkAlignment ps := by
  have hStart (base : Nat) (p : Path) :
      checkStart base (p.relabel σ) = checkStart base p := by
    rw [checkStart, checkStart, start?_relabel]
    rfl
  have hAll (base : Nat) (ps : List Path) :
      (ps.map (relabel σ)).forM (checkStart base) =
        ps.forM (checkStart base) := by
    induction ps with
    | nil => rfl
    | cons p ps ih =>
        have hCons (q : Path) (qs : List Path) :
            (q :: qs).forM (checkStart base) =
              (checkStart base q >>= fun _ =>
                qs.forM (checkStart base)) := rfl
        rw [List.map_cons, hCons, hCons, hStart, ih]
  cases ps with
  | nil => rfl
  | cons p ps =>
      simp only [checkAlignment, List.map_cons,
        List.head?_cons, Option.bind_some, start?_relabel]
      cases p.start? with
      | none => rfl
      | some base => exact hAll base (p :: ps)

/- The layout of renamed paths is the renamed layout. -/
theorem alike_finalize
    (hσ : Function.Injective σ) :
    Alike (List.map (relabel σ)) (finalize ps)
      (finalize (ps.map (relabel σ))) := by
  have hPad :
      (ps.map (relabel σ)).map pad =
        (ps.map pad).map (relabel σ) := by
    rw [List.map_map, List.map_map]
    exact List.map_congr_left fun p _ => pad_relabel p
  simp only [finalize, hPad, stampAll_relabel]
  apply (Success.alike_mapM fun p _ =>
    alike_resolve hσ p).bind
  intro resolved
  rw [checkAlignment_relabel]
  cases checkAlignment resolved <;> rfl

end Path

------------------------------------------------------------
-- Headers
------------------------------------------------------------

namespace Header

variable {σ}
variable (ps : List Path)

theorem brightness_relabel :
    Path.brightness (ps.map (Path.relabel σ)) =
      Path.brightness ps := by
  simp [Path.brightness, Path.relabel, Step.relabel,
    List.flatMap_map, List.flatMap_assoc]

theorem extent?_relabel
    (base : Nat)
    (p : Path) :
    (p.relabel σ).extent? base = p.extent? base := by
  have hHead :
      (p.relabel σ).steps.head? =
        p.steps.head?.map (Step.relabel σ) :=
    List.head?_map
  have hLast :
      (p.relabel σ).steps.getLast? =
        p.steps.getLast?.map (Step.relabel σ) :=
    List.getLast?_map
  rw [Path.extent?, Path.extent?, hHead, hLast]
  cases p.steps.head? <;> cases p.steps.getLast? <;> rfl

theorem extents_relabel :
    extents (ps.map (Path.relabel σ)) =
      (extents ps).map fun x => (x.1.relabel σ, x.2) := by
  have hBase :
      ((ps.map (Path.relabel σ)).head?.bind Path.start?) =
        ps.head?.bind Path.start? := by
    cases ps with
    | nil => rfl
    | cons p ps => exact Path.start?_relabel p
  simp only [extents, hBase]
  rw [List.zipIdx_map, List.filterMap_map,
    List.map_filterMap]
  apply List.filterMap_congr
  intro x _
  simp only [Function.comp_apply, Prod.map, id_eq,
    extent?_relabel, Option.map_map]
  rfl

theorem block_relabel
    (tick thread : Nat)
    (p : Path)
    (e : Extent) :
    (p.relabel σ).block tick thread e =
      p.block tick thread e := by
  have hRamp :
      (p.relabel σ).rampTicks tick = p.rampTicks tick := by
    simp only [Path.rampTicks, Path.relabel]
    rw [List.filterMap_map]
    apply List.filterMap_congr
    intro s _
    rcases s with ⟨op, _, _, _, _, _⟩
    cases op <;> rfl
  have hPause :
      (p.relabel σ).pauseTicks tick = p.pauseTicks tick := by
    simp only [Path.pauseTicks, Path.relabel]
    rw [List.filterMap_map]
    apply List.filterMap_congr
    intro s _
    rcases s with ⟨op, _, _, _, _, _⟩
    cases op <;> rfl
  simp only [Path.block, Path.longestRamp, Path.longestPause,
    hRamp, hPause]

/- A header says nothing about labels. -/
theorem ofPaths_relabel
    (device : Device) :
    ofPaths device (ps.map (Path.relabel σ)) =
      ofPaths device ps := by
  have hPreamble :
      preamble device (ps.map (Path.relabel σ)) =
        preamble device ps := by
    simp only [preamble, brightness_relabel, List.length_map]
  have hBlocks :
      ((extents (ps.map (Path.relabel σ))).mapM fun x =>
          x.1.block device.tickMillis x.2.1 x.2.2) =
        (extents ps).mapM fun x =>
          x.1.block device.tickMillis x.2.1 x.2.2 := by
    rw [extents_relabel, List.mapM_map]
    simp only [Function.comp_def, block_relabel]
  have hLengths :
      ((extents (ps.map (Path.relabel σ))).map fun x =>
          x.2.2.length) =
        (extents ps).map fun x => x.2.2.length := by
    rw [extents_relabel, List.map_map]
    rfl
  simp only [ofPaths, hPreamble, hBlocks, hLengths,
    brightness_relabel]

end Header

/- An image holds no label. -/
theorem Placed.instructionBits_relabel
    (ps : List Path) :
    instructionBits (ps.map (Path.relabel σ)) =
      instructionBits ps := by
  simp [instructionBits, Path.relabel, Step.relabel,
    List.flatMap_map]

------------------------------------------------------------
-- Whole Shows
------------------------------------------------------------

/- A placed show with renamed labels. -/
def Placed.relabel (p : Placed) : Placed :=
  ⟨p.header, p.paths.map (Path.relabel σ)⟩

variable {σ}

theorem Placed.alike_ofInstructions
    (hσ : Function.Injective σ)
    (t : Target)
    (is : List Instruction) :
    Alike (Placed.relabel σ) (Placed.ofInstructions t is)
      (Placed.ofInstructions t
        (is.map (Instruction.relabel σ))) := by
  simp only [ofInstructions]
  cases Located.unplaced t.check with
  | error e => rfl
  | ok =>
      apply (Path.alike_schedule is _).bind
      intro scheduled
      rw [Path.sharedLeds_relabel]
      apply (Path.alike_encodeAll scheduled _ _).bind
      intro encoded
      apply (Path.alike_finalize encoded hσ).bind
      intro paths
      rw [Header.ofPaths_relabel]
      cases Located.unplaced
        (Header.ofPaths t.device paths) <;> rfl

/-
  Renaming labels so that different ones stay different does
  not change a show, nor whether there is one.
-/
theorem Show.alike_build
    (hσ : Function.Injective σ)
    (t : Target)
    (is : List Instruction) :
    Alike id (Show.build t is)
      (Show.build t (is.map (Instruction.relabel σ))) := by
  have hFinished (placed : Placed) :
      ofPlaced t (placed.relabel σ) = ofPlaced t placed := by
    have hImage :
        (placed.relabel σ).image t = placed.image t := by
      simp only [Placed.image, Placed.relabel,
        Placed.instructionBits_relabel]
    simp only [ofPlaced, hImage]
    simp only [Placed.relabel, List.length_map]
  have hWith :
      Alike (fun x => (x.1, x.2.relabel σ))
        (buildWith t is)
        (buildWith t
          (is.map (Instruction.relabel σ))) := by
    apply (Placed.alike_ofInstructions hσ t is).bind
    intro placed
    rw [hFinished]
    cases Located.unplaced (ofPlaced t placed) <;> rfl
  apply hWith.bind
  intro x
  rfl

end LightShow
