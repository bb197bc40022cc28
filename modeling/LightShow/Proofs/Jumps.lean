import LightShow.Proofs.Linking
import LightShow.Proofs.Parsing
import LightShow.Proofs.Schedule

/-
  Jumps stay in the copy that they are written in.

  A copy has a scope of its own and lies on one path, so the
  labels and jumps of its scope, wherever they are laid out,
  are those of its body. A jump is given the address of the
  first label among them; if its body has no such label,
  there is nowhere to jump.

  Key definitions include:
    * `Path.opsIn`
    * `Path.Holds`

  Main statements:
    * `Staged.opsIn_of_copy`
    * `Script.jumps_stay_in_their_copy`
-/

namespace LightShow

namespace Path

------------------------------------------------------------
-- Labels And Jumps Of A Path
------------------------------------------------------------

/- The labels and jumps of a scope in a path, in order. -/
def opsIn (p : Path) (scope : Nat) : List Op :=
  (p.steps.map Step.op).filter (Op.inScope scope)

theorem mem_opsIn
    {p : Path}
    {scope : Nat}
    {op : Op} :
    op ∈ p.opsIn scope ↔
      (∃ s ∈ p.steps, s.op = op) ∧
        op.scope? = some scope := by
  simp [opsIn, Op.inScope]

/- Scheduling renames no label and no jump. -/
theorem filter_map_op_of_toStep
    {threads : List Nat}
    {thread scope : Nat}
    {is : List Instruction}
    {steps : List Step}
    (h : List.Forall₂
      (fun i s => toStep threads thread i = .ok s) is steps) :
    (steps.map Step.op).filter (Op.inScope scope) =
      (is.map Instruction.op).filter (Op.inScope scope) := by
  induction h with
  | nil => rfl
  | cons hStep _ ih =>
      rw [List.map_cons, List.map_cons, List.filter_cons,
        List.filter_cons, ih]
      rcases retarget_eq_ok (toStep_eq_ok hStep).1
        with hSame | ⟨target, thread, hOld, hNew⟩
      · rw [hSame]
      · rw [hOld, hNew]
        rfl

/- A path holds of a scope what its instructions hold. -/
theorem opsIn_of_schedule
    {maxThreads : Nat}
    {is : List Instruction}
    {paths : List Path}
    (h : schedule maxThreads is = .ok paths)
    {p : Path}
    (hp : p ∈ paths)
    (scope : Nat) :
    p.opsIn scope =
      ((is.filter (Meaning.inScope scope)).filter
        fun i => i.path == some p.id).map Instruction.op := by
  have hSteps := steps_schedule h hp
  rw [opsIn, filter_map_op_of_toStep hSteps, List.filter_map,
    own, List.filter_filter, List.filter_filter]
  congr 2
  funext i
  exact Bool.and_comm _ _

/- Paths that are made one from another, step by step. -/
def SameOps (p q : Path) : Prop :=
  q.id = p.id ∧ q.steps.map Step.op = p.steps.map Step.op

theorem sameOps_of_encodeSteps
    {device : Device}
    {shared : Std.HashSet Nat}
    {p q : Path}
    (h : encodeSteps device shared p = .ok q) :
    SameOps p q :=
  ⟨(encodeSteps_eq_ok h).1, map_op_of_encodeSteps h⟩

theorem sameOps_of_laidOut
    {start : Nat}
    {p q : Path}
    (h : LaidOut start p q) :
    SameOps p q :=
  ⟨h.id_eq, h.map_eq fun _ _ _ _ => rfl⟩

theorem SameOps.opsIn_eq
    {p q : Path}
    (h : SameOps p q)
    (scope : Nat) :
    q.opsIn scope = p.opsIn scope := by
  rw [opsIn, opsIn, h.2]

end Path

------------------------------------------------------------
-- Labels And Jumps Of A Copy
------------------------------------------------------------

namespace Meaning

theorem Copy.map_op_labels
    (c : Copy) :
    c.labels.map Instruction.op = c.labelOps := by
  simp [labels, labelOps, List.map_filterMap,
    Function.comp_def]

theorem Copy.path_of_mem_labels
    {c : Copy}
    {i : Instruction}
    (h : i ∈ c.labels) :
    i.path = some c.path := by
  rcases List.mem_filterMap.mp h with ⟨st, -, hLabel⟩
  rcases Option.map_eq_some_iff.mp hLabel with ⟨op, -, rfl⟩
  rfl

/- The labels and jumps of a copy are all on its path. -/
theorem Copy.filter_labels
    (c : Copy)
    (id : Nat) :
    (c.labels.filter fun i => i.path == some id) =
      if id = c.path then c.labels else [] := by
  split
  · rename_i hSame
    rw [List.filter_eq_self]
    intro i hi
    simp [c.path_of_mem_labels hi, hSame]
  · rename_i hOther
    rw [List.filter_eq_nil_iff]
    intro i hi
    simp [c.path_of_mem_labels hi, Ne.symm hOther]

/- A label or jump of a copy is a statement of its body. -/
theorem Copy.mem_labelOps
    {c : Copy}
    {op : Op} :
    op ∈ c.labelOps ↔
      ∃ st ∈ c.function.body,
        labelOp? c.scope st.action = some op :=
  List.mem_filterMap

theorem labelOp?_eq_goto
    {scope : Nat}
    {action : Action}
    {label : String} :
    labelOp? scope action = some (.goto label scope) ↔
      ∃ name, action = .goto name ∧ name.text = label := by
  cases action <;> simp [labelOp?]

theorem labelOp?_eq_here
    {scope : Nat}
    {action : Action}
    {label : String} :
    labelOp? scope action = some (.here label scope) ↔
      ∃ name, action = .here name ∧ name.text = label := by
  cases action <;> simp [labelOp?]

/- A copy shows whether its body jumps to nowhere. -/
theorem Copy.dangling_iff
    (c : Copy) :
    c.function.Dangling ↔
      ∃ label,
        .goto label c.scope ∈ c.labelOps ∧
          .here label c.scope ∉ c.labelOps := by
  constructor
  · rintro ⟨st, hst, name, hGoto, hNone⟩
    refine ⟨name.text, ?_, ?_⟩
    · rw [mem_labelOps]
      exact ⟨st, hst, labelOp?_eq_goto.mpr ⟨name, hGoto, rfl⟩⟩
    · rw [mem_labelOps]
      rintro ⟨other, hOther, hHere⟩
      rcases labelOp?_eq_here.mp hHere with ⟨n, hn, hSame⟩
      exact hNone other hOther n hn hSame
  · rintro ⟨label, hGoto, hNone⟩
    rcases mem_labelOps.mp hGoto with ⟨st, hst, hGoto⟩
    rcases labelOp?_eq_goto.mp hGoto with ⟨name, hName, rfl⟩
    refine ⟨st, hst, name, hName, ?_⟩
    intro other hOther n hn hSame
    apply hNone
    rw [mem_labelOps]
    exact ⟨other, hOther, labelOp?_eq_here.mpr ⟨n, hn, hSame⟩⟩

end Meaning

------------------------------------------------------------
-- Copies Of A Whole Script
------------------------------------------------------------

namespace Script

open Meaning (Copy)

variable {script : Script}

/- Every copy has a scope of its own. -/
theorem nodup_scopes
    (script : Script) :
    (script.copies.map Copy.scope).Nodup := by
  unfold copies
  cases script.find? entryName with
  | none => exact .nil
  | some start =>
      rw [Option.elim_some, Meaning.scopes_copies]
      exact List.nodup_range'

section Expanded

variable {source : SourceText}
variable {device : Device}
variable {expanded : Expanded}

/- The instructions of a scope are those of its copies. -/
theorem filter_expanded
    (h : script.expand source device = .ok expanded)
    (scope : Nat) :
    expanded.instructions.filter (Meaning.inScope scope) =
      script.copies.flatMap (Meaning.labelsIn scope) := by
  rcases expand_yields h with ⟨start, hStart, -, hAll⟩
  rw [(hAll _ (Nat.lt_succ_self _)).2, copies, hStart,
    Option.elim_some, ← Meaning.filter_instructions]
  simp [Meaning.activated, Meaning.inScope, Meaning.emit,
    Op.inScope, Op.scope?]
  rfl

/- Exactly the functions that are called have copies. -/
theorem exists_mem_copies_iff
    (h : script.expand source device = .ok expanded)
    (hInline : script.CallsInline)
    (f : Function) :
    (∃ c ∈ script.copies, c.function = f) ↔
      Reachable script f := by
  rcases expand_yields h with ⟨start, hStart, hFits, -⟩
  rw [← exists_copy_iff_reachable hInline hStart hFits
    firstSite, copies, hStart, Option.elim_some]

end Expanded

end Script

------------------------------------------------------------
-- Copies On Paths
------------------------------------------------------------

/- The stages before a layout, from a script on. -/
structure Staged
    (script : Script)
    (source : SourceText)
    (device : Device)
    (encoded : List Path)
    (expanded : Expanded)
    (maxThreads : Nat)
    (shared : Std.HashSet Nat)
    (scheduled : List Path) : Prop where
  expand : script.expand source device = .ok expanded
  schedule :
    Path.schedule maxThreads expanded.instructions =
      .ok scheduled
  encode :
    Path.encodeAll device shared scheduled = .ok encoded

section Stages

open Meaning (Copy)

variable {script : Script}
variable {source : SourceText}
variable {device : Device}
variable {encoded : List Path}
variable {expanded : Expanded}
variable {maxThreads : Nat}
variable {shared : Std.HashSet Nat}
variable {scheduled : List Path}

namespace Staged

/- Encoded paths come from scheduled ones. -/
theorem exists_scheduled
    (h : Staged script source device encoded expanded
      maxThreads shared scheduled) :
    ∀ p ∈ encoded, ∃ r ∈ scheduled, Path.SameOps r p := by
  have hEach := Success.mapM_eq_ok h.encode
  intro p hp
  rcases Success.exists_of_forall₂ hEach p hp
    with ⟨r, hr, hStep⟩
  exact ⟨r, hr, Path.sameOps_of_encodeSteps hStep⟩

/- The numbers of encoded paths. -/
theorem map_id
    (h : Staged script source device encoded expanded
      maxThreads shared scheduled) :
    encoded.map Path.id =
      (Path.order expanded.instructions).map Prod.snd := by
  have hEach := Success.mapM_eq_ok h.encode
  rw [← Path.map_id_schedule h.schedule]
  refine Success.map_eq_of_forall₂ ?_ hEach
  intro r p hStep
  exact (Path.sameOps_of_encodeSteps hStep).1

theorem nodup_id
    (h : Staged script source device encoded expanded
      maxThreads shared scheduled) :
    (encoded.map Path.id).Nodup := by
  rw [h.map_id]
  exact Path.nodup_order _

/- The jumps of encoded paths are still open. -/
theorem jumpsOpen
    (h : Staged script source device encoded expanded
      maxThreads shared scheduled) :
    ∀ p ∈ encoded, p.JumpsOpen :=
  Path.jumpsOpen_of_encodeAll h.encode

/- Of a scope, paths hold what its copy has for them. -/
theorem opsIn_eq
    (h : Staged script source device encoded expanded
      maxThreads shared scheduled)
    {p : Path}
    (hp : p ∈ encoded)
    (scope : Nat) :
    p.opsIn scope =
      ((script.copies.flatMap
        (Meaning.labelsIn scope)).filter
          fun i => i.path == some p.id).map
            Instruction.op := by
  rcases h.exists_scheduled p hp with ⟨r, hr, hSame⟩
  rw [hSame.opsIn_eq, Path.opsIn_of_schedule h.schedule hr,
    Script.filter_expanded h.expand, hSame.1]

/- Its own path holds a copy, and no other path does. -/
theorem opsIn_of_copy
    (h : Staged script source device encoded expanded
      maxThreads shared scheduled)
    {c : Copy}
    (hc : c ∈ script.copies)
    {p : Path}
    (hp : p ∈ encoded) :
    p.opsIn c.scope =
      if p.id = c.path then c.labelOps else [] := by
  rw [h.opsIn_eq hp,
    Meaning.flatMap_labelsIn_of_mem
      (Script.nodup_scopes script) hc,
    c.filter_labels]
  split
  · exact c.map_op_labels
  · rfl

/- Every label and jump belongs to a copy on its path. -/
theorem exists_copy
    (h : Staged script source device encoded expanded
      maxThreads shared scheduled)
    {p : Path}
    (hp : p ∈ encoded)
    {op : Op}
    {scope : Nat}
    (hOp : op ∈ p.opsIn scope) :
    ∃ c ∈ script.copies, c.scope = scope ∧ c.path = p.id := by
  rw [h.opsIn_eq hp] at hOp
  rcases List.mem_map.mp hOp with ⟨i, hi, -⟩
  rcases List.mem_filter.mp hi with ⟨hi, hPath⟩
  rcases List.mem_flatMap.mp hi with ⟨c, hc, hi⟩
  unfold Meaning.labelsIn at hi
  split at hi
  · rename_i hScope
    refine ⟨c, hc, hScope, ?_⟩
    rw [c.path_of_mem_labels hi] at hPath
    simpa using hPath
  · cases hi

/- A copy with labels or jumps has a path. -/
theorem exists_path
    (h : Staged script source device encoded expanded
      maxThreads shared scheduled)
    {c : Copy}
    (hc : c ∈ script.copies)
    {op : Op}
    (hOp : op ∈ c.labelOps) :
    ∃ p ∈ encoded, p.id = c.path := by
  rw [← c.map_op_labels] at hOp
  rcases List.mem_map.mp hOp with ⟨i, hi, -⟩
  have hPath := c.path_of_mem_labels hi
  rw [← Meaning.flatMap_labelsIn_of_mem
    (Script.nodup_scopes script) hc,
    ← Script.filter_expanded h.expand] at hi
  have hId : c.path ∈ encoded.map Path.id := by
    rw [h.map_id]
    exact Path.mem_order (List.mem_of_mem_filter hi) hPath
  exact List.mem_map.mp hId

/- Jumps without labels are those of dangling copies. -/
theorem exists_unlabelled_iff
    (h : Staged script source device encoded expanded
      maxThreads shared scheduled) :
    (∃ p ∈ encoded, ∃ s ∈ p.steps, ∃ label scope,
        s.op = .goto label scope ∧
          p.labelBit? label scope = none) ↔
      ∃ c ∈ script.copies, c.function.Dangling := by
  constructor
  · rintro ⟨p, hp, s, hs, label, scope, hOp, hNone⟩
    have hGoto : .goto label scope ∈ p.opsIn scope :=
      Path.mem_opsIn.mpr ⟨⟨s, hs, hOp⟩, rfl⟩
    rcases h.exists_copy hp hGoto with ⟨c, hc, rfl, hPath⟩
    have hOps := h.opsIn_of_copy hc hp
    rw [if_pos hPath.symm] at hOps
    refine ⟨c, hc, c.dangling_iff.mpr ⟨label, ?_, ?_⟩⟩
    · rwa [← hOps]
    · rw [← hOps, Path.mem_opsIn]
      rintro ⟨⟨t, ht, hHere⟩, -⟩
      exact Path.labelBit?_eq_none_iff.mp hNone t ht hHere
  · rintro ⟨c, hc, hDangling⟩
    rcases c.dangling_iff.mp hDangling
      with ⟨label, hGoto, hHere⟩
    rcases h.exists_path hc hGoto with ⟨p, hp, hPath⟩
    have hOps := h.opsIn_of_copy hc hp
    rw [if_pos hPath] at hOps
    rw [← hOps] at hGoto hHere
    rcases Path.mem_opsIn.mp hGoto with ⟨⟨s, hs, hOp⟩, -⟩
    refine ⟨p, hp, s, hs, label, c.scope, hOp, ?_⟩
    rw [Path.labelBit?_eq_none_iff]
    intro t ht hLabel
    exact hHere (Path.mem_opsIn.mpr ⟨⟨t, ht, hLabel⟩, rfl⟩)

end Staged

------------------------------------------------------------
-- Copies In A Layout
------------------------------------------------------------

/-
  A laid-out path holds a copy: of the scope of the copy, it
  has the labels and jumps of the body, in order, and every
  such jump leads to the first such label.
-/
structure Path.Holds
    (q : Path)
    (c : Meaning.Copy) : Prop where
  ops : q.opsIn c.scope = c.labelOps
  jumps : ∀ t ∈ q.steps, ∀ label,
    t.op = .goto label c.scope →
      q.JumpsToFirst t label c.scope

namespace Staged

/- Laid-out paths come from encoded ones. -/
theorem exists_encoded
    {paths : List Path}
    (h : Path.finalize encoded = .ok paths) :
    ∀ q ∈ paths, ∃ p ∈ encoded, ∃ bit,
      Path.LaidOut bit p q :=
  Success.exists_of_forall₂
    (Path.laidOutFrom_of_finalize h).forall₂_laidOut

theorem map_id_finalize
    {paths : List Path}
    (h : Path.finalize encoded = .ok paths) :
    paths.map Path.id = encoded.map Path.id := by
  have hLaid := Path.laidOutFrom_of_finalize h
  refine Success.map_eq_of_forall₂ ?_ hLaid.forall₂_laidOut
  rintro p q ⟨bit, hPath⟩
  exact hPath.id_eq

/- In a layout, a copy is on its own path and nowhere else. -/
theorem holds_of_copy
    (h : Staged script source device encoded expanded
      maxThreads shared scheduled)
    {paths : List Path}
    (hFinal : Path.finalize encoded = .ok paths)
    {c : Copy}
    (hc : c ∈ script.copies)
    {q : Path}
    (hq : q ∈ paths) :
    (q.id = c.path → q.Holds c) ∧
      (q.id ≠ c.path → q.opsIn c.scope = []) := by
  rcases exists_encoded hFinal q hq with ⟨p, hp, bit, hLaid⟩
  have hSame := Path.sameOps_of_laidOut hLaid
  have hOps := h.opsIn_of_copy hc hp
  rw [← hSame.opsIn_eq, ← hSame.1] at hOps
  constructor
  · intro hPath
    rw [if_pos hPath] at hOps
    refine ⟨hOps, ?_⟩
    intro t ht label hOp
    exact hLaid.jumpsToFirst (h.jumpsOpen p hp) t ht label _
      hOp
  · intro hPath
    rwa [if_neg hPath] at hOps

/- In a layout, a copy with labels or jumps has a path. -/
theorem exists_laidOut_path
    (h : Staged script source device encoded expanded
      maxThreads shared scheduled)
    {paths : List Path}
    (hFinal : Path.finalize encoded = .ok paths)
    {c : Copy}
    (hc : c ∈ script.copies)
    (hOps : c.labelOps ≠ []) :
    ∃ q ∈ paths, q.id = c.path := by
  rcases List.exists_mem_of_ne_nil _ hOps with ⟨op, hOp⟩
  rcases h.exists_path hc hOp with ⟨p, hp, hPath⟩
  have hId : c.path ∈ paths.map Path.id := by
    rw [map_id_finalize hFinal, ← hPath]
    exact List.mem_map_of_mem hp
  exact List.mem_map.mp hId

/- In a layout, every label and jump belongs to a copy. -/
theorem exists_copy_of_laidOut
    (h : Staged script source device encoded expanded
      maxThreads shared scheduled)
    {paths : List Path}
    (hFinal : Path.finalize encoded = .ok paths)
    {q : Path}
    (hq : q ∈ paths)
    {t : Step}
    (ht : t ∈ q.steps)
    {scope : Nat}
    (hScope : t.op.scope? = some scope) :
    ∃ c ∈ script.copies, c.scope = scope ∧ c.path = q.id := by
  rcases exists_encoded hFinal q hq with ⟨p, hp, bit, hLaid⟩
  have hSame := Path.sameOps_of_laidOut hLaid
  have hOp : t.op ∈ q.opsIn scope :=
    Path.mem_opsIn.mpr ⟨⟨t, ht, rfl⟩, hScope⟩
  rw [hSame.opsIn_eq] at hOp
  rw [hSame.1]
  exact h.exists_copy hp hOp

end Staged

end Stages

namespace Script

open Meaning (Copy)

/-
  Jumps stay in the copy that they are written in. If paths
  are laid out, every copy lies on one path, its labels and
  jumps are those of its body, and its jumps lead to its own
  first labels. They are not laid out exactly if a function
  that is called jumps to a label it does not have.
-/
theorem jumps_stay_in_their_copy
    {source : SourceText}
    {device : Device}
    {expanded : Expanded}
    {maxThreads : Nat}
    {shared : Std.HashSet Nat}
    {scheduled encoded : List Path}
    (hExpanded :
      (ofSource source).script.expand source device =
        .ok expanded)
    (hScheduled :
      Path.schedule maxThreads expanded.instructions =
        .ok scheduled)
    (hEncoded :
      Path.encodeAll device shared scheduled = .ok encoded)
    (hShort : ∀ p ∈ encoded, p.width < Nat.pow 2 32) :
    let script := (ofSource source).script
    (script.copies.map Copy.scope).Nodup ∧
      (∀ paths, Path.finalize encoded = .ok paths →
        (paths.map Path.id).Nodup ∧
          (∀ c ∈ script.copies, ∀ q ∈ paths,
            (q.id = c.path → q.Holds c) ∧
              (q.id ≠ c.path → q.opsIn c.scope = [])) ∧
          (∀ c ∈ script.copies, c.labelOps ≠ [] →
            ∃ q ∈ paths, q.id = c.path) ∧
          (∀ q ∈ paths, ∀ t ∈ q.steps, ∀ scope,
            t.op.scope? = some scope →
              ∃ c ∈ script.copies,
                c.scope = scope ∧ c.path = q.id)) ∧
      (∀ e, Path.finalize encoded = .error e →
        ∃ label span, e = ⟨.unresolvedLabel label, span⟩) ∧
      ((∃ label span,
          Path.finalize encoded =
            .error ⟨.unresolvedLabel label, span⟩) ↔
        ∃ f, Reachable script f ∧ f.Dangling) := by
  intro script
  have hStaged : Staged script source device encoded expanded
      maxThreads shared scheduled :=
    ⟨hExpanded, hScheduled, hEncoded⟩
  refine ⟨nodup_scopes script, ?_, ?_, ?_⟩
  · intro paths hFinal
    refine ⟨?_, ?_, ?_, ?_⟩
    · rw [Staged.map_id_finalize hFinal]
      exact hStaged.nodup_id
    · intro c hc q hq
      exact hStaged.holds_of_copy hFinal hc hq
    · intro c hc hOps
      exact hStaged.exists_laidOut_path hFinal hc hOps
    · intro q hq t ht scope hScope
      exact hStaged.exists_copy_of_laidOut hFinal hq ht hScope
  · intro e hFault
    rcases Path.finalize_eq_error hStaged.jumpsOpen hShort
      hFault with ⟨_, -, s, -, label, _, -, -, rfl⟩
    exact ⟨label, s.span, rfl⟩
  · rw [Path.finalize_eq_error_iff hStaged.jumpsOpen hShort,
      hStaged.exists_unlabelled_iff]
    have hCopies := exists_mem_copies_iff hExpanded
      (callsInline_ofSource source)
    constructor
    · rintro ⟨c, hc, hDangling⟩
      exact ⟨c.function, (hCopies _).mp ⟨c, hc, rfl⟩,
        hDangling⟩
    · rintro ⟨f, hReachable, hDangling⟩
      rcases (hCopies f).mpr hReachable with ⟨c, hc, rfl⟩
      exact ⟨c, hc, hDangling⟩

------------------------------------------------------------
-- A Script With Loops
------------------------------------------------------------

/- Two bodies, one inlined twice, use the same label. -/
def loops : SourceText :=
  ⟨"show",
    "@start\nhere: a\npause: 20ms\n" ++
    "call: @f (repeat = 2)\ngoto: a\n" ++
    "@f\nhere: a\ngoto: a\n"⟩

def loopsDevice : Device :=
  { tickMillis := 10, ledCount := 1 }

def loopsInstructions : List Instruction :=
  match (ofSource loops).script.expand loops loopsDevice with
  | .ok expanded => expanded.instructions
  | .error _ => []

/- The widths of its paths, if they are laid out. -/
def loopsWidths : Except Located (List Nat) := do
  let scheduled ← Path.schedule 256 loopsInstructions
  let encoded ← Path.encodeAll loopsDevice ∅ scheduled
  let _ ← Path.finalize encoded
  return encoded.map Path.width

theorem isOk_expand_loops :
    ((ofSource loops).script.expand loops
      loopsDevice).isOk = true := by
  decide +kernel

theorem ids_loops : Path.ids loopsInstructions = [0] := by
  have hPaths :
      loopsInstructions.filterMap Instruction.path =
        List.replicate 8 0 := by
    decide +kernel
  rw [Path.ids, hPaths]
  cbv

theorem order_loops :
    Path.order loopsInstructions = [(0, 0)] := by
  have hZOrder :
      Path.firstZOrder (Path.own loopsInstructions 0) =
        0 := by
    decide +kernel
  simp [Path.order, Path.keys, ids_loops, hZOrder]

theorem loopsWidths_eq : loopsWidths = .ok [138] := by
  simp only [loopsWidths, Path.schedule, ids_loops,
    order_loops, Path.finalize, Path.resolveAll,
    Path.resolve_eq]
  decide +kernel

theorem jumps_stay_in_their_copy_loops :
    ∃ expanded scheduled encoded paths,
      (ofSource loops).script.expand loops loopsDevice =
          .ok expanded ∧
        Path.schedule 256 expanded.instructions =
          .ok scheduled ∧
        Path.encodeAll loopsDevice ∅ scheduled =
          .ok encoded ∧
        (∀ p ∈ encoded, p.width < Nat.pow 2 32) ∧
        Path.finalize encoded = .ok paths ∧
        ∀ c ∈ (ofSource loops).script.copies, ∀ q ∈ paths,
          q.id = c.path → q.Holds c := by
  cases hExpanded :
      (ofSource loops).script.expand loops loopsDevice with
  | error log =>
      have hOk := isOk_expand_loops
      rw [hExpanded] at hOk
      cases hOk
  | ok expanded =>
      have hIs :
          loopsInstructions = expanded.instructions := by
        simp only [loopsInstructions, hExpanded]
      have hRun := loopsWidths_eq
      rw [loopsWidths, hIs] at hRun
      rcases Success.bind_eq_ok hRun
        with ⟨scheduled, hScheduled, hRun⟩
      rcases Success.bind_eq_ok hRun
        with ⟨encoded, hEncoded, hRun⟩
      rcases Success.bind_eq_ok hRun
        with ⟨paths, hPaths, hRun⟩
      have hWidths := Success.pure_eq_ok hRun
      have hShort :
          ∀ p ∈ encoded, p.width < Nat.pow 2 32 := by
        intro p hp
        have hMem := List.mem_map_of_mem (f := Path.width) hp
        rw [hWidths, List.mem_singleton] at hMem
        rw [hMem]
        decide
      rcases jumps_stay_in_their_copy hExpanded hScheduled
        hEncoded hShort with ⟨-, hLaid, -⟩
      rcases hLaid paths hPaths with ⟨-, hHolds, -⟩
      exact ⟨expanded, scheduled, encoded, paths, rfl,
        hScheduled, hEncoded, hShort, hPaths,
        fun c hc q hq => (hHolds c hc q hq).1⟩

end Script

end LightShow
