import LightShow.Device.Resolve
import LightShow.Proofs.Acceptance
import LightShow.Proofs.Encodable
import LightShow.Proofs.Jumps

/-
  What is read and expanded can be encoded.

  Each number of a record is checked somewhere before: the
  brightness of a color where it is read, LEDs and durations
  where a statement is expanded, the tick where the device
  is worked out. Paths are activated only together with the
  instruction that ends them, so there is a thread for every
  activation.

  Key definitions include:
    * `Action.Dim`
    * `Op.Checked`
    * `Meaning.Closed`

  Main statements:
    * `Script.allStatements_dim`
    * `Expander.checked_instructions`
    * `Meaning.closed_instructions`
    * `Script.accepted_scripts_encode`
-/

namespace LightShow

------------------------------------------------------------
-- Colors That Are Read
------------------------------------------------------------

/- A color whose brightness the device takes. -/
def Color.Dim (c : Color) : Prop :=
  c.bright.toNat ≤ 31

/- An action that shows such colors only. -/
def Action.Dim : Action → Prop
  | .glow _ color => color.Dim
  | .ramp _ start stop _ => start.Dim ∧ stop.Dim
  | _ => True

namespace Reader

/- A channel is read up to its largest value. -/
theorem gives_channel
    (ch : Channel) :
    Gives (fun v => v.toNat ≤ ch.maxValue) (channel ch) := by
  refine .after fun x => ?_
  rcases x with ⟨n, span⟩
  simp only
  split
  · rintro c v d ⟨⟩
  · rename_i hSmall
    have hLe := Nat.mod_le n (Nat.pow 2 8)
    exact gives_pure (Nat.le_trans hLe (Nat.not_lt.mp hSmall))

theorem gives_color : Gives Color.Dim color := by
  refine .after fun _ => .after fun red => ?_
  refine .after fun _ => .after fun green => ?_
  refine .after fun _ => .after fun blue => ?_
  refine .after fun _ => (gives_channel .bright).bind ?_
  intro bright hBright
  exact .after fun _ => gives_pure hBright

theorem gives_dim
    (start : Token) :
    Gives Action.Dim (action start) := by
  unfold action
  split
  · refine .after fun leds => gives_color.bind ?_
    exact fun shade hShade => gives_pure hShade
  · refine .after fun leds => gives_color.bind ?_
    intro first hFirst
    refine .after fun _ => gives_color.bind ?_
    intro last hLast
    refine .after fun _ => .after fun time => ?_
    exact gives_pure ⟨hFirst, hLast⟩
  · exact .after fun _ => gives_pure trivial
  · exact .after fun _ => gives_pure trivial
  · exact .after fun _ => gives_pure trivial
  · refine .after fun _ => .after fun _ => .after fun _ => ?_
    exact gives_pure trivial
  · refine .after fun _ => .after fun _ => .after fun _ => ?_
    exact gives_pure trivial
  · exact gives_ofExcept nofun

end Reader

/- Scripts that are read show no color too bright. -/
theorem Script.allStatements_dim
    (source : SourceText) :
    (ofSource source).script.AllStatements fun st =>
      st.action.Dim :=
  allStatements_ofSource Reader.gives_dim source

------------------------------------------------------------
-- Operations That Are Expanded
------------------------------------------------------------

/-
  An operation whose record can be made, once activations
  name threads instead of paths.
-/
def Op.Checked (device : Device) (op : Op) : Prop :=
  (∃ target, op = .activate target) ∨ op.Encodable device

namespace Meaning

/- LEDs that are on the device when counted from one. -/
theorem lt_of_mem_ledsOf
    {device : Device}
    {list : LedList}
    (h : list.On device) :
    ∀ led ∈ ledsOf list, led < device.ledCount := by
  intro led hLed
  rcases List.mem_map.mp hLed with ⟨n, hn, rfl⟩
  have hOn := h n hn
  omega

/- Forty-five days are fewer ticks than fit a record. -/
theorem ticks_lt
    {tick : Nat}
    {d : Duration}
    (h : d.Allowed tick) :
    d.amount * d.unit.factor tick / tick < Nat.pow 2 32 := by
  have hLe :=
    Nat.div_le_self (d.amount * d.unit.factor tick) tick
  have hShort := h.short
  have hMax : 3888000000 < Nat.pow 2 32 := by
    decide
  omega

/- The operations that an action itself stands for. -/
def ownOps (tick scope : Nat) : Action → List Op
  | .glow list color => [.glow (ledsOf list) color]
  | .ramp list start stop d =>
      [.glow (ledsOf list) start,
       .ramp (ledsOf list) start stop
         (d.amount * d.unit.factor tick),
       .glow (ledsOf list) stop]
  | .pause d => [.pause (d.amount * d.unit.factor tick)]
  | .here label => [.here label.text scope]
  | .goto label => [.goto label.text scope]
  | _ => []

/- Where an instruction of a statement comes from. -/
theorem mem_ofStatement
    {script : Script}
    {tick scope : Nat}
    {size : Function → Numbers}
    {body : Function → Site → List Instruction}
    {st : Statement}
    {site : Site}
    {i : Instruction}
    (h : i ∈ ofStatement script tick size body scope st
      site) :
    i.op ∈ ownOps tick scope st.action ∨
      i.op = .finish ∨
      (∃ target, i.op = .activate target) ∨
      ∃ g ∈ callees script st.action, ∃ inner,
        i ∈ body g inner := by
  rcases st with ⟨action, span⟩
  cases action with
  | call name count =>
      cases hFind : script.find? name.text with
      | none => simp [ofStatement, hFind] at h
      | some g =>
          simp only [ofStatement, hFind] at h
          rcases List.mem_flatMap.mp h with ⟨k, hk, hi⟩
          have hCount : count ≠ 0 :=
            Nat.ne_zero_of_lt (List.mem_range.mp hk)
          have hCallee :
              g ∈ callees script (.call name count) := by
            simp [callees, hCount, hFind]
          exact .inr (.inr (.inr ⟨g, hCallee, _, hi⟩))
  | callAsync name zOrder =>
      cases hFind : script.find? name.text with
      | none => simp [ofStatement, hFind] at h
      | some g =>
          have hCallee :
              g ∈ callees script
                (.callAsync name zOrder) := by
            simp [callees, hFind]
          simp only [ofStatement, hFind, activated] at h
          rcases List.mem_append.mp h with hi | hi
          · rcases List.mem_cons.mp hi with rfl | hi
            · exact .inr (.inr (.inl ⟨_, rfl⟩))
            · exact .inr (.inr (.inr ⟨g, hCallee, _, hi⟩))
          · rw [List.mem_singleton.mp hi]
            exact .inr (.inl rfl)
  | _ =>
      have hOp := List.mem_map_of_mem
        (f := Instruction.op) h
      exact .inl hOp

theorem exists_mem_ofStatement
    {script : Script}
    {tick scope : Nat}
    {size : Function → Numbers}
    {body : Function → Site → List Instruction}
    {sts : List Statement}
    {site : Site}
    {i : Instruction}
    (h : i ∈ ofStatements script tick size body scope sts
      site) :
    ∃ st ∈ sts, ∃ inner,
      i ∈ ofStatement script tick size body scope st
        inner := by
  induction sts generalizing site with
  | nil => cases h
  | cons st sts ih =>
      rcases List.mem_append.mp h with hFirst | hRest
      · exact ⟨st, List.mem_cons_self .., site, hFirst⟩
      · rcases ih hRest with ⟨st', hMem, hInner⟩
        exact ⟨st', List.mem_cons_of_mem st hMem, hInner⟩

end Meaning

/- Actions that fit the device have records. -/
theorem Action.encodable_of_mem_ownOps
    {device : Device}
    {scope : Nat}
    {action : Action}
    (hTick : device.tickMillis ≠ 0)
    (hFits : action.FitsOn device)
    (hDim : action.Dim) :
    ∀ op ∈ Meaning.ownOps device.tickMillis scope action,
      op.Encodable device := by
  cases action with
  | glow list color =>
      rintro _ (_ | ⟨_, ⟨⟩⟩)
      exact ⟨Meaning.lt_of_mem_ledsOf hFits, hDim⟩
  | ramp list start stop d =>
      have hLeds := Meaning.lt_of_mem_ledsOf hFits.1
      rintro _ (_ | ⟨_, _ | ⟨_, _ | ⟨_, ⟨⟩⟩⟩⟩)
      · exact ⟨hLeds, hDim.1⟩
      · exact ⟨hLeds, Meaning.ticks_lt hFits.2⟩
      · exact ⟨hLeds, hDim.2⟩
  | pause d =>
      rintro _ (_ | ⟨_, ⟨⟩⟩)
      exact ⟨hTick, hFits.2 hTick, Meaning.ticks_lt hFits.1⟩
  | here label =>
      rintro _ (_ | ⟨_, ⟨⟩⟩)
      trivial
  | goto label =>
      rintro _ (_ | ⟨_, ⟨⟩⟩)
      trivial
  | _ => exact nofun

theorem Meaning.mem_functions_of_mem_callees
    {script : Script}
    {action : Action}
    {g : Function}
    (h : g ∈ callees script action) :
    g ∈ script.functions := by
  cases action with
  | call name count =>
      simp only [callees] at h
      split at h
      · cases h
      · exact List.mem_of_find?_eq_some
          (Option.mem_toList.mp h)
  | callAsync name zOrder =>
      exact List.mem_of_find?_eq_some
        (Option.mem_toList.mp h)
  | _ => cases h

/- Whatever an admitted body expands to is checked. -/
theorem Expander.checked_instructions
    {e : Expander}
    (hTick : e.device.tickMillis ≠ 0)
    (hDim : e.script.AllStatements fun st => st.action.Dim)
    {depth : Nat}
    {callers : List String}
    {f : Function}
    (hFunction : f ∈ e.script.functions)
    (hAdmits : e.Admits depth callers f)
    (site : Meaning.Site) :
    ∀ i ∈ Meaning.instructions e.script e.device.tickMillis
        depth f site,
      i.op.Checked e.device := by
  induction depth generalizing callers f site with
  | zero => cases hAdmits
  | succ depth ih =>
      intro i hi
      rcases Meaning.exists_mem_ofStatement hi
        with ⟨st, hst, _, hi⟩
      have hAllows := hAdmits st hst
      rcases Meaning.mem_ofStatement hi
        with hOwn | hFinish | hActivate | hCall
      · exact .inr (Action.encodable_of_mem_ownOps hTick
          hAllows.fitsOn (hDim f hFunction st hst) _ hOwn)
      · rw [hFinish]
        exact .inr trivial
      · exact .inl hActivate
      · rcases hCall with ⟨g, hCallee, inner, hi⟩
        exact ih (Meaning.mem_functions_of_mem_callees hCallee)
          (hAllows.inner_of_mem hCallee) inner i hi

------------------------------------------------------------
-- Paths That Are Activated
------------------------------------------------------------

namespace Meaning

/- Every path that is activated has an instruction. -/
def Closed (is : List Instruction) : Prop :=
  ∀ target ∈ activations is, ∃ i ∈ is, i.path = some target

/- Activations then name paths that there are. -/
theorem Closed.mem_ids
    {is : List Instruction}
    (h : Closed is) :
    ∀ i ∈ is, ∀ target, i.op = .activate target →
      target ∈ Path.ids is := by
  intro i hi target hOp
  apply Path.mem_ids.mpr
  apply h target
  exact List.mem_filterMap.mpr ⟨i, hi, by rw [hOp]⟩

/- Without activations no path is missing. -/
theorem closed_of_activations_eq_nil
    {is : List Instruction}
    (h : activations is = []) :
    Closed is := by
  intro target hTarget
  rw [h] at hTarget
  cases hTarget

theorem Closed.append
    {is js : List Instruction}
    (his : Closed is)
    (hjs : Closed js) :
    Closed (is ++ js) := by
  intro target hTarget
  rw [activations_append] at hTarget
  rcases List.mem_append.mp hTarget with hTarget | hTarget
  · rcases his target hTarget with ⟨i, hi, hPath⟩
    exact ⟨i, List.mem_append_left js hi, hPath⟩
  · rcases hjs target hTarget with ⟨j, hj, hPath⟩
    exact ⟨j, List.mem_append_right is hj, hPath⟩

theorem closed_flatMap
    {α : Type}
    {xs : List α}
    {f : α → List Instruction}
    (h : ∀ x ∈ xs, Closed (f x)) :
    Closed (xs.flatMap f) := by
  induction xs with
  | nil => exact closed_of_activations_eq_nil rfl
  | cons x xs ih =>
      rcases List.forall_mem_cons.mp h with ⟨hFirst, hRest⟩
      rw [List.flatMap_cons]
      exact hFirst.append (ih hRest)

/- A path that is activated is ended as well. -/
theorem closed_activated
    {body : Site → List Instruction}
    (hBody : ∀ site, Closed (body site))
    (caller : Option Nat)
    (callerZ zOrder : Nat)
    (span : Span)
    (next : Numbers) :
    Closed
      (activated body caller callerZ zOrder span next) := by
  let site : Site := ⟨next.paths, zOrder, next.add ⟨1, 0⟩⟩
  have hEnd : Closed [emit site span .finish] :=
    closed_of_activations_eq_nil rfl
  intro target hTarget
  have hCases :
      target = next.paths ∨
        target ∈ activations
          (body site ++ [emit site span .finish]) :=
    List.mem_cons.mp hTarget
  rcases hCases with rfl | hInner
  · exact ⟨emit site span .finish, by simp [activated, site],
      rfl⟩
  · rcases (hBody site).append hEnd target hInner
      with ⟨i, hi, hPath⟩
    exact ⟨i, List.mem_cons_of_mem _ hi, hPath⟩

theorem closed_ofStatement
    {script : Script}
    {tick : Nat}
    {size : Function → Numbers}
    {body : Function → Site → List Instruction}
    (hBody : ∀ f site, Closed (body f site))
    (scope : Nat)
    (st : Statement)
    (site : Site) :
    Closed
      (ofStatement script tick size body scope st site) := by
  rcases st with ⟨action, span⟩
  cases action with
  | call name count =>
      cases hFind : script.find? name.text with
      | none =>
          simp only [ofStatement, hFind]
          exact closed_of_activations_eq_nil rfl
      | some f =>
          simp only [ofStatement, hFind]
          exact closed_flatMap fun i _ => hBody f _
  | callAsync name zOrder =>
      cases hFind : script.find? name.text with
      | none =>
          simp only [ofStatement, hFind]
          exact closed_of_activations_eq_nil rfl
      | some f =>
          simp only [ofStatement, hFind]
          exact closed_activated (hBody f) _ _ _ _ _
  | _ => exact closed_of_activations_eq_nil rfl

theorem closed_instructions
    (script : Script)
    (tick depth : Nat)
    (f : Function)
    (site : Site) :
    Closed (instructions script tick depth f site) := by
  induction depth generalizing f site with
  | zero => exact closed_of_activations_eq_nil rfl
  | succ depth ih =>
      have hAll (sts : List Statement) (next : Site) :
          Closed (ofStatements script tick
            (used script depth)
            (instructions script tick depth) site.next.scopes
            sts next) := by
        induction sts generalizing next with
        | nil => exact closed_of_activations_eq_nil rfl
        | cons st sts ihs =>
            exact (closed_ofStatement ih _ st next).append
              (ihs _)
      exact hAll _ _

end Meaning

------------------------------------------------------------
-- Devices And Whole Scripts
------------------------------------------------------------

/- A device that passes its check has ticks. -/
theorem Device.tickMillis_ne_zero_of_validate
    {device : Device}
    (h : device.validate = .ok ()) :
    device.tickMillis ≠ 0 :=
  (validate_eq_ok_iff.mp h).2.1

theorem Device.validate_of_resolve
    {source : SourceText}
    {script : Script}
    {overrides : List (String × String)}
    {device : Device}
    (h : resolve source script overrides = .ok device) :
    device.validate = .ok () := by
  unfold resolve at h
  split at h
  · cases h
  · simp only at h
    split at h
    · cases h
    · split at h
      · rename_i hValid
        cases h
        exact hValid
      · cases h

namespace Script

variable {source : SourceText}
variable {device : Device}
variable {expanded : Expanded}

/- All that a script expands to is checked and closed. -/
theorem checked_and_closed_of_expand
    {script : Script}
    (hTick : device.tickMillis ≠ 0)
    (hDim : script.AllStatements fun st => st.action.Dim)
    (h : script.expand source device = .ok expanded) :
    (∀ i ∈ expanded.instructions, i.op.Checked device) ∧
      Meaning.Closed expanded.instructions := by
  let e : Expander := ⟨script, source, device⟩
  rcases e.errors_run_eq_zero_iff.mp (expand_eq_ok h).1
    with ⟨start, hStart, hAdmits, -⟩
  rcases expand_yields h with ⟨first, hFirst, -, hAll⟩
  cases hStart.symm.trans hFirst
  rw [(hAll _ (Nat.lt_succ_self _)).2]
  constructor
  · intro i hi
    rcases List.mem_append.mp hi with hi | hi
    · rcases List.mem_cons.mp hi with rfl | hi
      · exact .inl ⟨_, rfl⟩
      · exact Expander.checked_instructions (e := e) hTick
          hDim (List.mem_of_find?_eq_some hStart) hAdmits _ i
          hi
    · rw [List.mem_singleton.mp hi]
      exact .inr trivial
  · exact Meaning.closed_activated
      (Meaning.closed_instructions script device.tickMillis _
        start) _ _ _ _ _

/-
  Whatever is read, worked out and expanded can be encoded:
  if there are no more paths than threads, each activation
  has a thread and every step has a record, whichever LEDs
  are shared. That the text has no errors is not needed.
-/
theorem accepted_scripts_encode
    {overrides : List (String × String)}
    {maxThreads : Nat}
    (hThreads : maxThreads ≤ 256)
    (hDevice :
      Device.resolve source (ofSource source).script
        overrides = .ok device)
    (hExpanded :
      (ofSource source).script.expand source device =
        .ok expanded)
    (hFew : ∀ count max span,
      Path.schedule maxThreads expanded.instructions ≠
        .error ⟨.tooManyThreads count max, span⟩) :
    ∃ scheduled,
      Path.schedule maxThreads expanded.instructions =
          .ok scheduled ∧
        ∀ shared, ∃ encoded,
          Path.encodeAll device shared scheduled =
            .ok encoded := by
  have hTick := Device.tickMillis_ne_zero_of_validate
    (Device.validate_of_resolve hDevice)
  rcases checked_and_closed_of_expand hTick
    (allStatements_dim source) hExpanded
    with ⟨hChecked, hClosed⟩
  have hCount :
      (Path.ids expanded.instructions).length ≤
        maxThreads := by
    by_contra hMany
    exact hFew _ _ _ (Path.schedule_of_lt
      (Nat.lt_of_not_le hMany))
  rcases Path.delivers_schedule hCount hClosed.mem_ids
    with ⟨scheduled, hScheduled, -⟩
  refine ⟨scheduled, hScheduled, ?_⟩
  have hEncodable : ∀ p ∈ scheduled, ∀ s ∈ p.steps,
      s.op.Encodable device := by
    intro p hp s hs
    rcases Path.exists_instruction hScheduled hp hs
      with ⟨i, hi, ⟨hOp, hOther⟩ | ⟨_, _, -, hOp, hThread⟩⟩
    · rw [hOp]
      rcases hChecked i hi with ⟨target, hActivate⟩ | hOk
      · exact absurd hActivate (hOther target)
      · exact hOk
    · rw [hOp]
      exact Nat.lt_of_lt_of_le hThread
        (Nat.le_trans hCount hThreads)
  intro shared
  rcases Path.delivers_encodeAll hEncodable shared
    with ⟨encoded, hEncoded, -⟩
  exact ⟨encoded, hEncoded⟩

------------------------------------------------------------
-- A Script With Two Paths
------------------------------------------------------------

/- A ramp beside a pause, for a device with two LEDs. -/
def flash : SourceText :=
  ⟨"show",
    "device: ledCount = \"2\"\n" ++
    "@start\ncallAsync: @glow (zorder = 3)\npause: 5t\n" ++
    "@glow\n" ++
    "glowRamp: [1-2] (0,0,0,0) to (255,9,0,31) in 2s\n"⟩

def flashOverrides : List (String × String) :=
  [("tickIntervalMillisecs", "10")]

def flashDevice : Device :=
  { tickMillis := 10, ledCount := 2 }

def flashInstructions : List Instruction :=
  ((ofSource flash).script.expand flash
    flashDevice).toOption.elim [] Expanded.instructions

/- What each stage makes of it; it is read only once. -/
theorem stages_flash :
    (ofSource flash).log.hasErrors = false ∧
      (Device.resolve flash (ofSource flash).script
        flashOverrides).toOption = some flashDevice ∧
      ((ofSource flash).script.expand flash
        flashDevice).isOk = true ∧
      flashInstructions.filterMap Instruction.path =
        [0, 1, 1, 1, 1, 0, 0] := by
  decide +kernel

theorem resolve_flash :
    Device.resolve flash (ofSource flash).script
      flashOverrides = .ok flashDevice := by
  have hOption := stages_flash.2.1
  cases h : Device.resolve flash (ofSource flash).script
      flashOverrides with
  | error log =>
      rw [h] at hOption
      cases hOption
  | ok device =>
      rw [h] at hOption
      cases hOption
      rfl

theorem ids_flash : Path.ids flashInstructions = [0, 1] := by
  rw [Path.ids, stages_flash.2.2.2]
  cbv

theorem accepted_scripts_encode_flash :
    ∃ expanded scheduled,
      (ofSource flash).log.hasErrors = false ∧
        Device.resolve flash (ofSource flash).script
          flashOverrides = .ok flashDevice ∧
        (ofSource flash).script.expand flash flashDevice =
          .ok expanded ∧
        Path.schedule 2 expanded.instructions =
          .ok scheduled ∧
        ∃ encoded,
          Path.encodeAll flashDevice {1} scheduled =
            .ok encoded := by
  rcases Success.exists_of_isOk stages_flash.2.2.1
    with ⟨expanded, hExpanded⟩
  have hIs :
      flashInstructions = expanded.instructions := by
    rw [flashInstructions, hExpanded]
    rfl
  have hClosed := (checked_and_closed_of_expand
    (by decide) (allStatements_dim flash) hExpanded).2
  have hCount :
      (Path.ids expanded.instructions).length ≤ 2 := by
    rw [← hIs, ids_flash]
    decide
  have hFew : ∀ count max span,
      Path.schedule 2 expanded.instructions ≠
        .error ⟨.tooManyThreads count max, span⟩ := by
    rcases Path.delivers_schedule hCount hClosed.mem_ids
      with ⟨scheduled, hScheduled, -⟩
    rw [hScheduled]
    exact nofun
  rcases accepted_scripts_encode (by decide) resolve_flash
    hExpanded hFew with ⟨scheduled, hScheduled, hEncoded⟩
  exact ⟨expanded, scheduled, stages_flash.1, resolve_flash,
    hExpanded, hScheduled, hEncoded {1}⟩

end Script

end LightShow
