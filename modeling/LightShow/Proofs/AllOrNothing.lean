import LightShow.Compile
import LightShow.Proofs.Acceptance
import LightShow.Proofs.DistinctNames
import LightShow.Proofs.HeaderRoom
import LightShow.Proofs.Jumps
import LightShow.Proofs.PairedRuns
import LightShow.Proofs.PlacedShows

/-
  Compilation gives all or nothing.

  Every stage fills its log error by error, so a stage that
  fails leaves at least one error behind, and a show that is
  handed on has none. A show is only handed on when every
  check on the way to it succeeded; warnings do not matter.

  Key definitions include:
    * `Compiled.Gated`
    * `Compilation.Delivers`
    * `Compilation.Refuses`

  Main statements:
    * `compile_eq_ok`
    * `errors_ne_nil_of_compile`
    * `Compiled.gated_of_compile`
    * `compilation_all_or_nothing`
-/

namespace LightShow

------------------------------------------------------------
-- Logs Of The Stages
------------------------------------------------------------

namespace Token

/- Collecting tokens from pieces keeps a log exact. -/
theorem exact_collect
    (source : SourceText)
    (pieces : List Piece)
    (p : Position)
    {log : Log}
    (h : log.Exact) :
    (collect source pieces p log).log.Exact := by
  induction pieces generalizing p log with
  | nil => exact h
  | cons q qs ih =>
      unfold collect
      rcases q with ⟨lexeme, chars⟩
      cases lexeme with
      | gap => exact ih _ h
      | stray fault =>
          have hPushed := h.pushError
            (faultAt source fault
              (.between p (p.advanceAll chars)))
          dsimp only
          split
          · exact hPushed
          · exact ih _ hPushed
      | token kind fault =>
          cases fault with
          | none => exact ih _ h
          | some fault =>
              have hPushed := h.pushError
                (faultAt source fault
                  (.between p (p.advanceAll chars)))
              dsimp only
              split
              · exact hPushed
              · exact ih _ hPushed

theorem exact_ofSource
    (source : SourceText) :
    (ofSource source).log.Exact := by
  rw [ofSource_eq_collect]
  exact exact_collect source _ _ Log.exact_empty

end Token

/- The log of a script that was read is exact. -/
theorem Script.exact_ofSource
    (source : SourceText) :
    (ofSource source).log.Exact :=
  (Token.exact_ofSource source).extend
    (exact_ofTokens source _)

namespace Device

theorem exact_foldl_assign
    (source : SourceText)
    (settings : List Assignment)
    (acc : Device × Log)
    (h : acc.2.Exact) :
    (settings.foldl (assign source) acc).2.Exact := by
  induction settings generalizing acc with
  | nil => exact h
  | cons a settings ih =>
      refine ih _ ?_
      unfold assign
      split
      · exact h
      · exact h.pushError _

/- No device results only with an error that says why. -/
theorem errors_ne_nil_of_resolve
    {source : SourceText}
    {script : Script}
    {overrides : List (String × String)}
    {log : Log}
    (h : resolve source script overrides = .error log) :
    log.errors ≠ [] := by
  unfold resolve at h
  split at h
  · cases h
    exact List.cons_ne_nil _ _
  · have hExact := exact_foldl_assign source
      (assignments script overrides) ({}, .empty)
      Log.exact_empty
    dsimp only at h
    split at h
    · rename_i hErrors
      cases h
      rw [ne_eq, hExact.errors_eq_nil_iff, hErrors]
      exact nofun
    · split at h
      · cases h
      · cases h
        exact List.cons_ne_nil _ _

end Device

namespace Expansion

theorem exact_report
    {s : Expansion}
    (h : s.log.Exact)
    (source : SourceText)
    (fault : ExpandFault)
    (span : Span) :
    (s.report source fault span).log.Exact := by
  unfold report
  split
  · exact h
  · exact h.pushError _

theorem exact_warnLabel
    {s : Expansion}
    (h : s.log.Exact)
    (source : SourceText)
    (label : String)
    (span : Span) :
    (s.warnLabel source label span).log.Exact := by
  unfold warnLabel
  split <;> exact h

end Expansion

theorem Expander.exact_run
    (e : Expander) :
    e.run.log.Exact :=
  reports_run (Q := fun log _ => log.Exact)
    (fun _ fault span h =>
      Expansion.exact_report h e.source fault span)
    (fun _ label span h =>
      Expansion.exact_warnLabel h e.source label span)
    Log.exact_empty

/- A script that does not expand has an error. -/
theorem Script.errors_ne_nil_of_expand
    {script : Script}
    {source : SourceText}
    {device : Device}
    {log : Log}
    (h : script.expand source device = .error log) :
    log.errors ≠ [] := by
  have hExact := Expander.exact_run ⟨script, source, device⟩
  unfold expand at h
  dsimp only at h
  split at h
  · rename_i hErrors
    cases h
    rw [ne_eq, hExact.errors_eq_nil_iff, hErrors]
    exact nofun
  · cases h

------------------------------------------------------------
-- Stages Of A Compilation
------------------------------------------------------------

/- The stages behind a compilation that succeeds. -/
theorem compile_eq_ok
    {source : SourceText}
    {options : Options}
    {c : Compiled}
    (h : compile source options = .ok c) :
    let draft := Script.ofSource source
    ∃ expanded,
      draft.log.hasErrors = false ∧
        Device.resolve source draft.script
            options.overrides =
          .ok c.device ∧
        draft.script.expand source c.device =
          .ok expanded ∧
        Show.buildWith ⟨c.device, options.limits⟩
            expanded.instructions =
          .ok (c.finished, c.placed) ∧
        c.warnings =
          warnDark source draft.script c.finished.brightness
            (draft.log.extend expanded.warnings) := by
  intro draft
  unfold compile Draft.compile at h
  dsimp only at h
  split at h
  · cases h
  · rename_i hNone
    rcases Success.bind_eq_ok h with ⟨-, -, h⟩
    rcases Success.bind_eq_ok h with ⟨device, hDevice, h⟩
    rcases Success.bind_eq_ok h with ⟨expanded, hExpanded, h⟩
    split at h
    · cases h
    · rename_i finished placed hBuilt
      cases Success.pure_eq_ok h
      exact ⟨expanded, Bool.eq_false_iff.mpr hNone, hDevice,
        hExpanded, hBuilt, rfl⟩

/- A compilation that fails leaves an error behind. -/
theorem errors_ne_nil_of_compile
    {source : SourceText}
    {options : Options}
    {log : Log}
    (h : compile source options = .error log) :
    log.errors ≠ [] := by
  unfold compile Draft.compile at h
  dsimp only at h
  split at h
  · rename_i hErrors
    cases h
    rw [ne_eq, (Script.exact_ofSource source).errors_eq_nil_iff,
      hErrors]
    exact nofun
  rcases Success.bind_eq_error h with h | ⟨device, -, h⟩
  · exact Device.errors_ne_nil_of_resolve h
  rcases Success.bind_eq_error h with h | ⟨expanded, -, h⟩
  · exact Script.errors_ne_nil_of_expand h
  split at h
  · cases h
    exact List.cons_ne_nil _ _
  · cases h

------------------------------------------------------------
-- Gates
------------------------------------------------------------

/- The bytes of the header and of each path. -/
def Placed.headerSize (p : Placed) : Nat :=
  p.header.record.bits.length / 8

def Placed.pathSizes (p : Placed) : List Nat :=
  p.paths.map fun q => (pathBits q).length / 8

namespace Compiled

/- The RAM that a show needs. -/
def ramNeed (c : Compiled) : Nat :=
  if c.device.saveToRom then
    c.placed.headerSize + Path.largest c.placed.pathSizes
  else c.finished.image.length

/- The ROM that a show needs. -/
def romNeed (c : Compiled) : Nat :=
  if c.device.saveToRom then c.finished.image.length else 0

/- What a show went through before it is handed on. -/
structure Gated
    (c : Compiled)
    (source : SourceText)
    (options : Options) : Prop where
  /- The device is the one described, and makes sense. -/
  described :
    Device.resolve source (Script.ofSource source).script
      options.overrides = .ok c.device
  protocol : c.device.protocol = "1.0"
  leds : c.device.ledCount ≠ 0
  tick : c.device.tickMillis ≠ 0
  packet : c.device.usbPacketBytes ≠ 0
  /- There is a thread for each path, and room for all. -/
  threads : c.placed.paths.length ≤ options.limits.maxThreads
  ram : c.ramNeed ≤ c.device.ramBytes
  rom : c.romNeed ≤ c.device.romBytes
  reported :
    c.finished.usage = {
      threads := c.placed.paths.length
      maxThreads := options.limits.maxThreads
      ram := c.ramNeed
      maxRam := c.device.ramBytes
      rom := c.romNeed
      maxRom := c.device.romBytes }
  /- Every LED and duration of a body that is called fits. -/
  fits : ∀ f, (Script.ofSource source).script.Reachable f →
    ∀ st ∈ f.body, st.action.FitsOn c.device
  /- Every jump of a body that is called has its label. -/
  jumps : ∀ f, (Script.ofSource source).script.Reachable f →
    ¬f.Dangling

end Compiled

/- A usage that is accepted is within its limits. -/
theorem Usage.check_eq_ok
    {u v : Usage}
    (h : u.check = .ok v) :
    v = u ∧ u.ram ≤ u.maxRam ∧ u.rom ≤ u.maxRom := by
  unfold check at h
  split at h
  · cases h
  · rename_i hRam
    split at h
    · cases h
    · rename_i hRom
      cases h
      exact ⟨rfl, Nat.not_lt.mp hRam, Nat.not_lt.mp hRom⟩

namespace Script

/- A script that expands asks for nothing that is not there. -/
theorem fits_of_expand
    {script : Script}
    {source : SourceText}
    {device : Device}
    {expanded : Expanded}
    (hInline : script.CallsInline)
    (h : script.expand source device = .ok expanded) :
    ∀ f, script.Reachable f → ∀ st ∈ f.body,
      st.action.FitsOn device := by
  intro f hf st hst
  rcases (Expander.errors_run_eq_zero_iff _).mp
    (expand_eq_ok h).1 with ⟨start, hStart, hAdmits, -⟩
  rcases hf.exists_admits (e := ⟨script, source, device⟩)
    hInline hStart hAdmits with ⟨_, _, hBody⟩
  exact (hBody st hst).fitsOn

/- A layout has labels for all jumps of what is called. -/
theorem not_dangling_of_finalize
    {script : Script}
    {source : SourceText}
    {device : Device}
    {expanded : Expanded}
    {maxThreads : Nat}
    {shared : Std.HashSet Nat}
    {scheduled encoded paths : List Path}
    (hInline : script.CallsInline)
    (hStaged : Staged script source device encoded expanded
      maxThreads shared scheduled)
    (hPaths : Path.finalize encoded = .ok paths)
    {f : Function}
    (hf : script.Reachable f) :
    ¬f.Dangling := by
  intro hDangling
  rcases (exists_mem_copies_iff hStaged.expand hInline f).mpr hf
    with ⟨c, hc, rfl⟩
  rcases hStaged.exists_unlabelled_iff.mpr ⟨c, hc, hDangling⟩
    with ⟨p, hp, s, hs, label, scope, hOp, hNone⟩
  have hLaid := Path.laidOutFrom_of_finalize hPaths
  rcases hLaid.exists_laidOut p hp with ⟨bit, q, hq⟩
  rcases hq.exists_target (hStaged.jumpsOpen p hp) s hs label
    scope hOp with ⟨target, hTarget, -⟩
  rw [hNone] at hTarget
  cases hTarget

end Script

namespace Placed

variable {p : Placed}
variable {encoded : List Path}

/- The numbers of a header are the sizes of its records. -/
theorem Measured.headerSize_eq
    (h : p.Measured encoded) :
    p.headerSize = p.header.byteLength := by
  unfold headerSize
  rw [h.header]
  omega

theorem Measured.largest_pathSizes
    (h : p.Measured encoded) :
    Path.largest p.pathSizes = p.header.maxPathBytes := by
  simp only [pathSizes, length_pathBits, h.longest]

end Placed

/- Nothing is handed on without having passed each gate. -/
theorem Compiled.gated_of_compile
    {source : SourceText}
    {options : Options}
    {c : Compiled}
    (h : compile source options = .ok c) :
    c.Gated source options := by
  rcases compile_eq_ok h
    with ⟨expanded, -, hDevice, hExpanded, hBuilt, -⟩
  rcases Show.buildWith_eq_ok hBuilt
    with ⟨scheduled, encoded, usage, hCheck, hScheduled,
      hEncoded, hPaths, hHeader, hUsage, hShow⟩
  rcases Show.measured_of_buildWith hBuilt
    with ⟨_, _, -, -, -, hMeasured⟩
  rcases Target.check_eq_ok hCheck with ⟨hProtocol, hValid⟩
  rcases Device.validate_eq_ok_iff.mp hValid
    with ⟨hLeds, hTick, hPacket⟩
  rcases Usage.check_eq_ok hUsage with ⟨rfl, hRam, hRom⟩
  have hInline := Script.callsInline_ofSource source
  have hImage :
      c.finished.image = c.placed.image
        ⟨c.device, options.limits⟩ := by
    rw [hShow]
  have hNeeds :
      Usage.of c.device options.limits c.placed.paths.length
          c.placed.header.byteLength
          c.placed.header.maxPathBytes
          (c.placed.image ⟨c.device, options.limits⟩).length = {
        threads := c.placed.paths.length
        maxThreads := options.limits.maxThreads
        ram := c.ramNeed
        maxRam := c.device.ramBytes
        rom := c.romNeed
        maxRom := c.device.romBytes } := by
    rw [Compiled.ramNeed, Compiled.romNeed,
      hMeasured.headerSize_eq, hMeasured.largest_pathSizes,
      hImage]
    rfl
  rw [hNeeds] at hRam hRom
  have hThreads :
      c.placed.paths.length ≤ options.limits.maxThreads := by
    rw [Header.length_of_stages hScheduled hEncoded hPaths]
    exact Path.length_ids_le_of_schedule hScheduled
  exact {
    described := hDevice
    protocol := hProtocol
    leds := hLeds
    tick := hTick
    packet := hPacket
    threads := hThreads
    ram := hRam
    rom := hRom
    reported := by
      rw [hShow]
      exact hNeeds
    fits := Script.fits_of_expand hInline hExpanded
    jumps := fun f hf =>
      Script.not_dangling_of_finalize hInline
        ⟨hExpanded, hScheduled, hEncoded⟩ hPaths hf }

------------------------------------------------------------
-- What Is Handed On
------------------------------------------------------------

/- The warnings of a script that expands count no error. -/
theorem Script.warnings_of_expand
    {script : Script}
    {source : SourceText}
    {device : Device}
    {expanded : Expanded}
    (h : script.expand source device = .ok expanded) :
    expanded.warnings.Exact ∧
      expanded.warnings.totalErrors = 0 := by
  have hExact := Expander.exact_run ⟨script, source, device⟩
  have hErrors := (expand_eq_ok h).1
  unfold expand at h
  dsimp only at h
  split at h
  · cases h
  · cases h
    exact ⟨hExact, hErrors⟩

theorem warnDark_errors
    (source : SourceText)
    (script : Script)
    (brightness : Nat)
    (log : Log) :
    (warnDark source script brightness log).errors =
        log.errors ∧
      (warnDark source script brightness log).totalErrors =
        log.totalErrors := by
  unfold warnDark
  split <;> exact ⟨rfl, rfl⟩

/- A show is handed on without errors. -/
theorem Compiled.no_errors_of_compile
    {source : SourceText}
    {options : Options}
    {c : Compiled}
    (h : compile source options = .ok c) :
    c.warnings.errors = [] ∧ c.warnings.totalErrors = 0 := by
  rcases compile_eq_ok h
    with ⟨expanded, hNone, -, hExpanded, -, hWarnings⟩
  rcases Script.warnings_of_expand hExpanded
    with ⟨hExact, hZero⟩
  have hJoined := (Script.exact_ofSource source).extend hExact
  have hTotal :
      ((Script.ofSource source).log.extend
        expanded.warnings).totalErrors = 0 := by
    rw [Log.totalErrors_extend _ hExact, hZero, Nat.add_zero]
    simpa [Log.hasErrors] using hNone
  have hDark := warnDark_errors source
    (Script.ofSource source).script c.finished.brightness
    ((Script.ofSource source).log.extend expanded.warnings)
  rw [hWarnings, hDark.1, hDark.2, hJoined.errors_eq_nil_iff,
    Log.hasErrors, hTotal]
  exact ⟨rfl, rfl⟩

namespace Compilation

/- A show with all that belongs to it, and no error. -/
structure Delivers
    (out : Compilation)
    (c : Compiled) : Prop where
  success : out.success = true
  image : out.image = some c.finished.image
  packets : out.packets = some c.finished.packets
  usage : out.usage = some c.finished.usage
  digest :
    out.digest =
      some (Text.hex (Sha256.digest c.finished.image))
  device : out.device = some c.device
  log : out.log = c.warnings
  stored : out.log.errors = []
  counted : out.log.totalErrors = 0

/- Nothing but errors, of which there are some. -/
structure Refuses (out : Compilation) : Prop where
  success : out.success = false
  image : out.image = none
  packets : out.packets = none
  usage : out.usage = none
  digest : out.digest = none
  device : out.device = none
  stored : out.log.errors ≠ []

end Compilation

/-
  Either a show is handed on that went through every gate,
  with all that belongs to it and without errors, or nothing
  is handed on but errors. Warnings never decide.
-/
theorem compilation_all_or_nothing
    (source : SourceText)
    (options : Options) :
    (∃ c,
        compile source options = .ok c ∧
          (compilation source options).Delivers c ∧
          c.Gated source options) ∨
      (compilation source options).Refuses := by
  cases h : compile source options with
  | ok c =>
      have hOut :
          compilation source options = .ofResult (.ok c) :=
        congrArg Compilation.ofResult h
      rcases Compiled.no_errors_of_compile h
        with ⟨hStored, hCounted⟩
      rw [hOut]
      exact .inl ⟨c, rfl,
        ⟨rfl, rfl, rfl, rfl, rfl, rfl, rfl, hStored,
          hCounted⟩,
        Compiled.gated_of_compile h⟩
  | error log =>
      have hOut :
          compilation source options = .ofResult (.error log) :=
        congrArg Compilation.ofResult h
      rw [hOut]
      exact .inr ⟨rfl, rfl, rfl, rfl, rfl, rfl,
        errors_ne_nil_of_compile h⟩

end LightShow
