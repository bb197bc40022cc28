import LightShow.Compile
import LightShow.Proofs.PairedRuns
import LightShow.Proofs.Success

/-
  Only diagnostics quote lines.

  A source text that was read is used for nothing but its
  name and the lines that errors quote. With no text at all
  every stage does the same, and its diagnostics are those
  it had, without the lines they quote.

  Key definitions include:
    * `Diagnostic.unquoted`
    * `SourceText.blank`
    * `withoutQuotes`

  Main statements:
    * `Script.ofTokens_blank`
    * `Device.resolve_blank`
    * `Script.expand_blank`
    * `Draft.compile_blank`
-/

namespace LightShow

------------------------------------------------------------
-- Diagnostics Without Lines
------------------------------------------------------------

/- A diagnostic without the line that it quotes. -/
def Diagnostic.unquoted (d : Diagnostic) : Diagnostic :=
  { d with sourceLine := "" }

/- The name of a source text without its characters. -/
def SourceText.blank (source : SourceText) : SourceText :=
  ⟨source.name, ""⟩

/- A text without characters has no line to quote. -/
theorem SourceText.line?_blank
    (source : SourceText)
    (n : Nat) :
    (source.blank.line? n).getD "" = "" := by
  match n with
  | 0 => rfl
  | 1 => rfl
  | n + 2 => rfl

theorem Diagnostic.unquoted_error
    (source : SourceText)
    (code : Code)
    (message : String)
    (span : Span)
    (suggestion : Option String) :
    (Diagnostic.error source code message span
        suggestion).unquoted =
      .error source.blank code message span suggestion := by
  simp only [Diagnostic.error, unquoted,
    SourceText.line?_blank]
  rfl

namespace Log

/- A log of diagnostics without the lines they quote. -/
def unquoted (log : Log) : Log :=
  { log with
    errors := log.errors.map Diagnostic.unquoted
    warnings := log.warnings.map Diagnostic.unquoted }

@[simp] theorem unquoted_empty :
    empty.unquoted = empty :=
  rfl

variable (log : Log)

theorem unquoted_pushError
    (d : Diagnostic) :
    (log.pushError d).unquoted =
      log.unquoted.pushError d.unquoted := by
  simp only [unquoted, pushError, List.length_map]
  split <;> simp

theorem unquoted_pushWarning
    (d : Diagnostic) :
    (log.pushWarning d).unquoted =
      log.unquoted.pushWarning d.unquoted := by
  simp [unquoted, pushWarning]

theorem unquoted_single
    (d : Diagnostic) :
    (single d).unquoted = single d.unquoted :=
  unquoted_pushError empty d

theorem unquoted_foldl_pushError
    (ds : List Diagnostic) :
    (ds.foldl pushError log).unquoted =
      (ds.map Diagnostic.unquoted).foldl pushError
        log.unquoted := by
  rw [List.foldl_map]
  exact (List.foldl_hom unquoted fun log d =>
    (unquoted_pushError log d).symm).symm

theorem unquoted_foldl_pushWarning
    (ds : List Diagnostic) :
    (ds.foldl pushWarning log).unquoted =
      (ds.map Diagnostic.unquoted).foldl pushWarning
        log.unquoted := by
  rw [List.foldl_map]
  exact (List.foldl_hom unquoted fun log d =>
    (unquoted_pushWarning log d).symm).symm

theorem unquoted_extend
    (other : Log) :
    (log.extend other).unquoted =
      log.unquoted.extend other.unquoted := by
  have hJoined :
      other.unquoted.errors.foldl pushError log.unquoted =
        (other.errors.foldl pushError log).unquoted :=
    (unquoted_foldl_pushError log other.errors).symm
  unfold extend
  simp only [unquoted_foldl_pushWarning, hJoined]
  rfl

@[simp] theorem hasErrors_unquoted :
    log.unquoted.hasErrors = log.hasErrors :=
  rfl

@[simp] theorem isFull_unquoted :
    log.unquoted.isFull = log.isFull :=
  rfl

end Log

/- A result without the lines that its diagnostics quote. -/
def withoutQuotes
    {α : Type}
    (f : α → α) : Except Log α → Except Log α
  | .ok a => .ok (f a)
  | .error log => .error log.unquoted

------------------------------------------------------------
-- Reading
------------------------------------------------------------

theorem AliasFault.unquoted_diagnostic
    (source : SourceText)
    (fault : AliasFault)
    (span : Span) :
    (fault.diagnostic source span).unquoted =
      fault.diagnostic source.blank span :=
  Diagnostic.unquoted_error ..

theorem LineError.unquoted_diagnostic
    (source : SourceText)
    (e : LineError) :
    (e.diagnostic source).unquoted =
      e.diagnostic source.blank :=
  Diagnostic.unquoted_error ..

namespace AliasTable

/- Aliases are read from their own texts, which have names. -/
theorem add_blank
    (source : SourceText)
    (acc : AliasTable × Log)
    (line : AliasLine) :
    add source.blank (acc.1, acc.2.unquoted) line =
      ((add source acc line).1,
        (add source acc line).2.unquoted) := by
  unfold add
  dsimp only
  split
  · rw [Log.unquoted_pushError,
      AliasFault.unquoted_diagnostic]
  · rw [Log.unquoted_foldl_pushError, List.map_map]
    simp only [Function.comp_def,
      AliasFault.unquoted_diagnostic]
    rfl

theorem foldl_add_blank
    (source : SourceText)
    (lines : List AliasLine)
    (acc : AliasTable × Log) :
    lines.foldl (add source.blank) (acc.1, acc.2.unquoted) =
      ((lines.foldl (add source) acc).1,
        (lines.foldl (add source) acc).2.unquoted) :=
  List.foldl_hom
    (fun acc : AliasTable × Log => (acc.1, acc.2.unquoted))
    (add_blank source)

theorem ofTokens_blank
    (source : SourceText)
    (ts : List Token) :
    ofTokens source.blank ts =
      ((ofTokens source ts).1,
        (ofTokens source ts).2.unquoted) :=
  foldl_add_blank source (AliasLine.all ts) (empty, .empty)

end AliasTable

namespace Draft

/- A draft with a log without quoted lines. -/
def unquoted (d : Draft) : Draft :=
  { d with log := d.log.unquoted }

variable (source : SourceText)
variable (d : Draft)

@[simp] theorem script_unquoted :
    d.unquoted.script = d.script :=
  rfl

@[simp] theorem log_unquoted :
    d.unquoted.log = d.log.unquoted :=
  rfl

theorem refuse_blank
    (e : LineError) :
    d.unquoted.refuse source.blank e =
      (d.refuse source e).unquoted := by
  simp only [refuse, unquoted, Log.unquoted_pushError,
    LineError.unquoted_diagnostic]

theorem accept_blank
    (entry : Entry) :
    d.unquoted.accept source.blank entry =
      (d.accept source entry).unquoted := by
  unfold accept
  simp only [script_unquoted]
  split
  · exact refuse_blank source { d with script := _ } _
  · rfl

theorem turn_blank
    (last t : Token)
    (rest : List Token) :
    d.unquoted.turn source.blank last t rest =
      ((d.turn source last t rest).1.unquoted,
        (d.turn source last t rest).2) := by
  unfold turn
  simp only [script_unquoted]
  split
  · rw [accept_blank]
  · rw [refuse_blank]

theorem run_blank
    (last : Token)
    (ts : List Token) :
    d.unquoted.run source.blank last ts =
      (d.run source last ts).unquoted := by
  fun_induction Draft.run source last d ts with
  | case1 d => rw [run]
  | case2 d t rest hEnd => rw [run, if_pos hEnd]
  | case3 d t rest hEnd hFull =>
      rw [run, if_neg hEnd, log_unquoted, Log.isFull_unquoted,
        if_pos hFull]
  | case4 d t rest hEnd hFull ih =>
      rw [run, if_neg hEnd, log_unquoted, Log.isFull_unquoted,
        if_neg hFull, turn_blank, ih]

end Draft

namespace Script

/- Tokens alone decide what is read from them. -/
theorem ofTokens_blank
    (source : SourceText)
    (ts : List Token) :
    ofTokens source.blank ts =
      (ofTokens source ts).unquoted := by
  have hTable := AliasTable.ofTokens_blank source ts
  have hFaults (table : AliasTable) (log : Log) :
      ((table.splice ts).2.foldl
          (fun log x =>
            log.pushError (x.1.diagnostic source x.2))
          log).unquoted =
        (table.splice ts).2.foldl
          (fun log x =>
            log.pushError (x.1.diagnostic source.blank x.2))
          log.unquoted := by
    refine (List.foldl_hom Log.unquoted fun log x => ?_).symm
    rw [Log.unquoted_pushError,
      AliasFault.unquoted_diagnostic]
  unfold ofTokens readTokens
  simp only [hTable, ← hFaults]
  rw [← Draft.run_blank]
  rfl

end Script

------------------------------------------------------------
-- Devices
------------------------------------------------------------

namespace Device

theorem DeviceFault.unquoted_diagnostic
    (source : SourceText)
    (fault : DeviceFault)
    (span : Span) :
    (fault.diagnostic source span).unquoted =
      fault.diagnostic source.blank span :=
  Diagnostic.unquoted_error ..

theorem assign_blank
    (source : SourceText)
    (acc : Device × Log)
    (a : Assignment) :
    assign source.blank (acc.1, acc.2.unquoted) a =
      ((assign source acc a).1,
        (assign source acc a).2.unquoted) := by
  unfold assign
  dsimp only
  split
  · rfl
  · rw [Log.unquoted_pushError,
      DeviceFault.unquoted_diagnostic]

theorem foldl_assign_blank
    (source : SourceText)
    (settings : List Assignment)
    (acc : Device × Log) :
    settings.foldl (assign source.blank)
        (acc.1, acc.2.unquoted) =
      ((settings.foldl (assign source) acc).1,
        (settings.foldl (assign source) acc).2.unquoted) :=
  List.foldl_hom
    (fun acc : Device × Log => (acc.1, acc.2.unquoted))
    (assign_blank source)

/- Settings alone decide what device they describe. -/
theorem resolve_blank
    (source : SourceText)
    (script : Script)
    (overrides : List (String × String)) :
    resolve source.blank script overrides =
      withoutQuotes id (resolve source script overrides) := by
  unfold resolve
  split
  · simp only [withoutQuotes, Log.unquoted_single,
      DeviceFault.unquoted_diagnostic]
  · have hAll := foldl_assign_blank source
      (assignments script overrides) ({}, .empty)
    rw [Log.unquoted_empty] at hAll
    simp only [hAll, Log.hasErrors_unquoted]
    split
    · rfl
    · split
      · rfl
      · simp only [withoutQuotes, Log.unquoted_single,
          DeviceFault.unquoted_diagnostic]

end Device

------------------------------------------------------------
-- Expansion
------------------------------------------------------------

namespace Expansion

/- A state with a log without quoted lines. -/
def unquoted (s : Expansion) : Expansion :=
  { s with log := s.log.unquoted }

variable (source : SourceText)
variable (span : Span)
variable (s : Expansion)

theorem unquoted_report
    (fault : ExpandFault) :
    (s.report source fault span).unquoted =
      s.unquoted.report source.blank fault span := by
  unfold report
  by_cases hKnown :
      s.reported.contains (fault.code, span) = true
  · have hThere :
        s.unquoted.reported.contains (fault.code, span) =
          true :=
      hKnown
    rw [if_pos hKnown, if_pos hThere]
  · have hThere :
        ¬s.unquoted.reported.contains (fault.code, span) =
          true :=
      hKnown
    rw [if_neg hKnown, if_neg hThere]
    simp only [unquoted, Log.unquoted_pushError,
      Diagnostic.unquoted_error]

theorem unquoted_warnLabel
    (label : String) :
    (s.warnLabel source label span).unquoted =
      s.unquoted.warnLabel source.blank label span := by
  unfold warnLabel
  by_cases hKnown :
      s.reported.contains (Code.duplicateLabel, span) = true
  · have hThere :
        s.unquoted.reported.contains
          (Code.duplicateLabel, span) = true :=
      hKnown
    rw [if_pos hKnown, if_pos hThere]
  · have hThere :
        ¬s.unquoted.reported.contains
          (Code.duplicateLabel, span) = true :=
      hKnown
    rw [if_neg hKnown, if_neg hThere]
    simp only [unquoted, Log.unquoted_pushWarning]
    rfl

theorem unquoted_charge :
    (s.charge source span).unquoted =
      s.unquoted.charge source.blank span := by
  unfold charge
  by_cases hOut : s.exhausted = true
  · have hThere : s.unquoted.exhausted = true := hOut
    rw [if_pos hOut, if_pos hThere]
  · have hThere : ¬s.unquoted.exhausted = true := hOut
    rw [if_neg hOut, if_neg hThere]
    by_cases hRoom : s.work < ExpandFault.maxWork
    · have hThere : s.unquoted.work < ExpandFault.maxWork :=
        hRoom
      rw [if_pos hRoom, if_pos hThere]
      rfl
    · have hThere :
          ¬s.unquoted.work < ExpandFault.maxWork :=
        hRoom
      rw [if_neg hRoom, if_neg hThere]
      exact unquoted_report source span
        { s with exhausted := true } .tooLarge

/- Quoted lines do not matter to what happens to a state. -/
theorem paired_blank
    (source : SourceText) :
    Paired source source.blank fun s t => t = s.unquoted where
  exhausted h := h ▸ rfl
  stopped h := h ▸ rfl
  nextPath h := h ▸ rfl
  nextScope h := h ▸ rfl
  openPath h := h ▸ rfl
  openScope h := h ▸ rfl
  push h _ := h ▸ rfl
  charge h span := h ▸ (unquoted_charge source span _).symm
  report h fault span :=
    h ▸ (unquoted_report source span _ fault).symm
  warnLabel h label span :=
    h ▸ (unquoted_warnLabel source span _ label).symm

end Expansion

/- What a script expands to, without quoted lines. -/
def Expanded.unquoted (expanded : Expanded) : Expanded :=
  { expanded with warnings := expanded.warnings.unquoted }

/- The script alone decides what it expands to. -/
theorem Script.expand_blank
    (script : Script)
    (source : SourceText)
    (device : Device) :
    script.expand source.blank device =
      withoutQuotes Expanded.unquoted
        (script.expand source device) := by
  have hRun :
      Expander.run ⟨script, source.blank, device⟩ =
        (Expander.run ⟨script, source, device⟩).unquoted :=
    Expander.paired_run (e := ⟨script, source, device⟩)
      (Expansion.paired_blank source) rfl
  unfold expand
  simp only [hRun, Expansion.unquoted, Log.hasErrors_unquoted]
  split <;> rfl

------------------------------------------------------------
-- Compilation
------------------------------------------------------------

theorem Located.unquoted_diagnostic
    (source : SourceText)
    (e : Located) :
    (e.diagnostic source).unquoted =
      e.diagnostic source.blank :=
  Diagnostic.unquoted_error ..

theorem unquoted_warnDark
    (source : SourceText)
    (script : Script)
    (brightness : Nat)
    (log : Log) :
    (warnDark source script brightness log).unquoted =
      warnDark source.blank script brightness
        log.unquoted := by
  unfold warnDark
  split
  · rw [Log.unquoted_pushWarning]
    rfl
  · rfl

/- What a compilation yields, without quoted lines. -/
def Compiled.unquoted (c : Compiled) : Compiled :=
  { c with warnings := c.warnings.unquoted }

/- What was read alone decides what is compiled. -/
theorem Draft.compile_blank
    (source : SourceText)
    (options : Options)
    (draft : Draft) :
    draft.unquoted.compile source.blank options =
      withoutQuotes Compiled.unquoted
        (draft.compile source options) := by
  unfold compile
  simp only [script_unquoted, log_unquoted,
    Log.hasErrors_unquoted, Device.resolve_blank,
    Script.expand_blank]
  split
  · rfl
  cases Device.resolve source draft.script
      options.overrides with
  | error log => rfl
  | ok device =>
      have hDark := unquoted_warnDark source draft.script
      simp only [withoutQuotes, id, bind, Except.bind]
      cases draft.script.expand source device with
      | error log => rfl
      | ok expanded =>
          simp only [Expanded.unquoted]
          cases Show.buildWith ⟨device, options.limits⟩
              expanded.instructions with
          | error e =>
              simp only [← Located.unquoted_diagnostic,
                ← Log.unquoted_single]
              rfl
          | ok built =>
              simp only [← Log.unquoted_extend, ← hDark]
              rfl

end LightShow
