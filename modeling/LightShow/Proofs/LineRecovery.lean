import LightShow.Proofs.Parsing
import LightShow.Proofs.WrittenLines

/-
  Reading recovers at the end of the line.

  The tokens of a script are read from front to back, and an
  entry may fail at any of them. Whatever the line is, the
  turn that reads it ends at the next line, so reading all
  tokens is taking in one line after the other.

  Key definitions include:
    * `Line.Chain`
    * `Line.outcome`
    * `Script.Gains`
    * `Line.Adds`

  Main statements:
    * `Draft.turn_eq`
    * `Script.readTokens_eq_ofLines`
    * `Line.adds_outcome`
    * `Script.reading_goes_line_by_line`
-/

namespace LightShow

------------------------------------------------------------
-- The Lines Of A Token List
------------------------------------------------------------

/- A line that ends at its last token, and not before. -/
structure Line.Whole (l : Line) : Prop where
  tokens : ∀ t ∈ l.tokens, t.Inline
  stop : ¬l.stop.Inline

/-
  Lines one after the other: the last one ends with the text
  and all others with a newline.
-/
inductive Line.Chain : List Line → Prop
  | last {l : Line}
      (hTokens : ∀ t ∈ l.tokens, t.Inline)
      (hStop : l.stop.isEnd = true) :
      Line.Chain [l]
  | cons {l : Line} {lines : List Line}
      (hTokens : ∀ t ∈ l.tokens, t.Inline)
      (hStop : l.stop.isNewline = true)
      (hRest : Line.Chain lines) :
      Line.Chain (l :: lines)

namespace Line

theorem Chain.whole
    {lines : List Line}
    (h : Chain lines) :
    ∀ l ∈ lines, l.Whole := by
  induction h with
  | last hTokens hStop =>
      rintro _ (_ | ⟨_, ⟨⟩⟩)
      exact ⟨hTokens, fun h => by simp [h.2] at hStop⟩
  | cons hTokens hStop _ ih =>
      refine List.forall_mem_cons.mpr ⟨⟨hTokens, ?_⟩, ih⟩
      exact fun h => by simp [h.1] at hStop

/- A token goes in front of the first line, or is one. -/
theorem Chain.cons_token
    {lines : List Line}
    (h : Chain lines)
    {t : Token}
    (hEnd : t.isEnd = false) :
    Chain (Line.cons t lines) ∧
      (Line.cons t lines).flatMap all =
        t :: lines.flatMap all := by
  by_cases hNewline : t.isNewline = true
  · simp only [Line.cons, hEnd, hNewline]
    exact ⟨.cons nofun hNewline h, rfl⟩
  · have hInline : t.Inline :=
      ⟨Bool.eq_false_iff.mpr hNewline, hEnd⟩
    cases h with
    | last hTokens hStop =>
        simp only [Line.cons, hInline.1, hInline.2]
        exact ⟨.last (List.forall_mem_cons.mpr
          ⟨hInline, hTokens⟩) hStop, rfl⟩
    | cons hTokens hStop hRest =>
        simp only [Line.cons, hInline.1, hInline.2]
        exact ⟨.cons (List.forall_mem_cons.mpr
          ⟨hInline, hTokens⟩) hStop hRest, rfl⟩

/- A text is cut into lines without loss. -/
theorem chain_ofTokens
    {front : List Token}
    {stop : Token}
    (hFront : ∀ t ∈ front, t.isEnd = false)
    (hStop : stop.isEnd = true) :
    Chain (ofTokens (front ++ [stop])) ∧
      (ofTokens (front ++ [stop])).flatMap all =
        front ++ [stop] := by
  induction front with
  | nil =>
      have hLast : ofTokens ([] ++ [stop]) = [⟨[], stop⟩] := by
        simp [ofTokens, cons, hStop]
      rw [hLast]
      exact ⟨.last nofun hStop, rfl⟩
  | cons t front ih =>
      rcases List.forall_mem_cons.mp hFront
        with ⟨hFirst, hRest⟩
      rcases ih hRest with ⟨hChain, hAll⟩
      rcases hChain.cons_token hFirst with ⟨hCons, hMore⟩
      exact ⟨hCons, hMore.trans (congrArg (t :: ·) hAll)⟩

/- A line is cut off behind the token that ends it. -/
theorem ofTokens_append
    {l : Line}
    (h : l.Whole)
    (rest : List Token) :
    ofTokens (l.all ++ rest) =
      l :: if l.stop.isEnd then [] else ofTokens rest := by
  rcases l with ⟨tokens, stop⟩
  rw [all, List.append_assoc, List.singleton_append]
  induction tokens with
  | nil =>
      have hKind : stop.kind = .newline ∨
          stop.kind = .endOfFile :=
        Token.kind_of_not_inline h.stop
      rcases hKind with hStop | hStop
      · simp [ofTokens, cons, Token.isEnd, Token.isNewline,
          hStop]
      · simp [ofTokens, cons, Token.isEnd, hStop]
  | cons t tokens ih =>
      rcases List.forall_mem_cons.mp h.tokens
        with ⟨hFirst, hRest⟩
      have hTail := ih ⟨hRest, h.stop⟩
      simp only [ofTokens] at hTail ⊢
      rw [List.cons_append, List.foldr_cons, hTail]
      simp [cons, hFirst.1, hFirst.2]

/- Lines are found again in their tokens. -/
theorem Chain.ofTokens_flatMap
    {lines : List Line}
    (h : Chain lines) :
    ofTokens (lines.flatMap all) = lines := by
  induction h with
  | @last l hTokens hStop =>
      have hWhole := (Chain.last hTokens hStop).whole l
        (List.mem_singleton_self l)
      rw [List.flatMap_cons, ofTokens_append hWhole, hStop]
      rfl
  | @cons l lines hTokens hStop hRest ih =>
      have hWhole := (Chain.cons hTokens hStop hRest).whole l
        (List.mem_cons_self ..)
      have hMore : l.stop.isEnd = false := by
        rw [Token.isNewline, beq_iff_eq] at hStop
        rw [Token.isEnd, hStop]
        rfl
      rw [List.flatMap_cons, ofTokens_append hWhole, hMore, ih]
      rfl

end Line

------------------------------------------------------------
-- A Turn Reads One Line
------------------------------------------------------------

namespace Token

theorem skipNewlines_of_inline
    {t : Token}
    (h : t.isNewline = false)
    (ts : List Token) :
    skipNewlines (t :: ts) = t :: ts := by
  simp [skipNewlines, h]

/- From anywhere in a line, the next line is found. -/
theorem skipLine_append
    {tokens : List Token}
    (hInline : ∀ t ∈ tokens, t.Inline)
    {stop : Token}
    (hStop : ¬stop.Inline)
    (more : List Token) :
    skipNewlines (skipLine (tokens ++ stop :: more)) =
      skipNewlines (stop :: more) := by
  induction tokens with
  | nil =>
      rcases kind_of_not_inline hStop with h | h <;>
        simp [skipLine, skipNewlines, isEnd, isNewline, h]
  | cons t tokens ih =>
      rcases List.forall_mem_cons.mp hInline
        with ⟨hFirst, hRest⟩
      rw [List.cons_append, skipLine]
      simp [hFirst.1, hFirst.2, ih hRest]

end Token

namespace Draft

variable {source : SourceText} {last : Token}

theorem turn_of_ok
    {d : Draft}
    {t : Token}
    {rest : List Token}
    {entry : Entry}
    {c : Cursor}
    (h : Entry.read (!d.script.functions.isEmpty) t
      ⟨rest, last, t.span⟩ = .ok (entry, c)) :
    d.turn source last t rest =
      (d.accept source entry, Token.skipNewlines c.rest) := by
  simp only [turn, h]

theorem turn_of_error
    {d : Draft}
    {t : Token}
    {rest : List Token}
    {r : Refusal}
    (h : Entry.read (!d.script.functions.isEmpty) t
      ⟨rest, last, t.span⟩ = .error r) :
    d.turn source last t rest =
      (d.refuse source r.error,
        Token.skipNewlines (Token.skipLine r.left.rest)) := by
  simp only [turn, h]

/-
  The turn that starts a line takes in that line and ends at
  the next one, whatever follows and wherever it fails.
-/
theorem turn_eq
    {d : Draft}
    (hRoom : d.log.isFull = false)
    {l : Line}
    (hLine : l.Whole)
    {t : Token}
    {rest : List Token}
    (hTokens : l.tokens = t :: rest)
    (more : List Token) :
    d.turn source last t (rest ++ l.stop :: more) =
      (d.step source l,
        Token.skipNewlines (l.stop :: more)) := by
  have hInLine : Cursor.InLine ⟨rest, l.stop, t.span⟩ := by
    refine ⟨fun u hu => hLine.tokens u ?_, hLine.stop⟩
    exact hTokens ▸ List.mem_cons_of_mem t hu
  have hCloses :=
    Entry.closes_read (!d.script.functions.isEmpty) t
  cases hRead :
      Entry.read (!d.script.functions.isEmpty) t
        ⟨rest, l.stop, t.span⟩ with
  | ok v =>
      rcases hCloses.ok hInLine hRead more last
        with ⟨e, hWithin, hRest⟩
      have hStep :
          d.step source l = d.accept source v.1 := by
        simp [step, hRoom, Line.read, hTokens, hRead]
      rw [turn_of_ok hWithin, hStep, hRest]
      cases hStop : l.stop.isNewline <;>
        simp [Cursor.behind, Token.skipNewlines, hStop]
  | error r =>
      rcases hCloses.error hInLine hRead
        with ⟨hInner, hStop, hWithin⟩
      have hStep :
          d.step source l = d.refuse source r.error := by
        simp [step, hRoom, Line.read, hTokens, hRead]
      rw [turn_of_error (hWithin more last), hStep]
      exact congrArg (_, ·)
        ((Token.skipLine_append hInner.rest hInner.stop
          more).trans (hStop ▸ rfl))

------------------------------------------------------------
-- All Turns Read All Lines
------------------------------------------------------------

/- A line without tokens adds nothing. -/
theorem step_of_blank
    {l : Line}
    (h : l.tokens = [])
    (d : Draft) :
    d.step source l = d := by
  simp [step, Line.read, h]

theorem run_of_isFull
    {d : Draft}
    (h : d.log.isFull = true)
    (ts : List Token) :
    d.run source last ts = d := by
  cases ts with
  | nil => rw [run]
  | cons t ts => simp [run, h]

/- The first line is read before all others. -/
theorem run_line
    {l : Line}
    (hLine : l.Whole)
    (d : Draft)
    (more : List Token) :
    d.run source last (Token.skipNewlines (l.all ++ more)) =
      (d.step source l).run source last
        (Token.skipNewlines (l.stop :: more)) := by
  cases hTokens : l.tokens with
  | nil =>
      rw [step_of_blank hTokens, Line.all, hTokens]
      rfl
  | cons t rest =>
      have hFirst : t.Inline :=
        hLine.tokens t (hTokens ▸ List.mem_cons_self ..)
      have hAll :
          l.all ++ more = t :: (rest ++ l.stop :: more) := by
        simp [Line.all, hTokens]
      rw [hAll, Token.skipNewlines_of_inline hFirst.1, run,
        hFirst.2, if_neg Bool.false_ne_true]
      split
      · rename_i hFull
        have hStep : d.step source l = d := if_pos hFull
        rw [hStep, run_of_isFull hFull]
      · rename_i hRoom
        rw [turn_eq (Bool.eq_false_iff.mpr hRoom) hLine
          hTokens]

/- Tokens are read line by line. -/
theorem run_eq_foldl
    (source : SourceText)
    (last : Token)
    {lines : List Line}
    (h : Line.Chain lines)
    (d : Draft) :
    d.run source last
        (Token.skipNewlines (lines.flatMap Line.all)) =
      lines.foldl (step source) d := by
  induction h generalizing d with
  | @last l hTokens hStop =>
      have hLine := (Line.Chain.last hTokens hStop).whole l
        (List.mem_cons_self ..)
      have hNewline : l.stop.isNewline = false := by
        simp_all [Token.isEnd, Token.isNewline]
      rw [List.flatMap_cons, List.flatMap_nil,
        run_line hLine,
        Token.skipNewlines_of_inline hNewline, run,
        if_pos hStop]
      rfl
  | @cons l lines hTokens hStop hRest ih =>
      have hLine := (hRest.cons hTokens hStop).whole l
        (List.mem_cons_self ..)
      have hSkip (ts : List Token) :
          Token.skipNewlines (l.stop :: ts) =
            Token.skipNewlines ts := by
        simp [Token.skipNewlines, hStop]
      rw [List.flatMap_cons, run_line hLine, hSkip, ih]
      rfl

end Draft

/- Tokens that end with the text are read line by line. -/
theorem Script.readTokens_eq_ofLines
    (source : SourceText)
    (log : Log)
    {front : List Token}
    {stop : Token}
    (hFront : ∀ t ∈ front, t.isEnd = false)
    (hStop : stop.isEnd = true) :
    readTokens source log (front ++ [stop]) =
      ofLines source log (Line.ofTokens (front ++ [stop])) := by
  rcases Line.chain_ofTokens hFront hStop
    with ⟨hChain, hAll⟩
  have hRun := Draft.run_eq_foldl source
    ((front ++ [stop]).getLastD (.endAt .start)) hChain
    ⟨{}, log⟩
  rw [hAll] at hRun
  exact hRun

------------------------------------------------------------
-- What A Line Adds
------------------------------------------------------------

namespace Script

/- A script with exactly one entry more than before. -/
def Gains (old : Script) (e : Entry) (new : Script) : Prop :=
  ∃ before after,
    old.entries = before ++ after ∧
      new.entries = before ++ e :: after

/- A statement goes behind all that the last function has. -/
theorem flatMap_entries_pushLast
    {fs : List Function}
    (h : fs ≠ [])
    (st : Statement) :
    (Function.pushLast st fs).flatMap Function.entries =
      fs.flatMap Function.entries ++ [.statement st] := by
  induction fs using Function.pushLast.induct with
  | case1 => exact absurd rfl h
  | case2 f =>
      simp [Function.pushLast, Function.entries,
        Function.push]
  | case3 f g fs ih =>
      rw [Function.pushLast, List.flatMap_cons,
        ih (List.cons_ne_nil g fs), ← List.append_assoc]
      rfl

/- Adding an entry adds it once and keeps all others. -/
theorem gains_add
    {script : Script}
    {e : Entry}
    (h : ∀ st, e = .statement st → script.functions ≠ []) :
    script.Gains e (script.add e) := by
  cases e with
  | setting d =>
      refine ⟨script.settings.map .setting,
        script.aliases.map .aliasing ++
          script.functions.flatMap Function.entries, ?_, ?_⟩
      · simp [entries]
      · simp [entries, add]
  | aliasing a =>
      refine ⟨script.settings.map .setting ++
          script.aliases.map .aliasing,
        script.functions.flatMap Function.entries, ?_, ?_⟩
      · simp [entries]
      · simp [entries, add]
  | header name =>
      refine ⟨script.entries, [], by simp, ?_⟩
      simp [entries, add, Function.entries]
  | statement st =>
      refine ⟨script.entries, [], by simp, ?_⟩
      simp [entries, add, flatMap_entries_pushLast (h st rfl)]

end Script

namespace Line

/-
  What a line makes of a script: the script with what the
  line says, and the errors that it brings.
-/
def outcome
    (l : Line)
    (script : Script) : Script × List LineError :=
  match l.read (!script.functions.isEmpty) with
  | .error e => (script, [e])
  | .ok none => (script, [])
  | .ok (some entry) =>
      (script.add entry, (script.clash? entry).toList)

/-
  A blank line adds nothing. A line that cannot be read adds
  one error, and any other line one entry. The header of a
  function that is there brings one error besides.
-/
inductive Adds (l : Line) (old : Script) :
    Script → List LineError → Prop
  | blank
      (h : l.tokens = []) :
      Adds l old old []
  | refused {e : LineError}
      (h : l.read (!old.functions.isEmpty) = .error e) :
      Adds l old old [e]
  | entry {e : Entry} {new : Script}
      (h : l.read (!old.functions.isEmpty) = .ok (some e))
      (hGains : old.Gains e new)
      (hNew : ∀ name, e = .header name →
        old.find? name.text = none) :
      Adds l old new []
  | repeated {name : Name} {f : Function} {new : Script}
      (h : l.read (!old.functions.isEmpty) =
        .ok (some (.header name)))
      (hGains : old.Gains (.header name) new)
      (hFirst : old.find? name.text = some f) :
      Adds l old new
        [⟨.duplicateFunction name.text f.name.span.startLine,
          name.span⟩]

end Line

/- Outside functions, no line is a statement. -/
theorem Entry.ne_statement_of_read
    {t : Token}
    {c d : Cursor}
    {e : Entry}
    (h : Entry.read false t c = .ok (e, d)) :
    ∀ st, e ≠ .statement st := by
  have hNone :
      Reader.Gives (Entry.Satisfies fun _ => False)
        (Entry.read false t) := by
    unfold Entry.read
    split
    · exact Reader.gives_setting _
    · exact Reader.gives_aliasLine _
    · exact Reader.gives_header _
    · split
      · exact Reader.gives_refusal _
      · exact Reader.gives_refusal _
    · exact Reader.gives_refusal _
  exact fun st hSt => hNone c e d h st hSt

namespace Line

theorem tokens_of_read_eq_none
    {l : Line}
    {inFunction : Bool}
    (h : l.read inFunction = .ok none) :
    l.tokens = [] := by
  unfold read at h
  split at h
  · assumption
  · split at h <;> cases h

theorem functions_of_read_statement
    {l : Line}
    {script : Script}
    {st : Statement}
    (h : l.read (!script.functions.isEmpty) =
      .ok (some (.statement st))) :
    script.functions ≠ [] := by
  intro hNone
  rw [hNone] at h
  unfold read at h
  split at h
  · cases h
  · split at h
    · rename_i entry c hRead
      cases h
      exact Entry.ne_statement_of_read hRead st rfl
    · cases h

/- What a line adds is exactly what it says. -/
theorem adds_outcome
    (l : Line)
    (script : Script) :
    l.Adds script (l.outcome script).1
      (l.outcome script).2 := by
  unfold outcome
  cases hRead : l.read (!script.functions.isEmpty) with
  | error e => exact .refused hRead
  | ok found =>
      cases found with
      | none => exact .blank (tokens_of_read_eq_none hRead)
      | some entry =>
          have hGains :
              script.Gains entry (script.add entry) := by
            apply Script.gains_add
            rintro st rfl
            exact functions_of_read_statement hRead
          cases entry with
          | header name =>
              cases hFind : script.find? name.text with
              | none =>
                  simp only [Script.clash?, hFind]
                  refine .entry hRead hGains ?_
                  rintro _ ⟨⟩
                  exact hFind
              | some f =>
                  simp only [Script.clash?, hFind]
                  exact .repeated hRead hGains hFind
          | _ => exact .entry hRead hGains nofun

end Line

/- A step with room in the log takes in the outcome. -/
theorem Draft.step_eq_outcome
    {d : Draft}
    (h : d.log.isFull = false)
    (source : SourceText)
    (l : Line) :
    d.step source l =
      ⟨(l.outcome d.script).1,
       (l.outcome d.script).2.foldl
        (fun log e => log.pushError (e.diagnostic source))
        d.log⟩ := by
  unfold step Line.outcome
  cases l.read (!d.script.functions.isEmpty) with
  | error e => simp [h, refuse]
  | ok found =>
      cases found with
      | none => simp [h]
      | some entry =>
          simp only [h, accept]
          cases d.script.clash? entry <;> rfl

namespace Script

/-
  Reading tokens is a fold over their lines, which stops
  before a line once the log is full. What a line adds is
  decided by its tokens and the script so far; the turn that
  reads it ends at the next line, whatever comes there.
-/
theorem reading_goes_line_by_line
    (source : SourceText)
    (log : Log)
    {front : List Token}
    {stop : Token}
    (hFront : ∀ t ∈ front, t.isEnd = false)
    (hStop : stop.isEnd = true) :
    ∃ lines : List Line,
      lines.flatMap Line.all = front ++ [stop] ∧
      (∀ l ∈ lines, l.Whole) ∧
      readTokens source log (front ++ [stop]) =
        lines.foldl (Draft.step source) ⟨{}, log⟩ ∧
      (∀ (d : Draft) (l : Line), d.log.isFull = true →
        d.step source l = d) ∧
      (∀ (d : Draft) (l : Line), d.log.isFull = false →
        d.step source l =
          ⟨(l.outcome d.script).1,
           (l.outcome d.script).2.foldl
            (fun log e => log.pushError (e.diagnostic source))
            d.log⟩) ∧
      (∀ (l : Line) (script : Script),
        l.Adds script (l.outcome script).1
          (l.outcome script).2) ∧
      ∀ (d : Draft), d.log.isFull = false →
        ∀ l ∈ lines, ∀ t rest, l.tokens = t :: rest →
          ∀ last more,
            d.turn source last t (rest ++ l.stop :: more) =
              (d.step source l,
                Token.skipNewlines (l.stop :: more)) := by
  rcases Line.chain_ofTokens hFront hStop
    with ⟨hChain, hAll⟩
  refine ⟨Line.ofTokens (front ++ [stop]), hAll,
    hChain.whole, readTokens_eq_ofLines source log hFront
      hStop, ?_, ?_, ?_, ?_⟩
  · exact fun d l hFull => if_pos hFull
  · exact fun d l hRoom => Draft.step_eq_outcome hRoom source l
  · exact Line.adds_outcome
  · intro d hRoom l hl t rest hTokens last more
    exact Draft.turn_eq hRoom (hChain.whole l hl) hTokens more

/-
  A statement outside all functions, one that breaks off, and
  one that is read; each on its line.
-/
def torn : List Token :=
  [⟨.keyword .pause, .origin⟩, ⟨.mark .colon, .origin⟩,
   ⟨.newline, .origin⟩, ⟨.function "@start", .origin⟩,
   ⟨.newline, .origin⟩, ⟨.keyword .glowRamp, .origin⟩,
   ⟨.mark .colon, .origin⟩, ⟨.mark .leftBracket, .origin⟩,
   ⟨.number 1, .origin⟩, ⟨.mark .comma, .origin⟩,
   ⟨.newline, .origin⟩, ⟨.newline, .origin⟩,
   ⟨.keyword .here, .origin⟩, ⟨.mark .colon, .origin⟩,
   ⟨.word "top", .origin⟩]

theorem reading_goes_line_by_line_torn :
    (∀ t ∈ torn, t.isEnd = false) ∧
      (Token.endAt .start).isEnd = true ∧
      ∃ lines : List Line,
        lines.flatMap Line.all = torn ++ [.endAt .start] ∧
          (∀ l ∈ lines, l.Whole) ∧
          readTokens ⟨"", ""⟩ .empty
              (torn ++ [.endAt .start]) =
            lines.foldl (Draft.step ⟨"", ""⟩)
              ⟨{}, .empty⟩ ∧
          (lines.foldl (Draft.step ⟨"", ""⟩)
            ⟨{}, .empty⟩).log.totalErrors = 2 := by
  have hTorn : ∀ t ∈ torn, t.isEnd = false := by decide
  have hEnd : (Token.endAt .start).isEnd = true := by decide
  have hErrors :
      (readTokens ⟨"", ""⟩ .empty
        (torn ++ [.endAt .start])).log.totalErrors = 2 := by
    decide +kernel
  rcases reading_goes_line_by_line ⟨"", ""⟩ .empty hTorn hEnd
    with ⟨lines, hAll, hWhole, hRead, -⟩
  exact ⟨hTorn, hEnd, lines, hAll, hWhole, hRead,
    hRead ▸ hErrors⟩

end Script

end LightShow
