import LightShow.Proofs.ShownLines

/-
  A script that is written and read is the same script.

  Each line that shows an entry is read as that entry, so the
  lines of a script are added one by one until the script
  that they were taken from stands again, at other places.

  Key definitions include:
    * `Script.Takes`
    * `Script.Admits`
    * `Draft.Holds`

  Main statements:
    * `Draft.Holds.run`
    * `Script.admits_entries`
    * `Script.rendered_script_reads_back`
-/

namespace LightShow

------------------------------------------------------------
-- Entries Put Together
------------------------------------------------------------

theorem Function.pushLast_concat
    (st : Statement)
    (fs : List Function)
    (f : Function) :
    pushLast st (fs ++ [f]) = fs ++ [f.push st] := by
  induction fs with
  | nil => rfl
  | cons g fs ih =>
      cases fs with
      | nil => rfl
      | cons h fs => exact congrArg (g :: ·) ih

theorem Function.map_unplaced_pushLast
    (st : Statement)
    (fs : List Function) :
    (pushLast st fs).map unplaced =
      pushLast st.unplaced (fs.map unplaced) := by
  rcases List.eq_nil_or_concat fs with rfl | ⟨fs, f, rfl⟩
  · rfl
  · have hPush :
        (f.push st).unplaced = f.unplaced.push st.unplaced := by
      simp [push, unplaced]
      rfl
    rw [List.concat_eq_append, pushLast_concat,
      List.map_append, List.map_append, List.map_singleton,
      List.map_singleton, pushLast_concat, hPush]

namespace Script

/- The names of the functions of a script. -/
def names (s : Script) : List String :=
  s.functions.map fun f => f.name.text

theorem names_unplaced
    (s : Script) :
    s.unplaced.names = s.names := by
  simp [names, unplaced, Function.unplaced, Name.unplaced,
    Function.comp_def]

/- Places do not decide where an entry goes. -/
theorem unplaced_add
    (s : Script)
    (e : Entry) :
    (s.add e).unplaced = s.unplaced.add e.unplaced := by
  cases e with
  | statement st =>
      simp [add, unplaced, Entry.unplaced,
        Function.map_unplaced_pushLast]
  | _ =>
      simp [add, unplaced, Entry.unplaced, Setting.unplaced,
        Alias.unplaced, Function.unplaced, Name.unplaced]

/- An entry that adds to a script without an error. -/
structure Takes (s : Script) (e : Entry) : Prop where
  new : ∀ name, e = .header name → name.text ∉ s.names
  inside : e.needsFunction = true → s.functions ≠ []

/- Entries that add to a script one after the other. -/
def Admits (s : Script) : List Entry → Prop
  | [] => True
  | e :: es => s.Takes e ∧ (s.add e).Admits es

/- A name that is not taken does not clash. -/
theorem clash?_eq_none
    {s : Script}
    {e : Entry}
    (h : ∀ name, e = .header name → name.text ∉ s.names) :
    s.clash? e = none := by
  cases e with
  | header name =>
      have hFind : s.find? name.text = none := by
        rw [find?, List.find?_eq_none]
        intro f hf hSame
        apply h name rfl
        rw [← eq_of_beq hSame]
        exact List.mem_map_of_mem hf
      simp [clash?, hFind]
  | _ => rfl

/- Whether an entry is taken does not depend on places. -/
theorem Takes.unplaced
    {s s' : Script}
    {e e' : Entry}
    (h : s.Takes e)
    (hScript : s'.unplaced = s.unplaced)
    (hEntry : e'.unplaced = e.unplaced) :
    s'.Takes e' := by
  have hNames : s'.names = s.names := by
    rw [← names_unplaced, hScript, names_unplaced]
  constructor
  · rintro name rfl
    cases e with
    | header other =>
        have hName : name.unplaced = other.unplaced :=
          Entry.header.inj hEntry
        have hText : name.text = other.text :=
          (Name.mk.inj hName).1
        rw [hNames, hText]
        exact h.new other rfl
    | _ => cases hEntry
  · intro hNeeds hNone
    have hSome : e.needsFunction = true := by
      cases e <;> cases e' <;> first
        | exact hNeeds
        | cases hEntry
    apply h.inside hSome
    have hEmpty : s.names = [] := by
      rw [← hNames, names, hNone, List.map_nil]
    exact List.map_eq_nil_iff.mp hEmpty

end Script

/- A draft without errors of a script. -/
structure Draft.Holds (d : Draft) (s : Script) : Prop where
  log : d.log = .empty
  script : d.script.unplaced = s.unplaced

namespace Draft

/- A line adds the entry that it shows. -/
theorem Holds.step
    {d : Draft}
    {s : Script}
    (h : d.Holds s)
    {line : Line}
    {e : Entry}
    (hLine : line.Shows e)
    (hWell : e.WellFormed)
    (hTakes : s.Takes e)
    (source : SourceText) :
    (d.step source line).Holds (s.add e) := by
  -- the draft and `s` differ in places only, and these do
  -- not decide whether an entry is taken
  have hFull : d.log.isFull = false := by
    rw [h.log]
    rfl
  have hIn : e.needsFunction = true →
      (!d.script.functions.isEmpty) = true := by
    intro hNeeds
    have hInside :=
      (hTakes.unplaced h.script rfl).inside hNeeds
    simpa using hInside
  rcases Line.read_of_kinds hLine.tokens hWell hIn
    with ⟨found, hRead, hFound⟩
  have hClash : d.script.clash? found = none :=
    Script.clash?_eq_none
      (hTakes.unplaced h.script hFound).new
  have hStep :
      d.step source line =
        { d with script := d.script.add found } := by
    simp [Draft.step, hFull, hRead, accept, hClash]
  rw [hStep]
  refine ⟨h.log, ?_⟩
  rw [Script.unplaced_add, Script.unplaced_add, h.script,
    hFound]

/- Lines add their entries one after the other. -/
theorem Holds.run
    {source : SourceText}
    {lines : List Line}
    {es : List Entry}
    (hLines : List.Forall₂ Line.Shows lines es)
    (hWell : ∀ e ∈ es, e.WellFormed)
    {d : Draft}
    {s : Script}
    (h : d.Holds s)
    (hAdmits : s.Admits es) :
    (lines.foldl (Draft.step source) d).Holds
      (es.foldl Script.add s) := by
  induction hLines generalizing d s with
  | nil => exact h
  | @cons line e lines es hFirst _ ih =>
      rcases List.forall_mem_cons.mp hWell
        with ⟨hEntry, hRest⟩
      exact ih hRest
        (h.step hFirst hEntry hAdmits.1 source) hAdmits.2

end Draft

------------------------------------------------------------
-- Whole Scripts
------------------------------------------------------------

theorem Function.unplaced_foldl_push
    (f : Function)
    (sts : List Statement) :
    (sts.foldl push f).unplaced =
      ⟨f.name.unplaced,
       (f.body ++ sts).map Statement.unplaced, .origin⟩ := by
  induction sts generalizing f with
  | nil => simp [unplaced]
  | cons st sts ih =>
      rw [List.foldl_cons, ih]
      simp [push]

namespace Script

theorem admits_append
    {s : Script}
    {before after : List Entry}
    (hBefore : s.Admits before)
    (hAfter : (before.foldl add s).Admits after) :
    s.Admits (before ++ after) := by
  induction before generalizing s with
  | nil => exact hAfter
  | cons e before ih =>
      exact ⟨hBefore.1, ih hBefore.2 hAfter⟩

theorem admits_settings
    (s : Script)
    (ds : List Setting) :
    s.Admits (ds.map .setting) ∧
      (ds.map Entry.setting).foldl add s =
        { s with settings := s.settings ++ ds } := by
  induction ds generalizing s with
  | nil => simp [Admits]
  | cons d ds ih =>
      rcases ih (s.add (.setting d)) with ⟨hRest, hFold⟩
      refine ⟨⟨⟨nofun, nofun⟩, hRest⟩, ?_⟩
      rw [List.map_cons, List.foldl_cons, hFold]
      simp [add]

theorem admits_aliases
    (s : Script)
    (as : List Alias) :
    s.Admits (as.map .aliasing) ∧
      (as.map Entry.aliasing).foldl add s =
        { s with aliases := s.aliases ++ as } := by
  induction as generalizing s with
  | nil => simp [Admits]
  | cons a as ih =>
      rcases ih (s.add (.aliasing a)) with ⟨hRest, hFold⟩
      refine ⟨⟨⟨nofun, nofun⟩, hRest⟩, ?_⟩
      rw [List.map_cons, List.foldl_cons, hFold]
      simp [add]

/- A script with one more function. -/
def withLast (s : Script) (f : Function) : Script :=
  { s with functions := s.functions ++ [f] }

theorem admits_statements
    (s : Script)
    (f : Function)
    (sts : List Statement) :
    (s.withLast f).Admits (sts.map .statement) ∧
      (sts.map Entry.statement).foldl add (s.withLast f) =
        s.withLast (sts.foldl Function.push f) := by
  induction sts generalizing f with
  | nil => exact ⟨trivial, rfl⟩
  | cons st sts ih =>
      have hAdd :
          (s.withLast f).add (.statement st) =
            s.withLast (f.push st) := by
        simp [add, withLast, Function.pushLast_concat]
      have hTakes : (s.withLast f).Takes (.statement st) := by
        refine ⟨?_, fun _ => ?_⟩
        · rintro _ ⟨⟩
        · exact List.append_ne_nil_of_right_ne_nil _
            (List.cons_ne_nil f [])
      rcases ih (f.push st) with ⟨hRest, hFold⟩
      rw [← hAdd] at hRest hFold
      exact ⟨⟨hTakes, hRest⟩, hFold⟩

/- A function with a new name is added as a whole. -/
theorem admits_function
    {s : Script}
    {f : Function}
    (h : f.name.text ∉ s.names) :
    ∃ g, g.unplaced = f.unplaced ∧
      s.Admits f.entries ∧
        f.entries.foldl add s = s.withLast g := by
  rcases s.admits_statements ⟨f.name, [], f.name.span⟩ f.body
    with ⟨hBody, hFold⟩
  refine ⟨_, Function.unplaced_foldl_push _ f.body,
    ⟨⟨?_, nofun⟩, hBody⟩, hFold⟩
  rintro _ ⟨⟩
  exact h

/- Functions with new names are added one after the other. -/
theorem admits_functions
    {s : Script}
    {fs : List Function}
    (h : (s.names ++ fs.map fun f => f.name.text).Nodup) :
    s.Admits (fs.flatMap Function.entries) ∧
      ((fs.flatMap Function.entries).foldl add s).unplaced =
        { s.unplaced with
          functions := s.unplaced.functions ++
            fs.map Function.unplaced } := by
  induction fs generalizing s with
  | nil => simp [Admits]
  | cons f fs ih =>
      have hNew : f.name.text ∉ s.names := by
        intro hOld
        exact (List.nodup_append.mp h).2.2 _ hOld _
          List.mem_cons_self rfl
      rcases admits_function hNew
        with ⟨g, hSame, hFirst, hFold⟩
      -- `g` is `f` at other places, so the names go on as one
      have hName : g.name.text = f.name.text :=
        congrArg (fun f => f.name.text) hSame
      have hNames :
          ((s.withLast g).names ++
            fs.map fun f => f.name.text).Nodup := by
        simpa [names, withLast, hName] using h
      rcases ih hNames with ⟨hRest, hUnplaced⟩
      rw [List.flatMap_cons, List.foldl_append, hFold,
        hUnplaced]
      refine ⟨admits_append hFirst (hFold ▸ hRest), ?_⟩
      simp [unplaced, withLast, hSame]

/- The entries of a script make up that script. -/
theorem admits_entries
    {s : Script}
    (h : (s.functions.map fun f => f.name.text).Nodup) :
    ({} : Script).Admits s.entries ∧
      (s.entries.foldl add {}).unplaced = s.unplaced := by
  rcases admits_settings {} s.settings
    with ⟨hSettings, hFirst⟩
  rcases admits_aliases ((s.settings.map .setting).foldl add {})
    s.aliases with ⟨hAliases, hSecond⟩
  have hTables :
      (s.settings.map Entry.setting ++
        s.aliases.map Entry.aliasing).foldl add {} =
        { settings := s.settings, aliases := s.aliases } := by
    rw [List.foldl_append, hSecond, hFirst]
    rfl
  have hNames :
      (({ settings := s.settings,
          aliases := s.aliases } : Script).names ++
        s.functions.map fun f => f.name.text).Nodup := h
  rcases admits_functions hNames with ⟨hFunctions, hAll⟩
  rw [← hTables] at hFunctions
  rw [entries, List.foldl_append, hTables, hAll]
  exact ⟨admits_append (admits_append hSettings hAliases)
    hFunctions, rfl⟩

theorem kinds_inks
    (s : Script) :
    s.inks.filterMap Ink.kind? =
      s.entries.flatMap fun e => e.kinds ++ [.newline] := by
  simp [inks, Entry.kinds, List.filterMap_flatMap,
    Ink.kind?]

/- The lines of a script are read as that script. -/
theorem holds_ofTokens
    {script : Script}
    (h : script.WellFormed)
    {lines : List Line}
    (hLines : List.Forall₂ Line.Shows lines script.entries)
    {stop : Token}
    (hStop : stop.kind = .endOfFile)
    (source : SourceText) :
    (ofTokens source
      (lines.flatMap Line.all ++ [stop])).Holds script := by
  rcases admits_entries h.functionNames
    with ⟨hAdmits, hEntries⟩
  have hRun :
      (lines.foldl (Draft.step source)
        ⟨{}, .empty⟩).Holds (script.entries.foldl add {}) :=
    Draft.Holds.run hLines (wellFormed_of_mem_entries h)
      ⟨rfl, rfl⟩ hAdmits
  -- the end of the text is a line of its own, and empty
  have hTokens :
      ofTokens source (lines.flatMap Line.all ++ [stop]) =
        lines.foldl (Draft.step source) ⟨{}, .empty⟩ := by
    have hEnd : stop.isEnd = true := by
      simp [Token.isEnd, hStop]
    have hInline := AliasTable.inline_ofTokens source
      (lines.flatMap Line.all ++ [stop])
    simp only [ofTokens,
      AliasTable.splice_flatMap hInline hLines hStop,
      AliasTable.log_ofTokens h hLines hStop source,
      List.foldl_nil]
    rw [readTokens_eq_ofLines source .empty
      (Line.isEnd_flatMap_all hLines) hEnd,
      Line.ofTokens_of_shows hLines hStop, ofLines,
      List.foldl_append]
    exact ite_self _
  rw [hTokens]
  exact ⟨hRun.log, hRun.script.trans hEntries⟩

/-
  A script that is well formed is read back from its text,
  without errors, up to places.
-/
theorem rendered_script_reads_back
    {script : Script}
    (h : script.WellFormed)
    (name : String) :
    (ofSource ⟨name, script.render⟩).log = .empty ∧
      (ofSource ⟨name, script.render⟩).script.unplaced =
        script.unplaced := by
  -- cut the text, find the lines, read them one by one
  let source : SourceText := ⟨name, script.render⟩
  have hText :
      source.text.toList = script.inks.flatMap Ink.chars :=
    script.toList_render
  rcases Token.ofSource_chars _ (valid_inks h)
    script.apart_inks hText with ⟨hLexed, hKinds⟩
  rw [kinds_inks] at hKinds
  rcases Line.exists_lines hKinds
    with ⟨lines, stop, hTokens, hStop, hLines⟩
  have hHolds := holds_ofTokens h hLines hStop source
  rw [← hTokens] at hHolds
  have hLog : (ofSource source).log = .empty := by
    simp only [ofSource, hLexed, hHolds.log]
    rfl
  exact ⟨hLog, hHolds.script⟩

/-
  A script with every kind of line. Its aliases are named
  like a unit and like a label, and its numbers are as large
  as they can be.
-/
def sampler : Script where
  settings :=
    [⟨⟨"brand", .origin⟩, "the \"bright\" one", .origin⟩]
  aliases :=
    [⟨⟨"ms", .origin⟩, "[1-3]", .origin⟩,
     ⟨⟨"fan", .origin⟩, "5 \"left\"", .origin⟩]
  functions :=
    [⟨⟨"@start", .origin⟩,
      [⟨.here ⟨"fan", .origin⟩, .origin⟩,
       ⟨.glow ⟨[3, 1, 65535], .origin⟩ ⟨255, 255, 255, 31⟩,
        .origin⟩,
       ⟨.ramp ⟨[2], .origin⟩ ⟨0, 0, 0, 0⟩ ⟨1, 2, 3, 4⟩
          ⟨18446744073709551615, .millis, .origin⟩, .origin⟩,
       ⟨.pause ⟨0, .ticks, .origin⟩, .origin⟩,
       ⟨.call ⟨"@tail_2", .origin⟩ 2000000000, .origin⟩,
       ⟨.callAsync ⟨"@tail_2", .origin⟩ none, .origin⟩,
       ⟨.callAsync ⟨"@tail_2", .origin⟩ (some 1000),
        .origin⟩,
       ⟨.goto ⟨"fan", .origin⟩, .origin⟩], .origin⟩,
     ⟨⟨"@tail_2", .origin⟩, [], .origin⟩]

theorem hasErrors_sampler_bodies :
    ∀ a ∈ sampler.aliases,
      (Token.ofSource ⟨"", a.value⟩).log.hasErrors =
        false := by
  let range : List Ink :=
    [.mark .leftBracket, .number 1, .mark .minus, .number 3,
     .mark .rightBracket]
  have hRange :
      (Token.ofSource ⟨"", "[1-3]"⟩).log = .empty := by
    refine (Token.ofSource_chars range ?_ ?_ ?_).1
    · simp [range, Ink.Valid, Piece.numberBound]
    · simp [range, Ink.joins]
    · decide
  let pair : List Ink := [.number 5, .blanks 0, .text "left"]
  have hPair :
      (Token.ofSource ⟨"", "5 \"left\""⟩).log = .empty := by
    refine (Token.ofSource_chars pair ?_ ?_ ?_).1
    · simp [pair, Ink.Valid, Piece.numberBound,
        Text.isQuotable]
    · simp [pair, Ink.joins]
    · decide
  simp [sampler, hRange, hPair, Log.hasErrors, Log.empty]

theorem wellFormed_sampler :
    sampler.WellFormed where
  settings := by decide
  aliases := by decide
  bodies := hasErrors_sampler_bodies
  aliasNames := by decide
  functions := by decide
  functionNames := by decide
  statements := by decide

theorem rendered_sampler_reads_back :
    sampler.WellFormed ∧
      (ofSource ⟨"show", sampler.render⟩).log = .empty ∧
      (ofSource ⟨"show", sampler.render⟩).script.unplaced =
        sampler.unplaced :=
  ⟨wellFormed_sampler,
   rendered_script_reads_back wellFormed_sampler "show"⟩

end Script

end LightShow
