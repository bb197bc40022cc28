import LightShow.Proofs.DistinctNames

/-
  The table of aliases and the aliases of a script agree.

  Alias lines are found in the tokens as they stand, by five
  tokens at the start of a line, before any line is read. The
  aliases of a script are read later, from lines in which
  aliases are replaced. Each alias that is read stands on an
  alias line that was found before, and where no error is
  reported each alias line is read.

  Key definitions include:
    * `AliasLine.FoundIn`

  Main statements:
    * `AliasLine.mem_all_iff`
    * `Draft.aliases_foldl_of_clean`
    * `AliasTable.body?_of_mem`
    * `Script.aliases_agree_with_table`
-/

namespace LightShow

------------------------------------------------------------
-- Where Alias Lines Are Found
------------------------------------------------------------

namespace AliasLine

/- An alias line at the start of a line of some tokens. -/
def FoundIn (x : AliasLine) (ts : List Token) : Prop :=
  ∃ front rest, ts = front ++ rest ∧
    (∀ t ∈ front.getLast?, t.isNewline = true) ∧
    ofTokens? rest = some x

theorem foundIn_of_ofTokens?
    {x : AliasLine}
    {ts : List Token}
    (h : ofTokens? ts = some x) :
    x.FoundIn ts :=
  ⟨[], ts, rfl, nofun, h⟩

/- Behind a newline a line starts. -/
theorem FoundIn.append
    {x : AliasLine}
    {ts : List Token}
    (h : x.FoundIn ts)
    {l : Line}
    (hStop : l.stop.isNewline = true) :
    x.FoundIn (l.all ++ ts) := by
  rcases h with ⟨front, rest, rfl, hFront, hLine⟩
  refine ⟨l.all ++ front, rest,
    (List.append_assoc ..).symm, ?_, hLine⟩
  intro t ht
  rw [List.getLast?_append] at ht
  cases hLast : front.getLast? with
  | none =>
      rw [hLast, Line.all, List.getLast?_concat] at ht
      cases ht
      exact hStop
  | some _ =>
      rw [hLast] at ht
      cases ht
      exact hFront t hLast

/- In a line that goes on, no other line starts. -/
theorem FoundIn.cases_append
    {x : AliasLine}
    {ts : List Token}
    {l : Line}
    (hWhole : l.Whole)
    (h : x.FoundIn (l.all ++ ts)) :
    ofTokens? l.tokens = some x ∨ x.FoundIn ts := by
  rcases h with ⟨front, rest, hAll, hFront, hLine⟩
  rcases List.append_eq_append_iff.mp hAll
    with ⟨back, rfl, rfl⟩ | ⟨middle, hTokens, rfl⟩
  · refine .inr ⟨back, rest, rfl, fun t ht => ?_, hLine⟩
    exact hFront t (by rw [List.getLast?_append, ht]; rfl)
  · rcases List.eq_nil_or_concat front
      with rfl | ⟨before, last, rfl⟩
    · rw [List.nil_append] at hTokens
      rw [← hTokens, Line.all, List.append_assoc,
        List.singleton_append,
        ofTokens?_append_stop hWhole.stop] at hLine
      exact .inl hLine
    · rcases List.eq_nil_or_concat middle
        with rfl | ⟨more, stop, rfl⟩
      · exact .inr (foundIn_of_ofTokens? hLine)
      · -- the last token in front is inside the line
        have hNewline : last.isNewline = true :=
          hFront last (by simp)
        have hTail := hTokens
        rw [Line.all, List.concat_eq_append,
          List.concat_eq_append, ← List.append_assoc] at hTail
        have hInside := (List.append_inj' hTail rfl).1
        have hInline := (hWhole.tokens last (by
          rw [hInside]
          simp)).1
        rw [hNewline] at hInline
        cases hInline

theorem foundIn_append
    {x : AliasLine}
    {l : Line}
    (hWhole : l.Whole)
    (h : ofTokens? l.tokens = some x)
    (ts : List Token) :
    x.FoundIn (l.all ++ ts) := by
  refine foundIn_of_ofTokens? ?_
  rwa [Line.all, List.append_assoc, List.singleton_append,
    ofTokens?_append_stop hWhole.stop]

/- Alias lines are those at the starts of lines. -/
theorem mem_all_iff
    {lines : List Line}
    (h : Line.Chain lines)
    {x : AliasLine} :
    x ∈ all (lines.flatMap Line.all) ↔
      x.FoundIn (lines.flatMap Line.all) := by
  rw [all_flatMap h, ofLines, List.mem_filterMap]
  have hWhole := h.whole
  induction h with
  | @last l _ _ =>
      have hLine := hWhole l (List.mem_singleton_self l)
      rw [List.flatMap_cons]
      constructor
      · rintro ⟨_, hMem, hSome⟩
        cases List.mem_singleton.mp hMem
        exact foundIn_append hLine hSome _
      · intro hFound
        rcases hFound.cases_append hLine with hSome | hMore
        · exact ⟨l, List.mem_singleton_self l, hSome⟩
        · rcases hMore with ⟨front, rest, hNil, -, hSome⟩
          rcases List.append_eq_nil_iff.mp hNil.symm
            with ⟨-, rfl⟩
          cases hSome
  | @cons l lines _ hStop _ ih =>
      rcases List.forall_mem_cons.mp hWhole
        with ⟨hLine, hLines⟩
      rw [List.flatMap_cons]
      constructor
      · rintro ⟨m, hMem, hSome⟩
        rcases List.mem_cons.mp hMem with rfl | hMem
        · exact foundIn_append hLine hSome _
        · exact ((ih hLines).mp ⟨m, hMem, hSome⟩).append hStop
      · intro hFound
        rcases hFound.cases_append hLine with hSome | hMore
        · exact ⟨l, List.mem_cons_self .., hSome⟩
        · rcases (ih hLines).mpr hMore with ⟨m, hMem, hSome⟩
          exact ⟨m, List.mem_cons_of_mem l hMem, hSome⟩

end AliasLine

------------------------------------------------------------
-- Lines That Are Read Without Errors
------------------------------------------------------------

/- An alias line that can be read is read as its alias. -/
theorem Line.read_of_ofTokens?
    {l : Line}
    {x : AliasLine}
    (hLine : AliasLine.ofTokens? l.tokens = some x)
    {inFunction : Bool}
    {entry : Option Entry}
    (h : l.read inFunction = .ok entry) :
    ∃ a, entry = some (.aliasing a) ∧ x.Gives a := by
  rcases AliasLine.ofTokens?_eq_some_iff.mp hLine
    with ⟨word, colon, equals, rest, hTokens⟩
  simp only [read, hTokens, List.cons_append] at h
  split at h
  · rename_i e c hRead
    cases h
    have hWord :
        (⟨.keyword .define, word⟩ : Token).kind =
          .keyword .define := rfl
    rcases Reader.ofTokens?_of_aliasLine hWord hRead
      with ⟨a, y, rfl, hSame, hGives⟩
    cases hSame
    exact ⟨a, rfl, hGives⟩
  · cases h

namespace Draft

theorem totalErrors_le_step
    (source : SourceText)
    (d : Draft)
    (l : Line) :
    d.log.totalErrors ≤
      (d.step source l).log.totalErrors := by
  unfold step
  split
  · exact Nat.le_refl _
  split
  · exact Nat.le_succ _
  · exact Nat.le_refl _
  · unfold accept
    simp only
    split
    · exact Nat.le_succ _
    · exact Nat.le_refl _

theorem totalErrors_le_foldl
    (source : SourceText)
    (lines : List Line)
    (d : Draft) :
    d.log.totalErrors ≤
      (lines.foldl (step source) d).log.totalErrors := by
  induction lines generalizing d with
  | nil => exact Nat.le_refl _
  | cons l lines ih =>
      exact (totalErrors_le_step source d l).trans (ih _)

/- Without errors a line adds the alias whose line it is. -/
theorem aliases_step_of_clean
    {source : SourceText}
    {d : Draft}
    {l : Line}
    {x : AliasLine}
    (hLine : AliasLine.ofTokens? l.tokens = some x)
    (h : (d.step source l).log.totalErrors = 0) :
    ∃ a, x.Gives a ∧
      (d.step source l).script.aliases =
        d.script.aliases ++ [a] := by
  have hNone : d.log.totalErrors = 0 :=
    Nat.eq_zero_of_le_zero (h ▸ totalErrors_le_step source d l)
  have hRoom : d.log.isFull = false := by
    simp [Log.isFull, hNone, Log.capacity]
  simp only [step, hRoom] at h ⊢
  cases hRead : l.read (!d.script.functions.isEmpty) with
  | error e =>
      rw [hRead] at h
      cases h
  | ok entry =>
      rcases Line.read_of_ofTokens? hLine hRead
        with ⟨a, rfl, hGives⟩
      refine ⟨a, hGives, ?_⟩
      simp only [Bool.false_eq_true, if_false, script_accept]
      rfl

/- Other lines add no alias. -/
theorem aliases_step_of_ne
    {source : SourceText}
    {d : Draft}
    {l : Line}
    (hLine : AliasLine.ofTokens? l.tokens = none) :
    (d.step source l).script.aliases = d.script.aliases := by
  rcases aliases_step source d l
    with hSame | ⟨x, a, hSome, -, -⟩
  · exact hSame
  · cases hLine.symm.trans hSome

/- Where no error is recorded, each alias line is read. -/
theorem aliases_foldl_of_clean
    {source : SourceText}
    {lines : List Line}
    {d : Draft}
    (h : (lines.foldl (step source) d).log.totalErrors = 0) :
    ∃ more,
      List.Forall₂ AliasLine.Gives
          (AliasLine.ofLines lines) more ∧
        (lines.foldl (step source) d).script.aliases =
          d.script.aliases ++ more := by
  induction lines generalizing d with
  | nil => exact ⟨[], .nil, (List.append_nil _).symm⟩
  | cons l lines ih =>
      rw [List.foldl_cons] at h ⊢
      rcases ih h with ⟨more, hGives, hAliases⟩
      have hStep :
          (d.step source l).log.totalErrors = 0 :=
        Nat.eq_zero_of_le_zero
          (h ▸ totalErrors_le_foldl source lines _)
      rw [hAliases, AliasLine.ofLines, List.filterMap_cons]
      cases hLine : AliasLine.ofTokens? l.tokens with
      | none =>
          rw [aliases_step_of_ne hLine]
          exact ⟨more, hGives, rfl⟩
      | some x =>
          rcases aliases_step_of_clean hLine hStep
            with ⟨a, hFirst, hNew⟩
          rw [hNew, List.append_assoc, List.singleton_append]
          exact ⟨a :: more, .cons hFirst hGives, rfl⟩

end Draft

------------------------------------------------------------
-- Names In The Table
------------------------------------------------------------

namespace AliasTable

/- Each alias line has its name in the table. -/
theorem mem_names_foldl_add
    (source : SourceText)
    (lines : List AliasLine)
    (acc : AliasTable × Log) :
    ∀ name ∈ acc.1.names ++ lines.map AliasLine.name,
      name ∈ (lines.foldl (add source) acc).1.names := by
  induction lines generalizing acc with
  | nil => simp
  | cons x lines ih =>
      intro name hName
      refine ih (add source acc x) name ?_
      rcases add_cases source acc x
        with ⟨hSame, hOld, -⟩ | ⟨-, hAdded, -⟩
      · rw [hSame]
        simp only [List.map_cons, List.mem_append,
          List.mem_cons] at hName ⊢
        rcases hName with hName | rfl | hName
        · exact .inl hName
        · exact .inl hOld
        · exact .inr hName
      · rw [names, hAdded, List.map_append]
        simpa [names, AliasLine.entry] using hName

theorem mem_names_ofTokens
    {source : SourceText}
    {ts : List Token}
    {x : AliasLine}
    (h : x ∈ AliasLine.all ts) :
    x.name ∈ (ofTokens source ts).1.names :=
  mem_names_foldl_add source (AliasLine.all ts)
    (empty, .empty) x.name
    (List.mem_append_right _ (List.mem_map_of_mem h))

/- A name that is taken once stands for the text of its line. -/
theorem body?_of_mem
    {table : AliasTable}
    (h : table.names.Nodup)
    {e : AliasEntry}
    (he : e ∈ table.entries) :
    table.body? e.name = some e.body := by
  cases hFind : table.entry? e.name with
  | none =>
      exact absurd (List.mem_map_of_mem he)
        (not_mem_names hFind)
  | some first =>
      have hName : first.name = e.name := by
        simpa using List.find?_some hFind
      have hMem : first ∈ table.entries :=
        List.mem_of_find?_eq_some hFind
      rw [body?, hFind,
        List.inj_on_of_nodup_map h hMem he hName]
      rfl

end AliasTable

------------------------------------------------------------
-- Whole Texts
------------------------------------------------------------

namespace Script

/- Without errors each alias line of a text is read. -/
theorem aliases_of_clean
    {source : SourceText}
    (h : (ofSource source).log.hasErrors = false) :
    List.Forall₂ AliasLine.Gives
      (AliasLine.all (Token.ofSource source).tokens)
      (ofSource source).script.aliases := by
  rcases tokens_ofSource source
    with ⟨front, stop, hTokens, hFront, hStop⟩
  have hNone := totalErrors_of_clean h
  show List.Forall₂ _ _
    (ofTokens source
      (Token.ofSource source).tokens).script.aliases
  rw [hTokens] at hNone ⊢
  rw [ofTokens_eq] at hNone ⊢
  rcases readTokens_splice
      (AliasTable.inline_ofTokens source (front ++ [stop]))
      source (spliceLog source (front ++ [stop])) hFront hStop
    with ⟨lines, hRead, hLines⟩
  rw [hRead] at hNone ⊢
  rcases Draft.aliases_foldl_of_clean hNone
    with ⟨more, hGives, hAliases⟩
  rw [ofLines, hAliases, ← hLines]
  exact hGives

/-
  Each alias of a text stands on an alias line at the start
  of a line, and its name is in the table. If nothing is wrong
  with the text, the table has the names of these aliases and
  no others, each of them once, and an alias stands for the
  tokens of its value.
-/
theorem aliases_agree_with_table
    (source : SourceText) :
    let tokens := (Token.ofSource source).tokens
    let table := (AliasTable.ofTokens source tokens).1
    let script := (ofSource source).script
    ((ofSource source).log.hasErrors = false →
        table.names = script.aliasNames ∧
          script.aliasNames.Nodup ∧
          ∀ a ∈ script.aliases,
            table.body? a.name.text =
              some (AliasTable.bodyKinds
                (AliasTable.lexBody source a.value).tokens)) ∧
      ∃ found,
        found.Sublist (AliasLine.all tokens) ∧
          List.Forall₂ AliasLine.Gives found script.aliases ∧
          ∀ x ∈ found,
            x.FoundIn tokens ∧ x.name ∈ table.names := by
  intro tokens table script
  constructor
  · intro h
    have hTable := (totalErrors_le_ofTokens source tokens).trans
      (Nat.le_of_eq (totalErrors_of_clean h))
    rcases AliasTable.nodup_of_ofTokens
        (Nat.eq_zero_of_le_zero hTable)
      with ⟨hEntries, hNodup⟩
    have hGives := aliases_of_clean h
    have hNames : table.names = script.aliasNames := by
      rw [aliasNames, ← AliasLine.map_name_of_gives hGives,
        AliasTable.names, hEntries, List.map_map]
      rfl
    have hDistinct : table.names.Nodup := by
      rwa [AliasTable.names, hEntries, List.map_map]
    refine ⟨hNames, hNames ▸ hDistinct, fun a ha => ?_⟩
    rcases Success.exists_of_forall₂ hGives a ha
      with ⟨x, hx, hLine⟩
    have hEntry : x.entry source ∈ table.entries := by
      rw [hEntries]
      exact List.mem_map_of_mem hx
    rw [hLine.name, hLine.value]
    exact AliasTable.body?_of_mem hDistinct hEntry
  · rcases tokens_ofSource source
      with ⟨front, stop, hTokens, hFront, hStop⟩
    rcases Line.chain_ofTokens hFront hStop
      with ⟨hChain, hAll⟩
    rw [← hTokens] at hChain hAll
    rcases aliases_readTokens
        (AliasTable.inline_ofTokens source (front ++ [stop]))
        source (spliceLog source (front ++ [stop])) hFront
        hStop
      with ⟨found, hFound, hGives⟩
    rw [← ofTokens_eq, ← hTokens] at hGives
    rw [← hTokens] at hFound
    refine ⟨found, hFound, hGives, fun x hx => ⟨?_, ?_⟩⟩
    · have hMem := hFound.subset hx
      rw [← hAll] at hMem
      have hPlace := (AliasLine.mem_all_iff hChain).mp hMem
      rwa [hAll] at hPlace
    · exact AliasTable.mem_names_ofTokens (hFound.subset hx)

/- Aliases below their uses, one of them in another. -/
def dusk : SourceText :=
  ⟨"dusk", "@start // first\n\nglowImmediate: [1] dim\n" ++
    "pause: rest ms\n\n" ++
    "  define : dim = \"(half, half, 9, 3)\" // soft\n" ++
    "define: half = '7'\ndefine: rest = '250'"⟩

theorem aliases_agree_with_table_dusk :
    (ofSource dusk).log.hasErrors = false ∧
      (ofSource dusk).script.aliasNames =
        ["dim", "half", "rest"] ∧
      (AliasTable.ofTokens dusk
        (Token.ofSource dusk).tokens).1.names =
          ["dim", "half", "rest"] ∧
      ["dim", "half", "rest"].Nodup ∧
      ∀ a ∈ (ofSource dusk).script.aliases,
        (AliasTable.ofTokens dusk
            (Token.ofSource dusk).tokens).1.body?
              a.name.text =
          some (AliasTable.bodyKinds
            (AliasTable.lexBody dusk a.value).tokens) := by
  have hNone : (ofSource dusk).log.hasErrors = false := by
    decide +kernel
  have hAliases : (ofSource dusk).script.aliasNames =
      ["dim", "half", "rest"] := by
    decide +kernel
  rcases aliases_agree_with_table dusk with ⟨hClean, -⟩
  rcases hClean hNone with ⟨hNames, hNodup, hBodies⟩
  exact ⟨hNone, hAliases, hNames.trans hAliases,
    hAliases ▸ hNodup, hBodies⟩

end Script

end LightShow
