import LightShow.Proofs.InRange
import LightShow.Proofs.Logs
import LightShow.Proofs.RoundTrip

/-
  Names are used once where no error is reported.

  A second function of a name is reported where its header is
  read. A second alias of a name is reported before lines are
  read, where the table of aliases is made; splicing changes
  no alias line, so the aliases that are read are among those
  of the table.

  Key definitions include:
    * `AliasLine.Gives`
    * `Script.aliasNames`

  Main statements:
    * `AliasLine.ofLines_spliced`
    * `AliasTable.nodup_of_ofTokens`
    * `Draft.aliases_foldl`
    * `Script.nodup_names_readTokens`
    * `Script.read_in_range`
-/

namespace LightShow

------------------------------------------------------------
-- Splicing Changes No Alias Line
------------------------------------------------------------

/- A line that takes aliases keeps its first token or none. -/
theorem AliasTable.head?_spliceLine
    {table : AliasTable}
    {line : List Token}
    (h : takesAliases line = true) :
    (table.spliceLine line).1 = [] ∨
      (table.spliceLine line).1.head? = line.head? := by
  cases line with
  | nil => exact .inl rfl
  | cons t line =>
      have hFirst := h
      rw [Pass.takesAliases_singleton] at hFirst
      rw [spliceLine, if_pos h, List.foldlM_cons,
        Pass.put_of_takesAliases hFirst]
      simp only [bind, Except.bind]
      cases hPut : line.foldlM (put table) [t] with
      | error fault => exact .inl rfl
      | ok out =>
          -- all that follows is put out on top of the first
          have hExtends := extends_foldlM table.holds_true
            (fun _ _ => trivial) hPut
          rcases hExtends.exists_append with ⟨more, rfl, -⟩
          exact .inr (by simp)

namespace AliasLine

/- Alias lines are told by the front of a line. -/
theorem ofTokens?_append
    {tokens : List Token}
    {x : AliasLine}
    (h : ofTokens? tokens = some x)
    (more : List Token) :
    ofTokens? (tokens ++ more) = some x := by
  unfold ofTokens? at h
  split at h
  · cases h
    rfl
  · cases h

/- Lines that take aliases are no alias lines. -/
theorem ofTokens?_of_takesAliases
    {tokens : List Token}
    (h : AliasTable.takesAliases tokens = true)
    (table : AliasTable) :
    ofTokens? tokens = none ∧
      ofTokens? (table.spliceLine tokens).1 = none := by
  rcases AliasTable.takesAliases_eq_true h
    with ⟨k, ks, hKinds, hWord⟩
  have hOther :
      (tokens.map Token.kind).head? ≠
        some (.keyword .define) := by
    rw [hKinds]
    rintro ⟨⟩
    cases hWord
  refine ⟨ofTokens?_eq_none hOther, ofTokens?_eq_none ?_⟩
  rcases AliasTable.head?_spliceLine h with hNone | hFirst
  · rw [hNone]
    exact nofun
  · rwa [List.head?_map, hFirst, ← List.head?_map]

/- Splicing neither makes an alias line nor changes one. -/
theorem ofTokens?_spliceLine
    (table : AliasTable)
    (tokens : List Token) :
    ofTokens? (table.spliceLine tokens).1 =
      ofTokens? tokens := by
  by_cases hTakes : AliasTable.takesAliases tokens = true
  · rcases ofTokens?_of_takesAliases hTakes table
      with ⟨hLine, hSpliced⟩
    rw [hLine, hSpliced]
  · rw [AliasTable.spliceLine, if_neg hTakes]

/- The alias lines among lines. -/
def ofLines (lines : List Line) : List AliasLine :=
  lines.filterMap fun l => ofTokens? l.tokens

theorem splitNewlines_of_no_newline
    {ts : List Token}
    (h : ∀ t ∈ ts, t.isNewline = false) :
    Token.splitNewlines ts = [ts] := by
  induction ts with
  | nil => rfl
  | cons t ts ih =>
      rcases List.forall_mem_cons.mp h with ⟨hFirst, hRest⟩
      have hTail := ih hRest
      simp only [Token.splitNewlines] at hTail ⊢
      rw [List.foldr_cons, hTail, hFirst]
      rfl

/- The five tokens at the front of an alias line. -/
theorem ofTokens?_eq_some_iff
    {tokens : List Token}
    {x : AliasLine} :
    ofTokens? tokens = some x ↔
      ∃ word colon equals rest,
        tokens =
          [⟨.keyword .define, word⟩, ⟨.mark .colon, colon⟩,
           ⟨.word x.name, x.nameSpan⟩,
           ⟨.mark .equals, equals⟩,
           ⟨.quoted x.text, x.textSpan⟩] ++ rest := by
  constructor
  · intro h
    unfold ofTokens? at h
    split at h
    · cases h
      exact ⟨_, _, _, _, rfl⟩
    · cases h
  · rintro ⟨word, colon, equals, rest, rfl⟩
    rfl

/- The token that ends a line is no part of an alias line. -/
theorem ofTokens?_append_stop
    {tokens : List Token}
    {stop : Token}
    (hStop : ¬stop.Inline)
    (more : List Token) :
    ofTokens? (tokens ++ stop :: more) =
      ofTokens? tokens := by
  ext x
  constructor
  · intro h
    rcases ofTokens?_eq_some_iff.mp h
      with ⟨word, colon, equals, rest, hTokens⟩
    rcases List.append_eq_append_iff.mp hTokens
      with ⟨middle, hFive, hMore⟩ | ⟨middle, rfl, -⟩
    · cases middle with
      | nil =>
          rw [List.append_nil] at hFive
          rw [← hFive]
          rfl
      | cons t middle =>
          -- all five tokens are inside their line
          rcases hMore with ⟨⟩
          have hMem : stop ∈ tokens ++ stop :: middle := by
            simp
          rw [← hFive] at hMem
          refine absurd (?_ : stop.Inline) hStop
          simp only [List.mem_cons, List.not_mem_nil,
            or_false] at hMem
          rcases hMem with rfl | rfl | rfl | rfl | rfl
          all_goals exact ⟨rfl, rfl⟩
    · rfl
  · exact fun h => ofTokens?_append h _

/- All alias lines among lines are found, and no others. -/
theorem all_flatMap
    {lines : List Line}
    (h : Line.Chain lines) :
    all (lines.flatMap Line.all) = ofLines lines := by
  induction h with
  | @last l hTokens hStop =>
      have hWhole := (Line.Chain.last hTokens hStop).whole l
        (List.mem_singleton_self l)
      have hNewline : ∀ t ∈ l.all, t.isNewline = false := by
        refine List.forall_mem_append.mpr
          ⟨fun t ht => (hTokens t ht).1, ?_⟩
        simp_all [Token.isEnd, Token.isNewline]
      rw [List.flatMap_cons, List.flatMap_nil,
        List.append_nil, all,
        splitNewlines_of_no_newline hNewline, ofLines,
        List.filterMap_cons, List.filterMap_cons, Line.all,
        ofTokens?_append_stop hWhole.stop]
      rfl
  | @cons l lines hTokens hStop hRest ih =>
      rw [List.flatMap_cons, Line.all, List.append_assoc,
        List.singleton_append, all,
        splitNewlines_append hTokens hStop, ofLines,
        List.filterMap_cons, List.filterMap_cons]
      rw [all, ofLines] at ih
      rw [ih]

/- Splicing keeps the alias lines as they are. -/
theorem ofLines_spliced
    (table : AliasTable)
    (lines : List Line) :
    ofLines (lines.map (Line.spliced table)) =
      ofLines lines := by
  rw [ofLines, ofLines, List.filterMap_map]
  refine List.filterMap_congr fun l _ => ?_
  exact ofTokens?_spliceLine table l.tokens

/- An alias line and the alias that is read off it. -/
structure Gives (x : AliasLine) (a : Alias) : Prop where
  name : a.name = ⟨x.name, x.nameSpan⟩
  value : a.value = x.text

end AliasLine

------------------------------------------------------------
-- Aliases That Are Read
------------------------------------------------------------

namespace Reader

theorem take_eq_ok
    {α : Type}
    {wanted : Wanted}
    {select : Token → Option α}
    {c d : Cursor}
    {a : α}
    (h : take wanted select c = .ok (a, d)) :
    ∃ t rest, c.rest = t :: rest ∧ select t = some a ∧
      d.rest = rest := by
  unfold take at h
  split at h
  · cases h
  · rename_i t rest hRest
    split at h
    · cases h
    · rename_i hSelect
      cases h
      exact ⟨t, rest, hRest, hSelect, rfl⟩

theorem token_eq_ok
    {kind : Token.Kind}
    {c d : Cursor}
    {u : Unit}
    (h : token kind c = .ok (u, d)) :
    ∃ span, c.rest = ⟨kind, span⟩ :: d.rest := by
  rcases take_eq_ok h
    with ⟨⟨found, span⟩, rest, hRest, hKind, rfl⟩
  have hSame : found = kind := by
    by_contra hOther
    simp [hOther] at hKind
  exact ⟨span, hSame ▸ hRest⟩

/- An alias that is read stands on an alias line. -/
theorem ofTokens?_of_aliasLine
    {t : Token}
    (hWord : t.kind = .keyword .define)
    {start : Span}
    {c d : Cursor}
    {e : Entry}
    (h : aliasLine start c = .ok (e, d)) :
    ∃ a x, e = .aliasing a ∧
      AliasLine.ofTokens? (t :: c.rest) = some x ∧
        x.Gives a := by
  rcases bind_eq_ok h with ⟨_, c₁, hColon, h⟩
  rcases bind_eq_ok h with ⟨name, c₂, hName, h⟩
  rcases bind_eq_ok h with ⟨_, c₃, hEquals, h⟩
  rcases bind_eq_ok h with ⟨value, c₄, hValue, h⟩
  rcases bind_eq_ok h with ⟨span, c₅, _, h⟩
  rcases bind_eq_ok h with ⟨_, c₆, _, h⟩
  cases h
  rcases token_eq_ok hColon with ⟨_, hRest⟩
  rcases take_eq_ok hName
    with ⟨⟨kind, nameSpan⟩, _, hRest₁, hWordKind, rfl⟩
  rcases token_eq_ok hEquals with ⟨_, hRest₂⟩
  rcases take_eq_ok hValue
    with ⟨⟨textKind, textSpan⟩, _, hRest₃, hText, rfl⟩
  cases kind <;> cases hWordKind
  cases textKind <;> cases hText
  rcases t with ⟨kind, _⟩
  cases hWord
  refine ⟨_, ⟨_, nameSpan, value, textSpan⟩, rfl, ?_,
    ⟨rfl, rfl⟩⟩
  rw [hRest, hRest₁, hRest₂, hRest₃]
  rfl

theorem alias?_setting
    (start : Span) :
    Gives (fun e => e.alias? = none) (setting start) := by
  refine .after fun _ => .after fun _ => .after fun _ => ?_
  refine .after fun _ => .after fun _ => .after fun _ => ?_
  exact gives_pure rfl

theorem alias?_statement
    (start : Token) :
    Gives (fun e => e.alias? = none) (statement start) :=
  .after fun _ => .after fun _ => .after fun _ =>
    .after fun _ => gives_pure rfl

end Reader

/-
  A reader of lines that start with `t` which finds aliases
  on alias lines only.
-/
def Reader.OnAliasLines (t : Token) (p : Reader Entry) : Prop :=
  ∀ c a d, p c = .ok (.aliasing a, d) →
    ∃ x, AliasLine.ofTokens? (t :: c.rest) = some x ∧
      x.Gives a

theorem Reader.Gives.onAliasLines
    {p : Reader Entry}
    (h : Gives (fun e => e.alias? = none) p)
    (t : Token) :
    OnAliasLines t p := by
  intro c a d hRead
  cases h _ _ _ hRead

theorem Reader.onAliasLines_refusal
    (t : Token)
    (e : LineError) :
    OnAliasLines t (ofExcept (.error e)) := by
  intro c a d h
  cases h

/- Only alias lines are read as aliases. -/
theorem Entry.onAliasLines_read
    (inFunction : Bool)
    (t : Token) :
    Reader.OnAliasLines t (Entry.read inFunction t) := by
  unfold Entry.read
  split
  · exact (Reader.alias?_setting _).onAliasLines t
  · rename_i hWord
    intro c a d h
    rcases Reader.ofTokens?_of_aliasLine hWord h
      with ⟨_, x, ⟨⟩, hLine, hGives⟩
    exact ⟨x, hLine, hGives⟩
  · refine Reader.Gives.onAliasLines ?_ t
    exact .after fun _ => Reader.gives_pure rfl
  · split
    · split
      · exact (Reader.alias?_statement t).onAliasLines t
      · exact Reader.onAliasLines_refusal t _
    · exact Reader.onAliasLines_refusal t _
  · exact Reader.onAliasLines_refusal t _

theorem Line.ofTokens?_of_read
    {l : Line}
    {inFunction : Bool}
    {a : Alias}
    (h : l.read inFunction = .ok (some (.aliasing a))) :
    ∃ x, AliasLine.ofTokens? l.tokens = some x ∧
      x.Gives a := by
  unfold read at h
  split at h
  · cases h
  · rename_i t rest hTokens
    split at h
    · rename_i entry c hRead
      cases h
      rw [hTokens]
      exact Entry.onAliasLines_read _ _ _ _ _ hRead
    · cases h

theorem AliasLine.map_name_of_gives
    {lines : List AliasLine}
    {aliases : List Alias}
    (h : List.Forall₂ Gives lines aliases) :
    lines.map AliasLine.name =
      aliases.map fun a => a.name.text := by
  induction h with
  | nil => rfl
  | cons hFirst _ ih =>
      rw [List.map_cons, List.map_cons, ih, hFirst.name]

/- The names of the aliases of a script. -/
def Script.aliasNames (s : Script) : List String :=
  s.aliases.map fun a => a.name.text

namespace Draft

theorem script_accept
    (source : SourceText)
    (d : Draft)
    (entry : Entry) :
    (d.accept source entry).script = d.script.add entry := by
  unfold accept
  simp only
  split <;> rfl

/- A line adds at most the alias whose line it is. -/
theorem aliases_step
    (source : SourceText)
    (d : Draft)
    (l : Line) :
    (d.step source l).script.aliases = d.script.aliases ∨
      ∃ x a, AliasLine.ofTokens? l.tokens = some x ∧
        x.Gives a ∧
        (d.step source l).script.aliases =
          d.script.aliases ++ [a] := by
  unfold step
  split
  · exact .inl rfl
  split
  · exact .inl rfl
  · exact .inl rfl
  · rename_i entry hRead
    rw [script_accept]
    cases entry with
    | aliasing a =>
        rcases Line.ofTokens?_of_read hRead
          with ⟨x, hLine, hGives⟩
        exact .inr ⟨x, a, hLine, hGives, rfl⟩
    | _ => exact .inl rfl

/- The aliases that are read are those of some alias lines. -/
theorem aliases_foldl
    (source : SourceText)
    (lines : List Line)
    (d : Draft) :
    ∃ found more,
      found.Sublist (AliasLine.ofLines lines) ∧
        List.Forall₂ AliasLine.Gives found more ∧
        (lines.foldl (step source) d).script.aliases =
          d.script.aliases ++ more := by
  induction lines generalizing d with
  | nil =>
      exact ⟨[], [], .slnil, .nil, (List.append_nil _).symm⟩
  | cons l lines ih =>
      rcases ih (d.step source l)
        with ⟨found, more, hFound, hGives, hAliases⟩
      rw [List.foldl_cons, hAliases, AliasLine.ofLines,
        List.filterMap_cons]
      rcases aliases_step source d l
        with hSame | ⟨x, a, hLine, hFirst, hNew⟩
      · refine ⟨found, more, ?_, hGives, by rw [hSame]⟩
        split
        · exact hFound
        · exact hFound.cons _
      · rw [hLine]
        refine ⟨x :: found, a :: more, hFound.cons_cons x,
          .cons hFirst hGives, ?_⟩
        rw [hNew, List.append_assoc, List.singleton_append]

end Draft

------------------------------------------------------------
-- Tables Without Errors
------------------------------------------------------------

/- The entry that an alias line makes. -/
def AliasLine.entry
    (source : SourceText)
    (x : AliasLine) : AliasEntry :=
  ⟨x.name, x.nameSpan,
    AliasTable.bodyKinds
      (AliasTable.lexBody source x.text).tokens⟩

namespace AliasTable

/- The names of a table. -/
def names (table : AliasTable) : List String :=
  table.entries.map AliasEntry.name

theorem not_mem_names
    {table : AliasTable}
    {name : String}
    (h : table.entry? name = none) :
    name ∉ table.names := by
  intro hMem
  rcases List.mem_map.mp hMem with ⟨e, he, rfl⟩
  simpa using List.find?_eq_none.mp h e he

/- A name that is taken is an error, any other one is added. -/
theorem add_cases
    (source : SourceText)
    (acc : AliasTable × Log)
    (line : AliasLine) :
    ((add source acc line).1 = acc.1 ∧
        line.name ∈ acc.1.names ∧
        acc.2.totalErrors <
          (add source acc line).2.totalErrors) ∨
      (line.name ∉ acc.1.names ∧
        (add source acc line).1.entries =
          acc.1.entries ++ [line.entry source] ∧
        acc.2.totalErrors ≤
          (add source acc line).2.totalErrors) := by
  unfold add
  simp only
  split
  · rename_i first hFirst
    have hName : first.name = line.name := by
      simpa using List.find?_some hFirst
    have hMem : first ∈ acc.1.entries :=
      List.mem_of_find?_eq_some hFirst
    exact .inl ⟨rfl, hName ▸ List.mem_map_of_mem hMem,
      Nat.lt_succ_self _⟩
  · rename_i hNew
    refine .inr ⟨not_mem_names hNew, rfl, ?_⟩
    have hCount := Log.totalErrors_foldl id acc.2
    simp only [id] at hCount
    rw [hCount]
    exact Nat.le_add_right _ _

/- Without errors each line has an entry and its own name. -/
theorem entries_foldl_add
    {source : SourceText}
    {lines : List AliasLine}
    {acc : AliasTable × Log}
    (hNames : acc.1.names.Nodup)
    (h : (lines.foldl (add source) acc).2.totalErrors = 0) :
    acc.2.totalErrors = 0 ∧
      (lines.foldl (add source) acc).1.entries =
        acc.1.entries ++
          lines.map (AliasLine.entry source) ∧
      (acc.1.names ++ lines.map AliasLine.name).Nodup := by
  induction lines generalizing acc with
  | nil =>
      exact ⟨h, (List.append_nil _).symm, by simpa using hNames⟩
  | cons x lines ih =>
      rcases add_cases source acc x
        with ⟨hSame, -, hLess⟩ | ⟨hNew, hAdded, hLe⟩
      · have hNone := (ih (hSame.symm ▸ hNames) h).1
        omega
      · have hMore :
            (add source acc x).1.names =
              acc.1.names ++ [x.name] := by
          rw [names, hAdded, List.map_append]
          rfl
        have hNext : (add source acc x).1.names.Nodup := by
          rw [hMore, ← List.concat_eq_append]
          exact hNames.concat hNew
        rcases ih hNext h with ⟨hNone, hEntries, hAll⟩
        rw [hMore, List.append_assoc] at hAll
        refine ⟨by omega, ?_, hAll⟩
        rw [List.foldl_cons, hEntries, hAdded,
          List.append_assoc]
        rfl

/- Where no error is found, all alias lines differ. -/
theorem nodup_of_ofTokens
    {source : SourceText}
    {ts : List Token}
    (h : (ofTokens source ts).2.totalErrors = 0) :
    (ofTokens source ts).1.entries =
        (AliasLine.all ts).map (AliasLine.entry source) ∧
      ((AliasLine.all ts).map AliasLine.name).Nodup := by
  have hEmpty : AliasTable.empty.names.Nodup := List.nodup_nil
  exact (entries_foldl_add hEmpty h).2

theorem exact_foldl_add
    (source : SourceText)
    (lines : List AliasLine)
    {acc : AliasTable × Log}
    (h : acc.2.Exact) :
    (lines.foldl (add source) acc).2.Exact := by
  induction lines generalizing acc with
  | nil => exact h
  | cons x lines ih =>
      refine ih ?_
      unfold add
      simp only
      split
      · exact h.pushError _
      · exact h.foldl id _

end AliasTable

------------------------------------------------------------
-- Errors Of A Run
------------------------------------------------------------

namespace Draft

/- A turn records at most one error. -/
theorem log_turn
    (source : SourceText)
    (last : Token)
    (d : Draft)
    (t : Token)
    (rest : List Token) :
    (d.turn source last t rest).1.log = d.log ∨
      ∃ e, (d.turn source last t rest).1.log =
        d.log.pushError e := by
  unfold turn
  split
  · unfold accept
    simp only
    split
    · exact .inr ⟨_, rfl⟩
    · exact .inl rfl
  · exact .inr ⟨_, rfl⟩

theorem exact_run
    {source : SourceText}
    {last : Token}
    {d : Draft}
    (h : d.log.Exact)
    (ts : List Token) :
    (d.run source last ts).log.Exact := by
  refine run_induction (P := fun d => d.log.Exact) ?_ h
  intro d t rest _ hExact
  rcases log_turn source last d t rest with hLog | ⟨e, hLog⟩
  · exact hLog ▸ hExact
  · exact hLog ▸ hExact.pushError e

theorem totalErrors_le_run
    (source : SourceText)
    (last : Token)
    (d : Draft)
    (ts : List Token) :
    d.log.totalErrors ≤
      (d.run source last ts).log.totalErrors := by
  refine run_induction
    (P := fun e => d.log.totalErrors ≤ e.log.totalErrors)
    ?_ (Nat.le_refl _)
  intro e t rest _ hLe
  rcases log_turn source last e t rest with hLog | ⟨x, hLog⟩
  · exact hLog ▸ hLe
  · exact hLog ▸ Nat.le_succ_of_le hLe

end Draft

------------------------------------------------------------
-- Functions Without Errors
------------------------------------------------------------

namespace Script

/- A header that does not clash has a name of its own. -/
theorem nodup_names_add
    {script : Script}
    (h : script.names.Nodup)
    {entry : Entry}
    (hClash : script.clash? entry = none) :
    (script.add entry).names.Nodup := by
  cases entry with
  | setting d => exact h
  | aliasing a => exact h
  | header name =>
      have hNone : script.find? name.text = none :=
        Option.map_eq_none_iff.mp hClash
      have hNew : name.text ∉ script.names := by
        intro hMem
        rcases List.mem_map.mp hMem with ⟨f, hf, hSame⟩
        simpa [hSame] using List.find?_eq_none.mp hNone f hf
      have hNames :
          (script.add (.header name)).names =
            script.names ++ [name.text] := by
        simp [names, add]
      rw [hNames, ← List.concat_eq_append]
      exact h.concat hNew
  | statement st =>
      have hNames :
          (script.add (.statement st)).names =
            script.names := by
        have hSame := congrArg (List.map Name.text)
          (Function.map_name_pushLast st script.functions)
        simpa [names, add, Function.comp_def] using hSame
      rwa [hNames]

theorem nodup_names_turn
    {source : SourceText}
    {last : Token}
    {d : Draft}
    (h : d.log.totalErrors = 0 → d.script.names.Nodup)
    (t : Token)
    (rest : List Token)
    (hNone :
      (d.turn source last t rest).1.log.totalErrors = 0) :
    (d.turn source last t rest).1.script.names.Nodup := by
  unfold Draft.turn at hNone ⊢
  split at hNone
  · rename_i entry c hRead
    rw [Draft.script_accept]
    unfold Draft.accept at hNone
    simp only at hNone
    split at hNone
    · cases hNone
    · rename_i hClash
      exact nodup_names_add (h hNone) hClash
  · cases hNone

/- Without errors, all functions that are read differ. -/
theorem nodup_names_readTokens
    {source : SourceText}
    {log : Log}
    {ts : List Token}
    (h : (readTokens source log ts).log.totalErrors = 0) :
    (readTokens source log ts).script.names.Nodup := by
  refine Draft.run_induction
    (P := fun d => d.log.totalErrors = 0 →
      d.script.names.Nodup) ?_ ?_ h
  · exact fun d t rest _ hd => nodup_names_turn hd t rest
  · exact fun _ => List.nodup_nil

------------------------------------------------------------
-- Whole Texts
------------------------------------------------------------

/- Reading what is spliced is taking in spliced lines. -/
theorem readTokens_splice
    {table : AliasTable}
    (hTable : table.Inline)
    (source : SourceText)
    (log : Log)
    {front : List Token}
    {stop : Token}
    (hFront : ∀ t ∈ front, t.isEnd = false)
    (hStop : stop.isEnd = true) :
    ∃ lines,
      readTokens source log
          (table.splice (front ++ [stop])).1 =
        ofLines source log lines ∧
      AliasLine.ofLines lines =
        AliasLine.all (front ++ [stop]) := by
  rcases Line.chain_ofTokens hFront hStop with ⟨hChain, hAll⟩
  refine ⟨(Line.ofTokens (front ++ [stop])).map
    (Line.spliced table), ?_, ?_⟩
  · rw [← hAll, AliasTable.splice_chain hTable hChain, hAll]
    exact Draft.run_eq_foldl source _
      (AliasTable.chain_spliced hTable hChain) ⟨{}, log⟩
  · rw [AliasLine.ofLines_spliced,
      ← AliasLine.all_flatMap hChain, hAll]

/- The aliases of a text stand on alias lines. -/
theorem aliases_readTokens
    {table : AliasTable}
    (hTable : table.Inline)
    (source : SourceText)
    (log : Log)
    {front : List Token}
    {stop : Token}
    (hFront : ∀ t ∈ front, t.isEnd = false)
    (hStop : stop.isEnd = true) :
    ∃ found,
      found.Sublist (AliasLine.all (front ++ [stop])) ∧
        List.Forall₂ AliasLine.Gives found
          (readTokens source log
            (table.splice (front ++ [stop])).1).script.aliases
      := by
  rcases readTokens_splice hTable source log hFront hStop
    with ⟨lines, hRead, hLines⟩
  rcases Draft.aliases_foldl source lines ⟨{}, log⟩
    with ⟨found, more, hFound, hGives, hAliases⟩
  refine ⟨found, hLines ▸ hFound, ?_⟩
  rw [hRead, ofLines, hAliases]
  exact hGives

/- The log with which lines start to be read. -/
def spliceLog
    (source : SourceText)
    (ts : List Token) : Log :=
  let (table, tableLog) := AliasTable.ofTokens source ts
  (table.splice ts).2.foldl
    (fun log x => log.pushError (x.1.diagnostic source x.2))
    tableLog

theorem ofTokens_eq
    (source : SourceText)
    (ts : List Token) :
    ofTokens source ts =
      readTokens source (spliceLog source ts)
        ((AliasTable.ofTokens source ts).1.splice ts).1 :=
  rfl

theorem exact_ofTokens
    (source : SourceText)
    (ts : List Token) :
    (ofTokens source ts).log.Exact := by
  have hTable : (AliasTable.ofTokens source ts).2.Exact :=
    AliasTable.exact_foldl_add source _ Log.exact_empty
  rw [ofTokens_eq]
  exact Draft.exact_run (hTable.foldl _ _) _

/- Errors in the table of aliases are never taken back. -/
theorem totalErrors_le_ofTokens
    (source : SourceText)
    (ts : List Token) :
    (AliasTable.ofTokens source ts).2.totalErrors ≤
      (ofTokens source ts).log.totalErrors := by
  have hSplice :
      (AliasTable.ofTokens source ts).2.totalErrors ≤
        (spliceLog source ts).totalErrors := by
    unfold spliceLog
    simp only
    rw [Log.totalErrors_foldl]
    exact Nat.le_add_right _ _
  rw [ofTokens_eq]
  exact hSplice.trans (Draft.totalErrors_le_run source _
    ⟨{}, spliceLog source ts⟩ _)

/- Without errors in the text there are none in its tokens. -/
theorem totalErrors_of_clean
    {source : SourceText}
    (h : (ofSource source).log.hasErrors = false) :
    (ofTokens source
      (Token.ofSource source).tokens).log.totalErrors = 0 := by
  have hSum : (ofSource source).log.totalErrors = 0 := by
    simpa [Log.hasErrors] using h
  have hTotal :=
    Log.totalErrors_extend (Token.ofSource source).log
      (exact_ofTokens source (Token.ofSource source).tokens)
  unfold ofSource at hSum
  simp only at hSum
  omega

/- The tokens of a text end where the text ends, only there. -/
theorem tokens_ofSource
    (source : SourceText) :
    ∃ front stop,
      (Token.ofSource source).tokens = front ++ [stop] ∧
        (∀ t ∈ front, t.isEnd = false) ∧
        stop.isEnd = true := by
  rcases Token.exists_ofSource source
    with ⟨front, stop, hTokens, hFront⟩
  refine ⟨front, .endAt stop, hTokens, fun t ht => ?_, rfl⟩
  simpa [Token.isEnd] using (hFront t ht).2

/-
  Whatever a text says, everything that is read of it is in
  range. If nothing is wrong with it, functions and aliases
  have names of their own.
-/
theorem read_in_range
    (source : SourceText) :
    (ofSource source).script.InRange ∧
      ((ofSource source).log.hasErrors = false →
        (ofSource source).script.names.Nodup ∧
          (ofSource source).script.aliasNames.Nodup) := by
  refine ⟨inRange_ofSource source, fun h => ?_⟩
  rcases tokens_ofSource source
    with ⟨front, stop, hTokens, hFront, hStop⟩
  have hNone := totalErrors_of_clean h
  constructor
  · exact nodup_names_readTokens hNone
  · have hTable := totalErrors_le_ofTokens source
      (Token.ofSource source).tokens
    have hLines := (AliasTable.nodup_of_ofTokens
      (Nat.eq_zero_of_le_zero (hNone ▸ hTable))).2
    have hInline := AliasTable.inline_ofTokens source
      (Token.ofSource source).tokens
    rw [hTokens] at hLines hInline
    rcases aliases_readTokens hInline source
        (spliceLog source (front ++ [stop])) hFront hStop
      with ⟨found, hFound, hGives⟩
    show (ofTokens source
      (Token.ofSource source).tokens).script.aliasNames.Nodup
    rw [hTokens, ofTokens_eq, aliasNames,
      ← AliasLine.map_name_of_gives hGives]
    exact (hFound.map AliasLine.name).nodup hLines

/- Two aliases and two functions, each with its own name. -/
def duet : SourceText :=
  ⟨"duet", "define: pair = \"2, 1-2\"\n" ++
    "define: half = \"(1,2,3,15)\"\n" ++
    "@start\nglowImmediate: [pair] half\n" ++
    "callAsync: @echo (zorder = 7)\n" ++
    "@echo\nhere: top\npause: 5 ms\ngoto: top"⟩

theorem read_in_range_duet :
    (ofSource duet).log.hasErrors = false ∧
      (ofSource duet).script.InRange ∧
      (ofSource duet).script.names.Nodup ∧
      (ofSource duet).script.aliasNames.Nodup := by
  have hNone : (ofSource duet).log.hasErrors = false := by
    decide +kernel
  rcases read_in_range duet with ⟨hRange, hNames⟩
  exact ⟨hNone, hRange, hNames hNone⟩

end Script

end LightShow
