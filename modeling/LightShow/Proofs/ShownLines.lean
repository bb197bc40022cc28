import LightShow.Proofs.LineReaders
import LightShow.Proofs.SplicedLines

/-
  Lines that show the entries of a script.

  The tokens of a written script fall into one line for each
  entry. Alias lines among them make a table without faults,
  and since words on the other lines are units or stand where
  no alias is looked for, splicing leaves all lines alone.

  Key definitions include:
    * `Line.Shows`
    * `Entry.alias?`
    * `Token.Kind.settled`

  Main statements:
    * `Line.exists_lines`
    * `Line.ofTokens_of_shows`
    * `AliasTable.log_ofTokens`
    * `AliasTable.splice_flatMap`
-/

namespace LightShow

------------------------------------------------------------
-- Lines That Show Entries
------------------------------------------------------------

namespace Line

/- A line with the tokens of an entry. -/
structure Shows (l : Line) (e : Entry) : Prop where
  tokens : l.tokens.map Token.kind = e.kinds
  stop : l.stop.kind = .newline

/- Tokens of the kinds of some entries are their lines. -/
theorem exists_lines
    {ts : List Token}
    {es : List Entry}
    (h : ts.map Token.kind =
      (es.flatMap fun e => e.kinds ++ [.newline]) ++
        [.endOfFile]) :
    ∃ lines stop,
      ts = lines.flatMap all ++ [stop] ∧
        stop.kind = .endOfFile ∧
        List.Forall₂ Shows lines es := by
  induction es generalizing ts with
  | nil =>
      rcases List.map_eq_singleton_iff.mp h
        with ⟨stop, rfl, hStop⟩
      exact ⟨[], stop, rfl, hStop, .nil⟩
  | cons e es ih =>
      rw [List.flatMap_cons, List.append_assoc,
        List.append_assoc] at h
      rcases List.map_eq_append_iff.mp h
        with ⟨tokens, rest, rfl, hTokens, hRest⟩
      rcases List.map_eq_cons_iff.mp hRest
        with ⟨stop, rest, rfl, hStop, hRest⟩
      rcases ih hRest with ⟨lines, last, rfl, hLast, hLines⟩
      refine ⟨⟨tokens, stop⟩ :: lines, last, ?_, hLast,
        .cons ⟨hTokens, hStop⟩ hLines⟩
      simp [all]

end Line

theorem Ink.newline_not_mem_ofNumbers
    (ns : List Nat) :
    newline ∉ ofNumbers ns := by
  induction ns with
  | nil => simp [ofNumbers]
  | cons n ns ih =>
      cases ns with
      | nil => simp [ofNumbers]
      | cons m ns => simpa [ofNumbers] using ih

/- An entry does not end its line itself. -/
theorem Entry.newline_not_mem_inks
    (e : Entry) :
    Ink.newline ∉ e.inks := by
  cases e with
  | statement s =>
      rcases s with ⟨action, span⟩
      cases action with
      | callAsync function zOrder =>
          cases zOrder <;>
            simp [inks, Action.inks, Action.operands,
              Ink.ofOption]
      | _ =>
          simp [inks, Action.inks, Action.operands,
            LedList.inks, Color.inks, Duration.inks,
            Ink.ofOption, Ink.newline_not_mem_ofNumbers]
  | _ => simp [inks, Ink.ofTable]

theorem Ink.inline_of_kind?
    {i : Ink}
    (h : i ≠ .newline)
    {t : Token}
    (hKind : i.kind? = some t.kind) :
    t.Inline := by
  have hKinds :
      t.kind ≠ .newline ∧ t.kind ≠ .endOfFile := by
    cases i with
    | newline => exact absurd rfl h
    | blanks more => cases hKind
    | _ =>
        rw [← Option.some.inj hKind]
        exact ⟨nofun, nofun⟩
  simpa [Token.Inline, Token.isNewline, Token.isEnd]
    using hKinds

theorem Line.Shows.inline
    {l : Line}
    {e : Entry}
    (h : l.Shows e) :
    ∀ t ∈ l.tokens, t.Inline := by
  intro t ht
  have hKind := List.mem_map_of_mem (f := Token.kind) ht
  rw [h.tokens] at hKind
  rcases List.mem_filterMap.mp hKind with ⟨i, hi, hSome⟩
  refine Ink.inline_of_kind? ?_ hSome
  rintro rfl
  exact e.newline_not_mem_inks hi

theorem Line.Shows.isNewline_stop
    {l : Line}
    {e : Entry}
    (h : l.Shows e) :
    l.stop.isNewline = true ∧ l.stop.isEnd = false := by
  simp [Token.isNewline, Token.isEnd, h.stop]

namespace Line

/- Lines that show entries, and the end of the text. -/
theorem chain_of_shows
    {lines : List Line}
    {es : List Entry}
    (h : List.Forall₂ Shows lines es)
    {stop : Token}
    (hStop : stop.kind = .endOfFile) :
    Chain (lines ++ [⟨[], stop⟩]) := by
  induction h with
  | nil => exact .last nofun (by simp [Token.isEnd, hStop])
  | cons hFirst _ ih =>
      exact .cons hFirst.inline hFirst.isNewline_stop.1 ih

theorem ofTokens_of_shows
    {lines : List Line}
    {es : List Entry}
    (h : List.Forall₂ Shows lines es)
    {stop : Token}
    (hStop : stop.kind = .endOfFile) :
    ofTokens (lines.flatMap all ++ [stop]) =
      lines ++ [⟨[], stop⟩] := by
  simpa [all] using (chain_of_shows h hStop).ofTokens_flatMap

/- The end of the text comes behind all of these lines. -/
theorem isEnd_flatMap_all
    {lines : List Line}
    {es : List Entry}
    (h : List.Forall₂ Shows lines es) :
    ∀ t ∈ lines.flatMap all, t.isEnd = false := by
  induction h with
  | nil => exact nofun
  | @cons l e lines es hFirst _ ih =>
      intro t ht
      rcases List.mem_append.mp ht with ht | ht
      · rcases List.mem_append.mp ht with ht | ht
        · exact (hFirst.inline t ht).2
        · rw [List.mem_singleton.mp ht]
          exact hFirst.isNewline_stop.2
      · exact ih t ht

end Line

------------------------------------------------------------
-- Alias Lines
------------------------------------------------------------

/- The name and the text of an alias. -/
def Entry.alias? : Entry → Option (String × String)
  | .aliasing a => some (a.name.text, a.value)
  | _ => none

theorem Action.isInstruction_keyword
    (a : Action) :
    a.keyword.isInstruction = true := by
  cases a <;> rfl

namespace AliasLine

theorem splitNewlines_append
    {tokens rest : List Token}
    {stop : Token}
    (hInline : ∀ t ∈ tokens, t.Inline)
    (hStop : stop.isNewline = true) :
    Token.splitNewlines (tokens ++ stop :: rest) =
      tokens :: Token.splitNewlines rest := by
  induction tokens with
  | nil => simp [Token.splitNewlines, hStop]
  | cons t tokens ih =>
      rcases List.forall_mem_cons.mp hInline
        with ⟨hFirst, hRest⟩
      have hTail := ih hRest
      simp only [Token.splitNewlines] at hTail ⊢
      rw [List.cons_append, List.foldr_cons, hTail]
      simp [Token.consLine, hFirst.1]

theorem ofTokens?_eq_none
    {tokens : List Token}
    (h : (tokens.map Token.kind).head? ≠
      some (.keyword .define)) :
    ofTokens? tokens = none := by
  unfold ofTokens?
  split
  · exact absurd rfl h
  · rfl

/- The line of an entry is an alias line if it is an alias. -/
theorem ofTokens?_of_kinds
    {tokens : List Token}
    {e : Entry}
    (h : tokens.map Token.kind = e.kinds) :
    (ofTokens? tokens).map (fun x => (x.name, x.text)) =
      e.alias? := by
  cases e with
  | aliasing a =>
      have hKinds :
          tokens.map Token.kind =
            [.keyword .define, .mark .colon,
             .word a.name.text, .mark .equals,
             .quoted a.value] := h
      rcases List.map_eq_cons_iff.mp hKinds
        with ⟨⟨_, _⟩, _, rfl, rfl, hColon⟩
      rcases List.map_eq_cons_iff.mp hColon
        with ⟨⟨_, _⟩, _, rfl, rfl, hName⟩
      rcases List.map_eq_cons_iff.mp hName
        with ⟨⟨_, _⟩, _, rfl, rfl, hEquals⟩
      rcases List.map_eq_cons_iff.mp hEquals
        with ⟨⟨_, _⟩, _, rfl, rfl, hText⟩
      rcases List.map_eq_cons_iff.mp hText
        with ⟨⟨_, _⟩, _, rfl, rfl, -⟩
      rfl
  | statement s =>
      rw [ofTokens?_eq_none]
      · rfl
      · rw [h]
        intro hHead
        have hWord :
            Token.Kind.keyword s.action.keyword =
              .keyword .define := Option.some.inj hHead
        have hNot := s.action.isInstruction_keyword
        rw [Token.Kind.keyword.inj hWord] at hNot
        cases hNot
  | _ =>
      rw [ofTokens?_eq_none]
      · rfl
      · rw [h]
        exact nofun

theorem map_all
    {lines : List Line}
    {es : List Entry}
    (h : List.Forall₂ Line.Shows lines es)
    {stop : Token}
    (hStop : stop.kind = .endOfFile) :
    (all (lines.flatMap Line.all ++ [stop])).map
        (fun x => (x.name, x.text)) =
      es.filterMap Entry.alias? := by
  induction h with
  | nil =>
      have hNone : ofTokens? [stop] = none := by
        apply ofTokens?_eq_none
        rw [List.map_singleton, hStop]
        exact nofun
      simp [all, Token.splitNewlines, Token.isNewline, hStop,
        Token.consLine, hNone]
  | @cons l e lines es hFirst _ ih =>
      have hLine := ofTokens?_of_kinds hFirst.tokens
      rw [List.filterMap_cons, ← hLine, ← ih, all, all,
        List.flatMap_cons, Line.all, List.append_assoc,
        List.append_assoc, List.singleton_append,
        splitNewlines_append hFirst.inline
          hFirst.isNewline_stop.1, List.filterMap_cons]
      cases ofTokens? l.tokens <;> rfl

end AliasLine

theorem Script.filterMap_alias?
    (s : Script) :
    s.entries.filterMap Entry.alias? =
      s.aliases.map fun a => (a.name.text, a.value) := by
  simp [entries, Function.entries, Entry.alias?,
    List.filterMap_map, List.filterMap_flatMap,
    Function.comp_def]

namespace AliasTable

/- Other names are not found because of a new one. -/
theorem entry?_append
    {table : AliasTable}
    {e : AliasEntry}
    {name : String}
    (hOld : table.entry? name = none)
    (hNew : e.name ≠ name) :
    AliasTable.entry? ⟨table.entries ++ [e]⟩ name =
      none := by
  simp only [ entry?, List.find?_append] at hOld ⊢
  simp [hOld, hNew]

/- Aliases with names and texts of their own have no faults. -/
theorem log_foldl_add
    {source : SourceText}
    {lines : List AliasLine}
    {table : AliasTable}
    (hNew : ∀ x ∈ lines, table.entry? x.name = none)
    (hNames : (lines.map AliasLine.name).Nodup)
    (hTexts : ∀ x ∈ lines,
      (lexBody source x.text).log = .empty) :
    (lines.foldl (add source) (table, .empty)).2 =
      .empty := by
  induction lines generalizing table with
  | nil => rfl
  | cons x lines ih =>
      rcases List.forall_mem_cons.mp hNew
        with ⟨hFirst, hRest⟩
      rcases List.forall_mem_cons.mp hTexts
        with ⟨hText, hOthers⟩
      rw [List.map_cons, List.nodup_cons] at hNames
      have hAdd :
          ∃ e, e.name = x.name ∧
            add source (table, .empty) x =
              (⟨table.entries ++ [e]⟩, .empty) := by
        refine ⟨⟨x.name, x.nameSpan,
          bodyKinds (lexBody source x.text).tokens⟩, rfl, ?_⟩
        simp [add, hFirst, hText, Log.empty]
      rcases hAdd with ⟨e, hName, hAdd⟩
      rw [List.foldl_cons, hAdd]
      -- a name that is new stays new for the lines below
      refine ih ?_ hNames.2 hOthers
      intro y hy
      refine entry?_append (hRest y hy) ?_
      intro hSame
      apply hNames.1
      rw [← hName, hSame]
      exact List.mem_map_of_mem hy

/- The table of a script that is well formed has no faults. -/
theorem log_ofTokens
    {script : Script}
    (h : script.WellFormed)
    {lines : List Line}
    (hLines : List.Forall₂ Line.Shows lines script.entries)
    {stop : Token}
    (hStop : stop.kind = .endOfFile)
    (source : SourceText) :
    (ofTokens source
      (lines.flatMap Line.all ++ [stop])).2 = .empty := by
  have hAll := AliasLine.map_all hLines hStop
  rw [Script.filterMap_alias?] at hAll
  refine log_foldl_add (fun _ _ => rfl) ?_ ?_
  · have hNames := congrArg (List.map Prod.fst) hAll
    simp only [List.map_map, Function.comp_def] at hNames
    rw [hNames]
    exact h.aliasNames
  · intro x hx
    have hMem := List.mem_map_of_mem
      (f := fun x : AliasLine => (x.name, x.text)) hx
    rw [hAll] at hMem
    rcases List.mem_map.mp hMem with ⟨a, ha, hSame⟩
    have hText : a.value = x.text :=
      congrArg Prod.snd hSame
    rw [← hText]
    exact Token.ofSource_of_clean (h.bodies a ha) source.name

end AliasTable

------------------------------------------------------------
-- Lines Without Aliases
------------------------------------------------------------

/-
  Whether each word is the unit of a number in front of it,
  given whether a number comes before the first token.
-/
def Token.Kind.settled : Bool → List Token.Kind → Bool
  | _, [] => true
  | behind, .word _ :: ks => behind && settled false ks
  | _, .number _ :: ks => settled true ks
  | _, _ :: ks => settled false ks

namespace AliasTable

open LightShow.Token.Kind (settled)

/- A unit is put out as it is. -/
theorem expand_of_settled
    (table : AliasTable)
    {t : Token}
    {out : List Token}
    {ks : List Token.Kind}
    (h : settled (endsInNumber out) (t.kind :: ks) = true)
    (levels : Nat) :
    table.expand t.span levels out t.kind =
      .ok (t :: out) := by
  rcases t with ⟨kind, span⟩
  cases kind with
  | word name =>
      have hNumber : endsInNumber out = true :=
        (Bool.and_eq_true_iff.mp h).1
      simp [expand, hNumber]
  | _ => simp [expand]

theorem settled_tail
    {t : Token}
    {out : List Token}
    {ks : List Token.Kind}
    (h : settled (endsInNumber out) (t.kind :: ks) = true) :
    settled (endsInNumber (t :: out)) ks = true := by
  rcases t with ⟨kind, span⟩
  cases kind with
  | word name => exact (Bool.and_eq_true_iff.mp h).2
  | _ => exact h

theorem foldlM_put
    (table : AliasTable)
    {tokens out : List Token}
    (h : settled (endsInNumber out)
      (tokens.map Token.kind) = true) :
    tokens.foldlM (put table) out =
      .ok (tokens.reverse ++ out) := by
  induction tokens generalizing out with
  | nil => rfl
  | cons t tokens ih =>
      have hPut : put table out t = .ok (t :: out) := by
        rw [put, expand_of_settled table h]
      rw [List.foldlM_cons, hPut]
      simpa [bind, Except.bind] using ih (settled_tail h)

theorem spliceLine_of_settled
    (table : AliasTable)
    {tokens : List Token}
    (h : takesAliases tokens = true →
      settled false (tokens.map Token.kind) = true) :
    table.spliceLine tokens = (tokens, []) := by
  unfold spliceLine
  split
  · rename_i hTakes
    have hFold :
        tokens.foldlM (put table) [] =
          .ok (tokens.reverse ++ []) :=
      foldlM_put table (h hTakes)
    rw [hFold]
    simp
  · rfl

end AliasTable

namespace Entry

open LightShow.Token.Kind (settled)

theorem settled_ofNumbers
    (behind : Bool)
    (ns : List Nat)
    (m : Mark)
    (ks : List Token.Kind) :
    settled behind
        ((Ink.ofNumbers ns).filterMap Ink.kind? ++
          .mark m :: ks) =
      settled false ks := by
  induction ns generalizing behind with
  | nil => rfl
  | cons n ns ih =>
      cases ns with
      | nil => rfl
      | cons k ns => exact ih false

/- On lines that take aliases, words are units. -/
theorem settled_kinds
    {e : Entry}
    {k : Keyword}
    {ks : List Token.Kind}
    (hKinds : e.kinds = .keyword k :: ks)
    (hTakes : k.takesAliases = true) :
    settled false e.kinds = true := by
  cases e with
  | setting d =>
      cases (List.cons.inj hKinds).1
      cases hTakes
  | aliasing a =>
      cases (List.cons.inj hKinds).1
      cases hTakes
  | header name => cases (List.cons.inj hKinds).1
  | statement s =>
      have hWord :
          s.action.keyword = k :=
        Token.Kind.keyword.inj (List.cons.inj hKinds).1
      rcases s with ⟨action, span⟩
      subst hWord
      -- calls, labels and jumps do not take aliases at all
      cases action with
      | glow leds color =>
          simp [kinds, inks, Action.inks, Action.operands,
            LedList.inks, Color.inks, List.filterMap_cons,
            Ink.kind?, settled, settled_ofNumbers]
      | ramp leds start stop duration =>
          simp [kinds, inks, Action.inks, Action.operands,
            LedList.inks, Color.inks, Duration.inks,
            List.filterMap_cons, Ink.kind?, settled,
            settled_ofNumbers]
      | pause duration => rfl
      | _ => cases hTakes

end Entry

namespace AliasTable

theorem takesAliases_eq_true
    {tokens : List Token}
    (h : takesAliases tokens = true) :
    ∃ k ks,
      tokens.map Token.kind = .keyword k :: ks ∧
        k.takesAliases = true := by
  unfold takesAliases at h
  split at h
  · exact ⟨_, _, rfl, h⟩
  · cases h

/- A line that shows an entry has no aliases in it. -/
theorem spliceLine_of_shows
    (table : AliasTable)
    {l : Line}
    {e : Entry}
    (h : l.Shows e) :
    table.spliceLine l.tokens = (l.tokens, []) := by
  refine spliceLine_of_settled table fun hTakes => ?_
  rcases takesAliases_eq_true hTakes with ⟨k, ks, hKinds, hWord⟩
  rw [h.tokens] at hKinds ⊢
  exact Entry.settled_kinds hKinds hWord

theorem spliceLine_of_forall₂
    (table : AliasTable)
    {lines : List Line}
    {es : List Entry}
    (h : List.Forall₂ Line.Shows lines es) :
    ∀ l ∈ lines,
      table.spliceLine l.tokens = (l.tokens, []) := by
  induction h with
  | nil => exact List.forall_mem_nil _
  | cons hFirst _ ih =>
      exact List.forall_mem_cons.mpr
        ⟨spliceLine_of_shows table hFirst, ih⟩

/- What was written has no aliases in it. -/
theorem splice_flatMap
    {table : AliasTable}
    (hTable : table.Inline)
    {lines : List Line}
    {es : List Entry}
    (h : List.Forall₂ Line.Shows lines es)
    {stop : Token}
    (hStop : stop.kind = .endOfFile) :
    table.splice (lines.flatMap Line.all ++ [stop]) =
      (lines.flatMap Line.all ++ [stop], []) := by
  have hUnchanged := splice_of_unchanged hTable
    (Line.chain_of_shows h hStop)
    (List.forall_mem_append.mpr
      ⟨spliceLine_of_forall₂ table h,
       List.forall_mem_singleton.mpr rfl⟩)
  simpa [Line.all] using hUnchanged

end AliasTable

end LightShow
