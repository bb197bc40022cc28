import LightShow.Proofs.DistinctNames

/-
  What becomes of each line when aliases are replaced.

  A line that does not start with one of three words stays.
  On the others every token gives a run of tokens at its own
  place, and a word is left only right behind a number. If
  some word cannot be replaced, the line is emptied and there
  is one error. What becomes of a line depends on the line and
  the table alone, and replacing aliases again changes nothing.

  Key definitions include:
    * `AliasTable.TakesAliases`
    * `AliasTable.Yields`
    * `AliasTable.OnlyUnits`
    * `AliasTable.Outcome`

  Main statements:
    * `AliasTable.yields_put`
    * `AliasTable.outcome_spliceLine`
    * `AliasTable.spliceLine_spliceLine`
    * `AliasTable.aliases_are_replaced_by_line`
-/

namespace LightShow

namespace AliasTable

variable {table : AliasTable}

------------------------------------------------------------
-- What Can Become Of A Line
------------------------------------------------------------

/- A line that starts with a word whose lines take aliases. -/
def TakesAliases (line : List Token) : Prop :=
  ∃ t rest, line = t :: rest ∧
    (t.kind = .keyword .glowImmediate ∨
      t.kind = .keyword .glowRamp ∨
      t.kind = .keyword .pause)

/-
  The tokens that are put out for one token: all at its
  place, and the token itself if it is no word.
-/
structure Yields (t : Token) (run : List Token) : Prop where
  span_eq : ∀ u ∈ run, u.span = t.span
  kept : (∀ name, t.kind ≠ .word name) → run = [t]

/- Every word comes right behind a number. -/
def OnlyUnits (ts : List Token) : Prop :=
  ∀ front name span back,
    ts = front ++ ⟨.word name, span⟩ :: back →
      ∃ n place,
        front.getLast? = some ⟨.number n, place⟩

/- A word that has no text, or one that nests too deep. -/
inductive Unreplaced (table : AliasTable) : AliasFault → Prop
  | unknown {name : String}
      (h : table.body? name = none) :
      Unreplaced table (.unknown name)
  | tooDeep {name : String} {body : List Token.Kind}
      (h : table.body? name = some body) :
      Unreplaced table (.tooDeep name)

/- What a line can become, with the faults found in it. -/
inductive Outcome
    (table : AliasTable)
    (line : List Token) :
    List Token → List (AliasFault × Span) → Prop
  | unchanged
      (h : ¬TakesAliases line) :
      Outcome table line line []
  | replaced
      {runs : List (List Token)}
      (h : TakesAliases line)
      (hRuns : List.Forall₂ Yields line runs)
      (hFirst : runs.flatten.head? = line.head?)
      (hUnits : OnlyUnits runs.flatten) :
      Outcome table line runs.flatten []
  | emptied
      {t : Token}
      {fault : AliasFault}
      (h : TakesAliases line)
      (hToken : t ∈ line)
      (hFault : Unreplaced table fault) :
      Outcome table line [] [(fault, t.span)]

theorem takesAliases_iff
    {line : List Token} :
    takesAliases line = true ↔ TakesAliases line := by
  constructor
  · intro h
    rcases line with _ | ⟨⟨kind, span⟩, rest⟩
    · cases h
    · cases kind with
      | keyword k =>
          refine ⟨_, rest, rfl, ?_⟩
          cases k with
          | glowImmediate => exact .inl rfl
          | glowRamp => exact .inr (.inl rfl)
          | pause => exact .inr (.inr rfl)
          | _ => cases h
      | _ => cases h
  · rintro ⟨⟨kind, span⟩, rest, rfl, h⟩
    rcases h with h | h | h
    · cases h
      rfl
    · cases h
      rfl
    · cases h
      rfl

------------------------------------------------------------
-- Faults
------------------------------------------------------------

theorem unreplaced_of_expand
    {span : Span}
    {levels : Nat}
    {out : List Token}
    {kind : Token.Kind}
    {fault : AliasFault}
    (h : table.expand span levels out kind = .error fault) :
    Unreplaced table fault := by
  induction levels generalizing out kind with
  | zero =>
      unfold expand at h
      split at h
      · split at h
        · cases h
        · split at h
          · rename_i hNone
            cases h
            exact .unknown hNone
          · rename_i hSome
            cases h
            exact .tooDeep hSome
      · cases h
  | succ levels ih =>
      unfold expand at h
      split at h
      · split at h
        · cases h
        · split at h
          · rename_i hNone
            cases h
            exact .unknown hNone
          · rcases Success.foldlM_eq_error h
              with ⟨kind, -, out, h⟩
            exact ih h
      · cases h

theorem unreplaced_of_put
    {out : List Token}
    {t : Token}
    {fault : AliasFault × Span}
    (h : table.put out t = .error fault) :
    Unreplaced table fault.1 ∧ fault.2 = t.span := by
  unfold put at h
  split at h
  · cases h
  · rename_i hExpand
    cases h
    exact ⟨unreplaced_of_expand hExpand, rfl⟩

------------------------------------------------------------
-- Runs Of Tokens
------------------------------------------------------------

/- Units and tokens that are no words are put out as such. -/
theorem put_of_unit
    {out : List Token}
    {t : Token}
    (h : ∀ name, t.kind = .word name →
      endsInNumber out = true) :
    table.put out t = .ok (t :: out) := by
  rcases t with ⟨kind, span⟩
  cases kind with
  | word name => simp [put, expand, h name rfl]
  | _ => rfl

/- What is put out for a token goes on top, at its place. -/
theorem yields_put
    {out new : List Token}
    {t : Token}
    (h : table.put out t = .ok new) :
    ∃ run, new = run.reverse ++ out ∧ Yields t run := by
  rcases (extends_put table.holds_true trivial h).exists_append
    with ⟨more, rfl, hMore⟩
  refine ⟨more.reverse, by rw [List.reverse_reverse], ?_, ?_⟩
  · intro u hu
    exact (hMore u (List.mem_reverse.mp hu)).2
  · intro hOther
    have hSame : table.put out t = .ok (t :: out) :=
      put_of_unit fun name hWord => absurd hWord (hOther name)
    rw [hSame] at h
    have hSplit : [t] ++ out = more ++ out := Except.ok.inj h
    rw [← List.append_cancel_right hSplit]
    rfl

/- What is put out for a line, token by token. -/
theorem yields_foldlM
    {line out new : List Token}
    (h : line.foldlM (put table) out = .ok new) :
    ∃ runs, new = runs.flatten.reverse ++ out ∧
      List.Forall₂ Yields line runs := by
  induction line generalizing out with
  | nil =>
      cases h
      exact ⟨[], rfl, .nil⟩
  | cons t line ih =>
      rw [List.foldlM_cons] at h
      rcases Success.bind_eq_ok h with ⟨middle, hPut, h⟩
      rcases yields_put hPut with ⟨run, rfl, hRun⟩
      rcases ih h with ⟨runs, rfl, hRuns⟩
      exact ⟨run :: runs, by simp, .cons hRun hRuns⟩

------------------------------------------------------------
-- Words That Are Left
------------------------------------------------------------

/- A word that was put out on top of nothing is a unit. -/
theorem Extends.endsInNumber
    {P : Token → Prop}
    {out : List Token}
    (h : Extends P [] out)
    {more rest : List Token}
    {name : String}
    {span : Span}
    (hOut : out = more ++ ⟨.word name, span⟩ :: rest) :
    AliasTable.endsInNumber rest = true := by
  induction h generalizing more with
  | refl => simp at hOut
  | push _ _ hWord ih =>
      cases more with
      | nil =>
          cases hOut
          exact hWord name rfl
      | cons u more =>
          cases hOut
          exact ih rfl

theorem Extends.onlyUnits
    {P : Token → Prop}
    {out : List Token}
    (h : Extends P [] out) :
    OnlyUnits out.reverse := by
  intro front name span back hSplit
  have hOut :
      out = back.reverse ++ ⟨.word name, span⟩ ::
        front.reverse := by
    rw [← List.reverse_reverse out, hSplit]
    simp
  have hNumber := h.endsInNumber hOut
  unfold AliasTable.endsInNumber at hNumber
  split at hNumber
  · rename_i n place rest hFront
    refine ⟨n, place, ?_⟩
    rw [← List.head?_reverse, hFront]
    rfl
  · cases hNumber

/- What was put out is put out again in the same way. -/
theorem Extends.foldlM_put
    {P : Token → Prop}
    {out : List Token}
    (h : Extends P [] out)
    (table : AliasTable) :
    out.reverse.foldlM (put table) [] = .ok out := by
  induction h with
  | refl => rfl
  | @push before t _ _ hWord ih =>
      have hPut : table.put before t = .ok (t :: before) :=
        put_of_unit hWord
      rw [List.reverse_cons, List.foldlM_append, ih]
      simp [bind, Except.bind, hPut, pure, Except.pure]

------------------------------------------------------------
-- Each Line
------------------------------------------------------------

theorem head?_flatten
    {line : List Token}
    (h : TakesAliases line)
    {runs : List (List Token)}
    (hRuns : List.Forall₂ Yields line runs) :
    runs.flatten.head? = line.head? := by
  rcases h with ⟨t, rest, rfl, hWord⟩
  cases hRuns with
  | cons hRun _ =>
      have hKept := hRun.kept fun name hName => by
        simp [hName] at hWord
      rw [hKept]
      rfl

theorem takesAliases_of_head?
    {line new : List Token}
    (hHead : new.head? = line.head?)
    (h : takesAliases line = true) :
    takesAliases new = true := by
  cases line with
  | nil => cases h
  | cons t line =>
      cases new with
      | nil => cases hHead
      | cons u new =>
          cases hHead
          rwa [Pass.takesAliases_singleton] at h ⊢

/- A line is kept, replaced or emptied. -/
theorem outcome_spliceLine
    (table : AliasTable)
    (line : List Token) :
    Outcome table line (table.spliceLine line).1
      (table.spliceLine line).2 := by
  unfold spliceLine
  split
  · rename_i hTakes
    have hStarts := takesAliases_iff.mp hTakes
    cases hLine : line.foldlM (put table) [] with
    | ok out =>
        rcases yields_foldlM hLine with ⟨runs, hOut, hRuns⟩
        have hFlat : out.reverse = runs.flatten := by
          rw [hOut, List.append_nil, List.reverse_reverse]
        have hExtends := extends_foldlM table.holds_true
          (fun _ _ => trivial) hLine
        have hUnits := hExtends.onlyUnits
        simp only [hFlat] at hUnits ⊢
        exact .replaced hStarts hRuns
          (head?_flatten hStarts hRuns) hUnits
    | error fault =>
        rcases Success.foldlM_eq_error hLine
          with ⟨t, ht, _, hPut⟩
        rcases fault with ⟨fault, span⟩
        rcases unreplaced_of_put hPut with ⟨hFault, hSpan⟩
        cases hSpan
        exact .emptied hStarts ht hFault
  · rename_i hTakes
    exact .unchanged fun hStarts =>
      hTakes (takesAliases_iff.mpr hStarts)

/- A line whose aliases are replaced has none left. -/
theorem spliceLine_spliceLine
    (table : AliasTable)
    (line : List Token) :
    table.spliceLine (table.spliceLine line).1 =
      ((table.spliceLine line).1, []) := by
  by_cases hTakes : takesAliases line = true
  · cases hLine : line.foldlM (put table) [] with
    | ok out =>
        have hFirst : table.spliceLine line =
            (out.reverse, []) := by
          simp [spliceLine, hTakes, hLine]
        have hAgain : takesAliases out.reverse = true := by
          rcases yields_foldlM hLine with ⟨runs, hOut, hRuns⟩
          have hHead := head?_flatten
            (takesAliases_iff.mp hTakes) hRuns
          rw [hOut, List.append_nil, List.reverse_reverse]
          exact takesAliases_of_head? hHead hTakes
        have hExtends := extends_foldlM table.holds_true
          (fun _ _ => trivial) hLine
        have hSame := hExtends.foldlM_put table
        rw [hFirst]
        simp [spliceLine, hAgain, hSame]
    | error fault =>
        have hFirst :
            table.spliceLine line = ([], [fault]) := by
          simp [spliceLine, hTakes, hLine]
        rw [hFirst]
        rfl
  · have hSame : table.spliceLine line = (line, []) :=
      if_neg hTakes
    rw [hSame]
    exact hSame

------------------------------------------------------------
-- All Lines
------------------------------------------------------------

theorem Outcome.code
    {line new : List Token}
    {faults : List (AliasFault × Span)}
    (h : Outcome table line new faults) :
    ∀ f ∈ faults,
      f.1.code = .unknownAlias ∨ f.1.code = .aliasTooDeep := by
  cases h with
  | unchanged _ => exact nofun
  | replaced _ _ _ _ => exact nofun
  | emptied _ _ hFault =>
      refine List.forall_mem_singleton.mpr ?_
      cases hFault with
      | unknown _ => exact .inl rfl
      | tooDeep _ => exact .inr rfl

/-
  Replacing aliases keeps the lines and their order. What
  becomes of a line and what is reported for it depends on
  that line alone. It is kept, or replaced token by token
  with no word left but units, or emptied with one fault.
  Doing it again changes nothing.
-/
theorem aliases_are_replaced_by_line
    (table : AliasTable)
    (hTable : table.Inline)
    (front : List Token)
    (stop : Token)
    (hFront : ∀ t ∈ front, t.isEnd = false)
    (hStop : stop.isEnd = true) :
    let ts := front ++ [stop]
    let lines := Line.ofTokens ts
    let out := table.splice ts
    (Line.Chain lines ∧ lines.flatMap Line.all = ts) ∧
      (Line.ofTokens out.1 = lines.map (Line.spliced table) ∧
        (Line.ofTokens out.1).flatMap Line.all = out.1) ∧
      out.2 =
        lines.flatMap (fun l =>
          (table.spliceLine l.tokens).2) ∧
      (∀ l ∈ lines,
        Outcome table l.tokens (l.spliced table).tokens
          (table.spliceLine l.tokens).2) ∧
      (∀ f ∈ out.2,
        f.1.code = .unknownAlias ∨
          f.1.code = .aliasTooDeep) ∧
      table.splice out.1 = (out.1, []) := by
  intro ts lines out
  rcases Line.chain_ofTokens hFront hStop
    with ⟨hChain, hAll⟩
  have hOut : out =
      ((lines.map (Line.spliced table)).flatMap Line.all,
        lines.flatMap fun l =>
          (table.spliceLine l.tokens).2) := by
    have hSplice := splice_chain hTable hChain
    rwa [hAll] at hSplice
  have hSpliced := chain_spliced hTable hChain
  have hLines :
      Line.ofTokens out.1 = lines.map (Line.spliced table) := by
    rw [hOut]
    exact hSpliced.ofTokens_flatMap
  have hAgain : table.splice out.1 = (out.1, []) := by
    rw [hOut]
    refine splice_of_unchanged hTable hSpliced ?_
    refine List.forall_mem_map.mpr fun l _ => ?_
    exact spliceLine_spliceLine table l.tokens
  have hCodes : ∀ f ∈ out.2,
      f.1.code = .unknownAlias ∨ f.1.code = .aliasTooDeep := by
    rw [hOut]
    intro f hf
    rcases List.mem_flatMap.mp hf with ⟨l, -, hf⟩
    exact (outcome_spliceLine table l.tokens).code f hf
  exact ⟨⟨hChain, hAll⟩, ⟨hLines, by rw [hLines, hOut]⟩,
    by rw [hOut],
    fun l _ => outcome_spliceLine table l.tokens, hCodes,
    hAgain⟩

/- Two aliases that stand for each other, and a number. -/
def looping : AliasTable :=
  ⟨[⟨"left", .point 8 9, [.word "right"]⟩,
    ⟨"right", .point 9 9, [.word "left"]⟩,
    ⟨"beat", .point 10 9, [.number 250]⟩]⟩

/- Lines with a number from an alias, a cycle and a label. -/
def rounds : List Token :=
  [.keyword .pause, .word "beat", .word "ms", .newline,
   .keyword .pause, .word "left", .word "beat", .newline,
   .keyword .here, .word "left", .newline,
   .keyword .pause, .word "beat", .word "s", .word "up"].mapIdx
     fun i kind => ⟨kind, .point 1 i⟩

/- Units stay, and a cycle empties no line but its own. -/
theorem aliases_are_replaced_by_line_looping :
    looping.Inline ∧
      (∀ t ∈ rounds, t.isEnd = false) ∧
      (Token.endAt .start).isEnd = true ∧
      looping.splice (rounds ++ [.endAt .start]) =
        ([⟨.keyword .pause, .point 1 0⟩,
          ⟨.number 250, .point 1 1⟩,
          ⟨.word "ms", .point 1 2⟩,
          ⟨.newline, .point 1 3⟩,
          ⟨.newline, .point 1 7⟩,
          ⟨.keyword .here, .point 1 8⟩,
          ⟨.word "left", .point 1 9⟩,
          ⟨.newline, .point 1 10⟩,
          .endAt .start],
         [(.tooDeep "left", .point 1 5),
          (.unknown "up", .point 1 14)]) ∧
      looping.splice
          (looping.splice (rounds ++ [.endAt .start])).1 =
        ((looping.splice (rounds ++ [.endAt .start])).1,
          []) := by
  have hTable : looping.Inline := by
    unfold AliasTable.Inline Holds
    decide
  have hFront : ∀ t ∈ rounds, t.isEnd = false := by decide
  have hStop : (Token.endAt .start).isEnd = true := rfl
  rcases aliases_are_replaced_by_line looping hTable rounds
      (.endAt .start) hFront hStop
    with ⟨-, -, -, -, -, hAgain⟩
  exact ⟨hTable, hFront, hStop, by decide +kernel, hAgain⟩

end AliasTable

end LightShow
