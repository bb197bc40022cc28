import LightShow.Proofs.DistinctNames
import LightShow.Proofs.Skipping

/-
  Reading comes to an end.

  Readers stop in front of a token that ends the text, so a
  cursor that has read none before has read none behind. Each
  pass over the items of an LED list and each pass over the
  entries of a script reads at least one token or leaves the
  loop, all loops end, and what they read is what the
  recursive functions read.

  Key definitions include:
    * `Reader.Stays`
    * `Draft.AtEntry`

  Main statements:
    * `Reader.Inline.stays`
    * `Reader.mem_fix_itemPass`
    * `Draft.entryPass_cases`
    * `Script.exists_readInLoops`
    * `Script.reading_comes_to_an_end`
-/

namespace LightShow

------------------------------------------------------------
-- Readers In Front Of The End
------------------------------------------------------------

namespace Reader

variable {α β : Type} {p : Reader α} {f : α → Reader β}

/- A reader that never reads the end of the text. -/
def Stays (p : Reader α) : Prop :=
  ∀ (ts : List Token) (c : Cursor), Token.Ended ts →
    c.On ts → (left (p c)).On ts

theorem Stays.bind
    (hp : Stays p)
    (hf : ∀ a, Stays (f a)) :
    Stays (p >>= f) := by
  intro ts c hEnded hOn
  have hFirst := hp ts c hEnded hOn
  cases h : p c with
  | error r =>
      rw [h] at hFirst
      rw [bind_of_error h]
      exact hFirst
  | ok v =>
      rw [h] at hFirst
      rw [bind_of_ok h]
      exact hf v.1 ts v.2 hEnded hFirst

theorem left_within
    (more : List Token)
    (last : Token)
    (r : Except Refusal (α × Cursor)) :
    left (within more last r) =
      (left r).within more last := by
  cases r <;> rfl

/-
  A reader inside a line stops at the first token that ends
  a line or the text, at the latest.
-/
theorem Inline.stays
    (h : Inline p) :
    Stays p := by
  intro ts c hEnded hOn
  refine ⟨(h c).stop.trans hOn.stop, ?_⟩
  rcases hOn.read with ⟨front, hFront, hRead⟩
  rcases Token.cases_line c.rest
    with hLine | ⟨line, stop, more, hRest, hLine, hStop⟩
  · -- no token that ends the text is left, so there is none
    have hOpen : ∀ t ∈ front ++ c.rest, t.isEnd = false :=
      List.forall_mem_append.mpr
        ⟨hRead, fun t ht => (hLine t ht).2⟩
    have hNone := hEnded.eq_nil (hFront ▸ hOpen)
    have hSuffix := (h c).suffix
    rw [hNone] at hFront
    rw [(List.append_eq_nil_iff.mp hFront).2] at hSuffix
    rw [List.suffix_nil.mp hSuffix]
    exact ⟨[], hNone.symm, nofun⟩
  · -- what is read is read of the line alone
    let alone : Cursor := ⟨line, stop, c.previous⟩
    have hWithin : c = alone.within more c.stop := by
      cases c
      cases hRest
      rfl
    have hLeft :
        left (p c) =
          (left (p alone)).within more c.stop := by
      rw [← left_within,
        ← (h alone).within_eq ⟨hLine, hStop⟩, ← hWithin]
    rcases (h alone).suffix with ⟨taken, hTaken⟩
    refine ⟨front ++ taken, ?_, ?_⟩
    · rw [← hFront, hRest, hLeft, Cursor.within,
        (h alone).stop, List.append_assoc,
        ← List.append_assoc taken, hTaken]
    · refine List.forall_mem_append.mpr ⟨hRead, ?_⟩
      intro t ht
      have hMem : t ∈ alone.rest :=
        hTaken ▸ List.mem_append_left _ ht
      exact (hLine t hMem).2

/- The reader of line ends leaves the end of the text. -/
theorem stays_lineEnd : Stays lineEnd := by
  intro ts c hEnded hOn
  unfold lineEnd
  split
  · exact hOn
  · rename_i t rest hRest
    have hPeek : c.peek = t := by
      rw [Cursor.peek, hRest]
      rfl
    have hAdvance : c.advance = c.after t rest := by
      rw [Cursor.advance, hRest]
    split
    · exact hOn
    · rename_i hOpen
      split
      · have hEnd : c.peek.isEnd = false :=
          hPeek ▸ Bool.eq_false_iff.mpr hOpen
        exact hAdvance ▸ hOn.advance hEnded hEnd
      · exact hOn

theorem stays_setting
    (start : Span) :
    Stays (setting start) := by
  refine (inline_token (by decide)).stays.bind fun _ => ?_
  refine inline_identifier.stays.bind fun _ => ?_
  refine (inline_token (by decide)).stays.bind fun _ => ?_
  refine inline_settingValue.stays.bind fun _ => ?_
  refine inline_previous.stays.bind fun _ => ?_
  exact stays_lineEnd.bind fun _ => (inline_pure _).stays

theorem stays_aliasLine
    (start : Span) :
    Stays (aliasLine start) := by
  refine (inline_token (by decide)).stays.bind fun _ => ?_
  refine inline_identifier.stays.bind fun _ => ?_
  refine (inline_token (by decide)).stays.bind fun _ => ?_
  refine inline_aliasText.stays.bind fun _ => ?_
  refine inline_previous.stays.bind fun _ => ?_
  exact stays_lineEnd.bind fun _ => (inline_pure _).stays

theorem stays_statement
    (start : Token) :
    Stays (statement start) := by
  refine (inline_token (by decide)).stays.bind fun _ => ?_
  refine (inline_action start).stays.bind fun _ => ?_
  refine inline_previous.stays.bind fun _ => ?_
  exact stays_lineEnd.bind fun _ => (inline_pure _).stays

end Reader

/- No entry goes past the end of the text. -/
theorem Entry.stays_read
    (inFunction : Bool)
    (t : Token) :
    Reader.Stays (Entry.read inFunction t) := by
  unfold Entry.read
  split
  · exact Reader.stays_setting _
  · exact Reader.stays_aliasLine _
  · exact Reader.stays_lineEnd.bind fun _ =>
      (Reader.inline_pure _).stays
  · split
    · split
      · exact Reader.stays_statement t
      · exact (Reader.inline_ofExcept _).stays
    · exact (Reader.inline_ofExcept _).stays
  · exact (Reader.inline_ofExcept _).stays

------------------------------------------------------------
-- Items Of An LED List
------------------------------------------------------------

namespace Reader

variable {ts : List Token} {c : Cursor}

theorem itemPass_again
    {ranges more : List LedRange}
    {next : Cursor}
    (h : .inr (more, next) ∈ itemPass (ranges, c)) :
    ∃ range d, ledRange c = .ok (range, d) ∧
      eat (.mark .comma) d = .ok (true, next) ∧
      more = ranges ++ [range] := by
  unfold itemPass at h
  cases hItem : ledRange c with
  | error r => simp [hItem] at h
  | ok v =>
      cases hComma : eat (.mark .comma) v.2 with
      | error r => simp [hItem, hComma] at h
      | ok w =>
          rcases w with ⟨found, e⟩
          cases found with
          | false => simp [hItem, hComma] at h
          | true =>
              simp only [hItem, hComma] at h
              cases Part.mem_some_iff.mp h
              exact ⟨v.1, v.2, rfl, hComma, rfl⟩

/- Put items in front of those that were read. -/
def behind
    (ranges : List LedRange) :
    Except Refusal (List LedRange × Cursor) →
      Except Refusal (List LedRange × Cursor) :=
  Except.map fun v => (ranges ++ v.1, v.2)

theorem left_behind
    (ranges : List LedRange)
    (r : Except Refusal (List LedRange × Cursor)) :
    left (behind ranges r) = left r := by
  cases r <;> rfl

theorem itemPass_leave
    {ranges : List LedRange}
    {result : Except Refusal (List LedRange × Cursor)}
    (h : .inl result ∈ itemPass (ranges, c)) :
    result = behind ranges (ledRanges c) := by
  unfold itemPass at h
  rw [ledRanges_eq]
  cases hItem : ledRange c with
  | error r =>
      simp only [hItem] at h
      cases Part.mem_some_iff.mp h
      rw [bind_of_error hItem]
      rfl
  | ok v =>
      rw [bind_of_ok hItem]
      cases hComma : eat (.mark .comma) v.2 with
      | error r =>
          simp only [hItem, hComma] at h
          cases Part.mem_some_iff.mp h
          rw [bind_of_error hComma]
          rfl
      | ok w =>
          rcases w with ⟨found, e⟩
          cases found with
          | true => simp [hItem, hComma] at h
          | false =>
              simp only [hItem, hComma] at h
              cases Part.mem_some_iff.mp h
              rw [bind_of_ok hComma]
              rfl

/- Each pass over items reads one, and a comma. -/
theorem advances_itemPass
    (hEnded : Token.Ended ts) :
    Loop.Advances itemPass (fun s => s.2.On ts)
      (fun result => (left result).On ts)
      (fun s => s.2.unread) where
  ends := by
    rintro ⟨ranges, c⟩ _
    unfold itemPass
    simp only
    split
    · exact trivial
    · split <;> exact trivial
  keeps := by
    rintro ⟨ranges, c⟩ ⟨more, next⟩ hOn hPass
    rcases itemPass_again hPass
      with ⟨range, d, hItem, hComma, -⟩
    have hStop := inline_ledRange.stays ts c hEnded hOn
    rw [hItem] at hStop
    have hNext := inline_comma.stays ts d hEnded hStop
    rwa [hComma] at hNext
  less := by
    rintro ⟨ranges, c⟩ ⟨more, next⟩ _ hPass
    rcases itemPass_again hPass
      with ⟨range, d, hItem, hComma, -⟩
    exact Nat.lt_of_le_of_lt
      (inline_comma.keeps.length_le hComma)
      (consumes_ledRange _ _ _ hItem)
  leaves := by
    rintro ⟨ranges, c⟩ result hOn hPass
    have hStay := inline_ledRanges.stays ts c hEnded hOn
    rw [itemPass_leave hPass, left_behind]
    exact hStay

/- Behind an item and a comma, the others are read. -/
theorem behind_ledRanges
    {ranges : List LedRange}
    {range : LedRange}
    {d next : Cursor}
    (hItem : ledRange c = .ok (range, d))
    (hComma : eat (.mark .comma) d = .ok (true, next)) :
    behind (ranges ++ [range]) (ledRanges next) =
      behind ranges (ledRanges c) := by
  have hRead :
      ledRanges c =
        (do
          let rs ← (ledRanges : Reader (List LedRange))
          return range :: rs : Reader (List LedRange))
          next := by
    rw [ledRanges_eq, bind_of_ok hItem, bind_of_ok hComma,
      ← ledRanges_eq]
    rfl
  rw [hRead]
  cases hMore : ledRanges next with
  | error r =>
      rw [bind_of_error hMore]
      rfl
  | ok v =>
      rw [bind_of_ok hMore]
      exact congrArg (fun rs => Except.ok (rs, v.2))
        (List.append_assoc ranges [range] v.1)

/- Reading items in a loop is reading all of them. -/
theorem mem_fix_itemPass
    (hEnded : Token.Ended ts)
    (h : c.On ts) :
    ledRanges c ∈ itemPass.fix ([], c) := by
  have hLoop :
      ∃ result ∈ itemPass.fix ([], c),
        (left result).On ts ∧
        result = behind [] (ledRanges c) := by
    refine (advances_itemPass hEnded).exists_fix
      (Q := fun s result =>
        result = behind s.1 (ledRanges s.2)) ?_ ?_ h
    · exact fun s result _ hPass => itemPass_leave hPass
    · rintro ⟨ranges, c⟩ ⟨more, next⟩ result _ hPass hNext
      rcases itemPass_again hPass
        with ⟨range, d, hItem, hComma, rfl⟩
      exact hNext.trans (behind_ledRanges hItem hComma)
  have hBehind : behind [] (ledRanges c) = ledRanges c := by
    cases ledRanges c <;> rfl
  rcases hLoop with ⟨result, hFix, -, rfl⟩
  rwa [hBehind] at hFix

end Reader

------------------------------------------------------------
-- Entries
------------------------------------------------------------

/- Where no entry can start, reading is refused at once. -/
theorem Entry.exists_refusal
    {inFunction : Bool}
    {t : Token}
    (h : startsWith inFunction t.kind = false) :
    ∃ e, ∀ c,
      Entry.read inFunction t c = .error ⟨e, c⟩ := by
  rcases t with ⟨kind, span⟩
  cases kind with
  | function name => cases h
  | keyword k =>
      cases inFunction with
      | false =>
          cases k with
          | device | define => cases h
          | _ => exact ⟨_, fun _ => rfl⟩
      | true =>
          cases k with
          | toward | within | repeats | zOrder =>
              exact ⟨_, fun _ => rfl⟩
          | _ => cases h
  | _ => exact ⟨_, fun _ => rfl⟩

namespace Cursor

variable {ts : List Token} {c : Cursor}

theorem On.advance_eq
    (h : c.On ts)
    (hEnded : Token.Ended ts)
    (hPeek : c.peek.isEnd = false) :
    c.advance = ⟨c.advance.rest, c.stop, c.peek.span⟩ := by
  have hRest := h.rest_eq hEnded hPeek
  unfold Cursor.advance
  rw [hRest]
  rfl

end Cursor

section Entries

variable {ts : List Token} {c : Cursor} {inFunction : Bool}

/- What is read at a token is what is read behind it. -/
theorem Entry.readAt_of_ok
    {v : Entry × Cursor}
    (h : Entry.read inFunction c.peek c.advance = .ok v) :
    Entry.readAt inFunction c = .ok v := by
  unfold readAt
  split
  · exact h
  · rename_i hStarts
    rcases exists_refusal (Bool.eq_false_iff.mpr hStarts)
      with ⟨e, hRefusal⟩
    rw [hRefusal] at h
    cases h

/-
  A line that is refused is left inside it, perhaps in front
  of its first token.
-/
theorem Entry.readAt_of_error
    (hEnded : Token.Ended ts)
    (hOn : c.On ts)
    (hInline : c.peek.Inline)
    {r : Refusal}
    (h : Entry.read inFunction c.peek c.advance =
      .error r) :
    ∃ left, Entry.readAt inFunction c =
        .error ⟨r.error, left⟩ ∧
      left.On ts ∧
      Token.skipLine left.rest =
        Token.skipLine r.left.rest := by
  have hStay := Entry.stays_read inFunction c.peek ts
    c.advance hEnded (hOn.advance hEnded hInline.2)
  unfold readAt
  split
  · rw [h] at hStay
    exact ⟨r.left, h, hStay, rfl⟩
  · rename_i hStarts
    rcases exists_refusal (Bool.eq_false_iff.mpr hStarts)
      with ⟨e, hRefusal⟩
    rw [hRefusal] at h
    cases h
    exact ⟨c, hRefusal c, hOn,
      Cursor.skipLine_rest_of_inline hOn hEnded hInline⟩

theorem Entry.stays_readAt
    (inFunction : Bool) :
    Reader.Stays (Entry.readAt inFunction) := by
  intro ts c hEnded hOn
  unfold readAt
  split
  · rename_i hStarts
    have hOpen : c.peek.isEnd = false := by
      rw [Token.isEnd, beq_eq_false_iff_ne]
      intro hKind
      rw [hKind] at hStarts
      cases hStarts
    exact Entry.stays_read inFunction c.peek ts c.advance
      hEnded (hOn.advance hEnded hOpen)
  · rename_i hStarts
    rcases exists_refusal (Bool.eq_false_iff.mpr hStarts)
      with ⟨e, hRefusal⟩
    rw [hRefusal]
    exact hOn

end Entries

namespace Draft

variable {source : SourceText} {ts : List Token}
variable {d : Draft} {c : Cursor}

theorem entryPass_of_ok
    (source : SourceText)
    {entry : Entry}
    {e next : Cursor}
    (hOpen : c.peek.isEnd = false)
    (hRoom : d.log.isFull = false)
    (hRead : Entry.readAt (!d.script.functions.isEmpty) c =
      .ok (entry, e))
    (hNext : next ∈ e.overNewlines) :
    .inr (d.accept source entry, next) ∈
      entryPass source (d, c) := by
  simp only [entryPass, hOpen, hRoom, hRead,
    Bool.false_eq_true, if_false]
  refine Part.mem_bind hNext ?_
  exact Part.mem_some _

theorem entryPass_of_error
    (source : SourceText)
    {e : LineError}
    {left line next : Cursor}
    (hOpen : c.peek.isEnd = false)
    (hRoom : d.log.isFull = false)
    (hRead : Entry.readAt (!d.script.functions.isEmpty) c =
      .error ⟨e, left⟩)
    (hLine : line ∈ left.toNextLine)
    (hNext : next ∈ line.overNewlines) :
    .inr (d.refuse source e, next) ∈
      entryPass source (d, c) := by
  simp only [entryPass, hOpen, hRoom, hRead,
    Bool.false_eq_true, if_false]
  refine Part.mem_bind hLine (Part.mem_bind hNext ?_)
  exact Part.mem_some _

/- At the end, or with a full log, the loop is left. -/
theorem entryPass_of_stop
    (h : c.peek.isEnd = true ∨ d.log.isFull = true) :
    .inl (d, c) ∈ entryPass source (d, c) := by
  simp only [entryPass]
  split
  · exact Part.mem_some _
  · rename_i hOpen
    rw [if_pos (h.resolve_left hOpen)]
    exact Part.mem_some _

/- A cursor in front of an entry, or of the end. -/
structure AtEntry
    (ts : List Token)
    (s : Draft × Cursor) : Prop where
  on : s.2.On ts
  line : s.2.peek.isNewline = false

/- An entry that can be read is read up to its line end. -/
theorem exists_entryPass_of_ok
    (source : SourceText)
    (hEnded : Token.Ended ts)
    (h : AtEntry ts (d, c))
    (hOpen : c.peek.isEnd = false)
    (hRoom : d.log.isFull = false)
    {entry : Entry}
    {e : Cursor}
    (hRead :
      Entry.read (!d.script.functions.isEmpty) c.peek
        c.advance = .ok (entry, e)) :
    ∃ next,
      .inr (d.accept source entry, next) ∈
        entryPass source (d, c) ∧
      AtEntry ts (d.accept source entry, next) ∧
      next.rest = Token.skipNewlines e.rest := by
  have hStay :=
    Entry.stays_read (!d.script.functions.isEmpty) c.peek ts
      c.advance hEnded (h.on.advance hEnded hOpen)
  rw [hRead] at hStay
  rcases Cursor.exists_overNewlines hEnded hStay
    with ⟨next, hNext, hOn, hRest, hLine⟩
  have hPass := entryPass_of_ok source hOpen hRoom
    (Entry.readAt_of_ok hRead) hNext
  exact ⟨next, hPass, ⟨hOn, hLine⟩, hRest⟩

/- Behind a refusal, the rest of the line is skipped. -/
theorem exists_entryPass_of_error
    (source : SourceText)
    (hEnded : Token.Ended ts)
    (h : AtEntry ts (d, c))
    (hOpen : c.peek.isEnd = false)
    (hRoom : d.log.isFull = false)
    {r : Refusal}
    (hRead :
      Entry.read (!d.script.functions.isEmpty) c.peek
        c.advance = .error r) :
    ∃ next,
      .inr (d.refuse source r.error, next) ∈
        entryPass source (d, c) ∧
      AtEntry ts (d.refuse source r.error, next) ∧
      next.rest = Token.skipNewlines
        (Token.skipLine r.left.rest) := by
  rcases Entry.readAt_of_error hEnded h.on ⟨h.line, hOpen⟩
    hRead with ⟨left, hLeft, hOnLeft, hSkip⟩
  rcases Cursor.exists_toNextLine hEnded hOnLeft
    with ⟨line, hToLine, hOnLine, hLineRest⟩
  rcases Cursor.exists_overNewlines hEnded hOnLine
    with ⟨next, hNext, hOn, hRest, hLine⟩
  have hPass := entryPass_of_error source hOpen hRoom
    hLeft hToLine hNext
  -- newlines are skipped behind the line, and once more
  have hTwice (ts : List Token) :
      Token.skipNewlines (Token.skipNewlines ts) =
        Token.skipNewlines ts :=
    List.dropWhile_idempotent _ ts
  refine ⟨next, hPass, ⟨hOn, hLine⟩, ?_⟩
  rw [hRest, hLineRest, hSkip, hTwice]

/- A pass over an entry takes the turn that reads it. -/
theorem exists_entryPass
    (source : SourceText)
    (hEnded : Token.Ended ts)
    (h : AtEntry ts (d, c))
    (hOpen : c.peek.isEnd = false)
    (hRoom : d.log.isFull = false) :
    ∃ next,
      .inr ((d.turn source c.stop c.peek c.advance.rest).1,
          next) ∈ entryPass source (d, c) ∧
      AtEntry ts
        ((d.turn source c.stop c.peek c.advance.rest).1,
          next) ∧
      next.rest =
        (d.turn source c.stop c.peek c.advance.rest).2 := by
  have hAdvance := h.on.advance_eq hEnded hOpen
  cases hRead :
      Entry.read (!d.script.functions.isEmpty) c.peek
        c.advance with
  | ok v =>
      have hTurn :
          d.turn source c.stop c.peek c.advance.rest =
            (d.accept source v.1,
              Token.skipNewlines v.2.rest) :=
        turn_of_ok (hAdvance ▸ hRead)
      rw [hTurn]
      exact exists_entryPass_of_ok source hEnded h hOpen
        hRoom hRead
  | error r =>
      have hTurn :
          d.turn source c.stop c.peek c.advance.rest =
            (d.refuse source r.error, Token.skipNewlines
              (Token.skipLine r.left.rest)) :=
        turn_of_error (hAdvance ▸ hRead)
      rw [hTurn]
      exact exists_entryPass_of_error source hEnded h hOpen
        hRoom hRead

/- A pass leaves the loop, or takes one turn. -/
theorem entryPass_cases
    (source : SourceText)
    (hEnded : Token.Ended ts)
    (h : AtEntry ts (d, c)) :
    ((c.peek.isEnd = true ∨ d.log.isFull = true) ∧
        .inl (d, c) ∈ entryPass source (d, c)) ∨
      ((c.peek.isEnd = false ∧ d.log.isFull = false) ∧
        ∃ next,
          .inr ((d.turn source c.stop c.peek
            c.advance.rest).1, next) ∈
              entryPass source (d, c) ∧
          AtEntry ts ((d.turn source c.stop c.peek
            c.advance.rest).1, next) ∧
          next.rest = (d.turn source c.stop c.peek
            c.advance.rest).2) := by
  by_cases hStop : c.peek.isEnd = true ∨ d.log.isFull = true
  · exact .inl ⟨hStop, entryPass_of_stop hStop⟩
  · rcases not_or.mp hStop with ⟨hOpen, hRoom⟩
    have hOpen := Bool.eq_false_iff.mpr hOpen
    have hRoom := Bool.eq_false_iff.mpr hRoom
    exact .inr ⟨⟨hOpen, hRoom⟩,
      exists_entryPass source hEnded h hOpen hRoom⟩

/- Each pass over an entry reads at least one token. -/
theorem advances_entryPass
    (source : SourceText)
    (hEnded : Token.Ended ts) :
    Loop.Advances (entryPass source) (AtEntry ts)
      (fun result => result.2.On ts)
      (fun s => s.2.unread) where
  ends := by
    rintro ⟨d, c⟩ h
    rcases entryPass_cases source hEnded h
      with ⟨-, hPass⟩ | ⟨-, next, hPass, -⟩
    · exact Part.dom_iff_mem.mpr ⟨_, hPass⟩
    · exact Part.dom_iff_mem.mpr ⟨_, hPass⟩
  keeps := by
    rintro ⟨d, c⟩ after h hAfter
    rcases entryPass_cases source hEnded h
      with ⟨-, hPass⟩ | ⟨-, next, hPass, hNext, -⟩ <;>
      cases Part.mem_unique hPass hAfter
    exact hNext
  less := by
    rintro ⟨d, c⟩ after h hAfter
    rcases entryPass_cases source hEnded h
      with ⟨-, hPass⟩ |
        ⟨⟨hOpen, -⟩, next, hPass, -, hRest⟩ <;>
      cases Part.mem_unique hPass hAfter
    have hTurn := (turn_suffix source c.stop d c.peek
      c.advance.rest).length_le
    refine Nat.lt_of_le_of_lt ?_
      (h.on.unread_advance hEnded hOpen)
    rwa [← hRest] at hTurn
  leaves := by
    rintro ⟨d, c⟩ result h hLeave
    rcases entryPass_cases source hEnded h
      with ⟨-, hPass⟩ | ⟨-, next, hPass, -⟩ <;>
      cases Part.mem_unique hPass hLeave
    exact h.on

theorem run_of_isEnd
    (h : c.peek.isEnd = true) :
    d.run source c.stop c.rest = d := by
  rcases c.rest_cases with hRest | hRest
  · rw [hRest, run]
  · rw [hRest, run]
    exact if_pos h

theorem run_of_turn
    (hEnded : Token.Ended ts)
    (hOn : c.On ts)
    (hOpen : c.peek.isEnd = false)
    (hRoom : d.log.isFull = false) :
    d.run source c.stop c.rest =
      (d.turn source c.stop c.peek c.advance.rest).1.run
        source c.stop
        (d.turn source c.stop c.peek c.advance.rest).2 := by
  rw [hOn.rest_eq hEnded hOpen, run, hOpen, hRoom]
  rfl

/- Reading entries in a loop is reading all of them. -/
theorem exists_fix_entryPass
    (source : SourceText)
    (hEnded : Token.Ended ts)
    (h : AtEntry ts (d, c)) :
    ∃ last,
      (d.run source c.stop c.rest, last) ∈
        (entryPass source).fix (d, c) ∧
      last.On ts ∧
      (last.peek.isEnd = true ∨
        (d.run source c.stop c.rest).log.isFull = true)
    := by
  have hLoop :
      ∃ result ∈ (entryPass source).fix (d, c),
        result.2.On ts ∧
        result.1 = d.run source c.stop c.rest ∧
        (result.2.peek.isEnd = true ∨
          result.1.log.isFull = true) := by
    refine (advances_entryPass source hEnded).exists_fix
      (Q := fun s result =>
        result.1 = s.1.run source s.2.stop s.2.rest ∧
          (result.2.peek.isEnd = true ∨
            result.1.log.isFull = true)) ?_ ?_ h
    · rintro ⟨d, c⟩ result h hLeave
      rcases entryPass_cases source hEnded h
        with ⟨hStop, hPass⟩ | ⟨-, next, hPass, -⟩ <;>
        cases Part.mem_unique hPass hLeave
      refine ⟨?_, hStop⟩
      rcases hStop with hEnd | hFull
      · exact (run_of_isEnd hEnd).symm
      · exact (run_of_isFull hFull _).symm
    · rintro ⟨d, c⟩ after result h hAfter hResult
      rcases entryPass_cases source hEnded h
        with ⟨-, hPass⟩ |
          ⟨⟨hOpen, hRoom⟩, next, hPass, hNext, hRest⟩ <;>
        cases Part.mem_unique hPass hAfter
      refine ⟨hResult.1.trans ?_, hResult.2⟩
      rw [run_of_turn hEnded h.on hOpen hRoom, hRest,
        hNext.on.stop, h.on.stop]
  rcases hLoop with ⟨⟨done, last⟩, hFix, hOn, rfl, hStop⟩
  exact ⟨last, hFix, hOn, hStop⟩

end Draft

------------------------------------------------------------
-- Whole Texts
------------------------------------------------------------

namespace Script

/-
  Reading in loops gives what reading gives. It stops at the
  first token that ends the text, or in front of it once the
  log is full.
-/
theorem exists_readInLoops
    (source : SourceText)
    (log : Log)
    {ts : List Token}
    (hEnded : Token.Ended ts) :
    ∃ last,
      (readTokens source log ts, last) ∈
        readInLoops source log ts ∧
      last.On ts ∧
      (last.peek.isEnd = true ∨
        (readTokens source log ts).log.isFull = true) := by
  rcases Cursor.exists_overNewlines hEnded
    (Cursor.on_start ts) with ⟨c, hSkip, hOn, hRest, hLine⟩
  rcases Draft.exists_fix_entryPass (d := ⟨{}, log⟩) source
    hEnded ⟨hOn, hLine⟩ with ⟨last, hFix, hLast, hStop⟩
  have hRead :
      readTokens source log ts =
        Draft.run source c.stop ⟨{}, log⟩ c.rest := by
    rw [hRest, hOn.stop]
    rfl
  refine ⟨last, ?_, hLast, hRead ▸ hStop⟩
  rw [hRead]
  exact Part.mem_bind hSkip hFix

/-
  Reading comes to an end, if the tokens do, wherever else
  the end of the text stands among them. The tokens with
  their aliases replaced come to an end as well, so a cursor
  that read no such token has one in front of it. From there
  every pass of a loop reads at least one token or leaves the
  loop, and none goes past the first token that ends the
  text. The loops read what the recursive functions read and
  stop at that token, unless the log is full.
-/
theorem reading_comes_to_an_end
    (source : SourceText)
    (ts : List Token)
    (hEnded : Token.Ended ts) :
    let spliced :=
      ((AliasTable.ofTokens source ts).1.splice ts).1
    Token.Ended spliced ∧
      (∀ c : Cursor, c.On spliced → c.rest = [] →
        spliced = []) ∧
      Loop.Advances Cursor.newlinePass (·.On spliced)
        (·.On spliced) Cursor.unread ∧
      Loop.Advances Cursor.linePass (·.On spliced)
        (·.On spliced) Cursor.unread ∧
      Loop.Advances Reader.itemPass
        (fun s => s.2.On spliced)
        (fun result => (Reader.left result).On spliced)
        (fun s => s.2.unread) ∧
      Loop.Advances (Draft.entryPass source)
        (Draft.AtEntry spliced)
        (fun result => result.2.On spliced)
        (fun s => s.2.unread) ∧
      (∀ c : Cursor, c.On spliced →
        Reader.ledRanges c ∈
          Reader.itemPass.fix ([], c)) ∧
      (∀ (inFunction : Bool) (c : Cursor), c.On spliced →
        (Reader.left (Entry.readAt inFunction c)).On
          spliced) ∧
      ∃ last : Cursor,
        (ofTokens source ts, last) ∈
          readInLoops source (spliceLog source ts) spliced ∧
        last.On spliced ∧
        (last.rest = spliced.dropWhile (fun t => !t.isEnd) ∨
          (ofTokens source ts).log.isFull = true) := by
  intro spliced
  have hSpliced : Token.Ended spliced :=
    AliasTable.ended_splice _ hEnded
  rcases exists_readInLoops source (spliceLog source ts)
    hSpliced with ⟨last, hRun, hLast, hStop⟩
  refine ⟨hSpliced, fun c hOn => hOn.eq_nil hSpliced,
    Cursor.advances_newlinePass hSpliced,
    Cursor.advances_linePass hSpliced,
    Reader.advances_itemPass hSpliced,
    Draft.advances_entryPass source hSpliced,
    fun c hOn => Reader.mem_fix_itemPass hSpliced hOn,
    fun inFunction c hOn =>
      Entry.stays_readAt inFunction spliced c hSpliced hOn,
    last, hRun, hLast, ?_⟩
  exact hStop.imp hLast.rest_of_isEnd id

/-
  The text ends three times: on a line whose alias is not
  known, behind a label that is not there, and at last.
-/
def tornEnds : List Token :=
  [.keyword .pause, .mark .colon, .endOfFile, .word "dusk",
   .newline, .keyword .here, .mark .colon, .endOfFile,
   .newline, .endOfFile].mapIdx
     fun i kind => ⟨kind, .point 1 i⟩

/- The first end is dropped, the second one not passed. -/
theorem reading_comes_to_an_end_torn :
    Token.Ended tornEnds ∧
      ((AliasTable.ofTokens ⟨"", ""⟩ tornEnds).1.splice
        tornEnds).1 = tornEnds.drop 4 ∧
      ∃ last : Cursor,
        (ofTokens ⟨"", ""⟩ tornEnds, last) ∈
          readInLoops ⟨"", ""⟩ (spliceLog ⟨"", ""⟩ tornEnds)
            (tornEnds.drop 4) ∧
        last.rest = tornEnds.drop 7 := by
  have hEnded : Token.Ended tornEnds := by
    rintro t ⟨⟩
    rfl
  have hSpliced :
      ((AliasTable.ofTokens ⟨"", ""⟩ tornEnds).1.splice
        tornEnds).1 = tornEnds.drop 4 := by
    decide +kernel
  have hRoom :
      (ofTokens ⟨"", ""⟩ tornEnds).log.isFull = false := by
    decide +kernel
  have hStop :
      (tornEnds.drop 4).dropWhile (fun t => !t.isEnd) =
        tornEnds.drop 7 := by
    decide
  rcases reading_comes_to_an_end ⟨"", ""⟩ tornEnds hEnded
    with ⟨-, -, -, -, -, -, -, -, last, hRun, -, hLast⟩
  rw [hSpliced, hStop, hRoom] at hLast
  rw [hSpliced] at hRun
  exact ⟨hEnded, hSpliced, last, hRun,
    hLast.resolve_right Bool.false_ne_true⟩

end Script

end LightShow
