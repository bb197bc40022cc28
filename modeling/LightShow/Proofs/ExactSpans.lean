import LightShow.Proofs.Placing

/-
  Tokens say exactly where they stand.

  Every piece of a text is blanks, a comment, a line feed, a
  token or a stray character, and each of them is told by the
  characters it has. No piece but a line feed reaches into
  another row. The pieces cover the text, so a character that
  belongs to no token is accounted for.

  Key definitions include:
    * `Token.Kind.Spells`
    * `Piece.Reads`
    * `Span.Marks`
    * `Token.InComment`

  Main statements:
    * `Piece.reads_next`
    * `Piece.pairwise_placedFrom`
    * `PlacedPiece.marks_span`
    * `Token.tokens_account_for_the_text`
-/

namespace LightShow

------------------------------------------------------------
-- Spellings
------------------------------------------------------------

/- The quotes of strings. -/
def Text.IsQuote (c : Char) : Prop :=
  c = '"' ∨ c = '\''

/-
  The characters of a token inside a line, with the code of
  the error that they bring if there is one.
-/
inductive Token.Kind.Spells :
    Token.Kind → List Char → Option Code → Prop
  | number {digits : List Char}
      (hSome : digits ≠ [])
      (hDigits : ∀ c ∈ digits, c.isDigit = true)
      (hFits : Text.digitsValue digits < Piece.numberBound) :
      Spells (.number (Text.digitsValue digits)) digits none
  | tooLarge {digits : List Char}
      (hSome : digits ≠ [])
      (hDigits : ∀ c ∈ digits, c.isDigit = true)
      (hLarge : Piece.numberBound ≤ Text.digitsValue digits) :
      Spells (.number 0) digits (some .invalidNumber)
  | keyword {k : Keyword} {c : Char} {cs : List Char}
      (hStart : Text.isWordStart c = true)
      (hWord : ∀ d ∈ cs, Text.isWordChar d = true)
      (hText : Text.lower (String.ofList (c :: cs)) = k.text) :
      Spells (.keyword k) (c :: cs) none
  | word {name : String} {c : Char} {cs : List Char}
      (hStart : Text.isWordStart c = true)
      (hWord : ∀ d ∈ cs, Text.isWordChar d = true)
      (hText : Text.lower (String.ofList (c :: cs)) = name) :
      Spells (.word name) (c :: cs) none
  | function {name : String} {cs : List Char}
      (hSome : cs ≠ [])
      (hWord : ∀ d ∈ cs, Text.isWordChar d = true)
      (hText : Text.lower (String.ofList ('@' :: cs)) = name) :
      Spells (.function name) ('@' :: cs) none
  | quoted {quote : Char} {text : String}
      (hQuote : Text.IsQuote quote)
      (hText : quote ∉ text.toList) :
      Spells (.quoted text)
        (quote :: text.toList ++ [quote]) none
  | unterminated {quote : Char} {text : String}
      (hQuote : Text.IsQuote quote)
      (hText : quote ∉ text.toList) :
      Spells (.quoted text)
        (quote :: text.toList) (some .unterminatedString)
  | mark (m : Mark) :
      Spells (.mark m) [m.char] none

theorem Token.Kind.Spells.ne_nil
    {kind : Token.Kind}
    {cs : List Char}
    {fault : Option Code}
    (h : kind.Spells cs fault) :
    cs ≠ [] := by
  cases h with
  | number hSome => exact hSome
  | tooLarge hSome => exact hSome
  | _ => exact List.cons_ne_nil _ _

/- What is spelled stands inside a line. -/
theorem Token.Kind.Spells.inline
    {kind : Token.Kind}
    {cs : List Char}
    {fault : Option Code}
    (h : kind.Spells cs fault) :
    kind ≠ .newline ∧ kind ≠ .endOfFile := by
  cases h <;>
    exact ⟨Token.Kind.noConfusion, Token.Kind.noConfusion⟩

------------------------------------------------------------
-- Readings
------------------------------------------------------------

namespace Piece

/-
  What a piece is, given the characters behind it. A comment
  and a string without an end go up to the end of the line.
-/
inductive Reads : Piece → List Char → Prop
  | blanks {cs rest : List Char}
      (hSome : cs ≠ [])
      (hBlank : ∀ c ∈ cs, Text.isGap c = true) :
      Reads ⟨.gap, cs⟩ rest
  | comment {cs rest : List Char}
      (hLine : '\n' ∉ cs)
      (hEnd : ∀ c ∈ rest.head?, c = '\n') :
      Reads ⟨.gap, '/' :: '/' :: cs⟩ rest
  | newline {rest : List Char} :
      Reads ⟨.token .newline none, ['\n']⟩ rest
  | token {kind : Token.Kind} {fault : Option LexFault}
      {cs rest : List Char}
      (hSpells : kind.Spells cs (fault.map LexFault.code))
      (hLine : '\n' ∉ cs)
      (hEnd : fault = some .unterminated →
        ∀ c ∈ rest.head?, c = '\n') :
      Reads ⟨.token kind fault, cs⟩ rest
  | stray {fault : LexFault} {c : Char} {rest : List Char}
      (hCode : fault.code = .invalidCharacter)
      (hLine : c ≠ '\n') :
      Reads ⟨.stray fault, [c]⟩ rest

theorem head?_dropWhile
    (p : Char → Bool)
    (cs : List Char) :
    ∀ c ∈ (cs.dropWhile p).head?, p c = false := by
  induction cs with
  | nil => exact fun c hc => by cases hc
  | cons d cs ih =>
      rw [List.dropWhile_cons]
      split
      · exact ih
      · rename_i hd
        rintro _ ⟨⟩
        exact Bool.eq_false_iff.mpr hd

theorem newline_not_mem_takeWhile
    {p : Char → Bool}
    (h : p '\n' = false)
    (cs : List Char) :
    '\n' ∉ cs.takeWhile p := by
  intro hMem
  have hTrue := List.mem_takeWhile_imp hMem
  rw [h] at hTrue
  cases hTrue

/- A token without faults may be followed by anything. -/
theorem reads_clean
    {kind : Token.Kind}
    {cs rest : List Char}
    (hSpells : kind.Spells cs none)
    (hLine : '\n' ∉ cs) :
    Reads ⟨.token kind none, cs⟩ rest :=
  .token hSpells hLine fun h => by cases h

theorem reads_comment
    (cs : List Char) :
    (run (· != '\n') (fun _ => .gap) '/' ('/' :: cs)).1.Reads
      (run (· != '\n') (fun _ => .gap) '/' ('/' :: cs)).2 := by
  have hEnd := head?_dropWhile (· != '\n') cs
  exact .comment (newline_not_mem_takeWhile rfl cs)
    fun c hc => by simpa using hEnd c hc

theorem reads_number
    {c : Char}
    (h : c.isDigit = true)
    (cs : List Char) :
    (run Char.isDigit number c cs).1.Reads
      (run Char.isDigit number c cs).2 := by
  have hDigits :
      ∀ d ∈ c :: cs.takeWhile Char.isDigit,
        d.isDigit = true :=
    List.forall_mem_cons.mpr
      ⟨h, fun d hd => List.mem_takeWhile_imp hd⟩
  have hLine : '\n' ∉ c :: cs.takeWhile Char.isDigit := by
    intro hMem
    cases hDigits _ hMem
  simp only [run, number]
  split
  · rename_i hFits
    exact reads_clean
      (.number (List.cons_ne_nil _ _) hDigits hFits) hLine
  · rename_i hLarge
    exact .token
      (.tooLarge (List.cons_ne_nil _ _) hDigits
        (Nat.not_lt.mp hLarge)) hLine fun h => by cases h

theorem spells_ofWord
    {c : Char}
    {cs : List Char}
    (hStart : Text.isWordStart c = true)
    (hWord : ∀ d ∈ cs, Text.isWordChar d = true) :
    (Token.Kind.ofWord (wordText (c :: cs))).Spells
      (c :: cs) none := by
  unfold Token.Kind.ofWord
  cases hKeyword : Keyword.ofText? (wordText (c :: cs)) with
  | none => exact .word hStart hWord rfl
  | some k =>
      have hText := List.find?_some hKeyword
      exact .keyword hStart hWord (beq_iff_eq.mp hText).symm

theorem reads_word
    {c : Char}
    (h : Text.isWordStart c = true)
    (cs : List Char) :
    (run Text.isWordChar
        (fun w => .token (.ofWord (wordText w)) none)
        c cs).1.Reads
      (run Text.isWordChar
        (fun w => .token (.ofWord (wordText w)) none)
        c cs).2 := by
  have hWord : ∀ d ∈ cs.takeWhile Text.isWordChar,
      Text.isWordChar d = true :=
    fun d hd => List.mem_takeWhile_imp hd
  refine reads_clean (spells_ofWord h hWord) ?_
  rw [List.mem_cons, not_or]
  exact ⟨(Text.ne_of_class h rfl).symm,
    newline_not_mem_takeWhile rfl cs⟩

theorem reads_function
    {cs : List Char}
    (h : cs.head?.any Text.isWordChar = true) :
    (run Text.isWordChar
        (fun w => .token (.function (wordText w)) none)
        '@' cs).1.Reads
      (run Text.isWordChar
        (fun w => .token (.function (wordText w)) none)
        '@' cs).2 := by
  have hSome : cs.takeWhile Text.isWordChar ≠ [] := by
    cases cs with
    | nil => cases h
    | cons c cs =>
        have hFirst : Text.isWordChar c = true := by
          simpa using h
        rw [List.takeWhile_cons_of_pos hFirst]
        exact List.cons_ne_nil _ _
  refine reads_clean (.function hSome
    (fun d hd => List.mem_takeWhile_imp hd) rfl) ?_
  rw [List.mem_cons, not_or]
  exact ⟨by decide, newline_not_mem_takeWhile rfl cs⟩

theorem reads_string
    {quote : Char}
    (h : Text.IsQuote quote)
    (cs : List Char) :
    (string quote cs).1.Reads (string quote cs).2 := by
  let body := cs.takeWhile (continuesString quote)
  have hText : (String.ofList body).toList = body :=
    String.toList_ofList
  have hQuote : quote ∉ (String.ofList body).toList := by
    rw [hText]
    intro hMem
    simpa [continuesString] using List.mem_takeWhile_imp hMem
  have hNewline : '\n' ≠ quote := by
    rcases h with rfl | rfl <;> decide
  have hLine : '\n' ∉ quote :: body := by
    rw [List.mem_cons, not_or]
    exact ⟨hNewline,
      newline_not_mem_takeWhile (by simp [continuesString]) cs⟩
  have hOpen : (Token.Kind.quoted (String.ofList body)).Spells
      (quote :: body) (some .unterminatedString) := by
    have hSpells := Token.Kind.Spells.unterminated h hQuote
    rwa [hText] at hSpells
  have hStop := head?_dropWhile (continuesString quote) cs
  unfold string
  simp only
  split
  · exact .token hOpen hLine fun _ c hc => by cases hc
  · rename_i c rest hRest
    rw [hRest] at hStop
    split
    · rename_i hSame
      have hSpells := Token.Kind.Spells.quoted h hQuote
      rw [hText] at hSpells
      subst hSame
      refine reads_clean hSpells ?_
      rw [List.mem_append, not_or, List.mem_singleton]
      exact ⟨hLine, hNewline⟩
    · rename_i hOther
      refine .token hOpen hLine ?_
      rintro _ _ ⟨⟩
      have hEnd := hStop c rfl
      simpa [continuesString, hOther] using hEnd

/- Every piece that is cut off is one of these. -/
theorem reads_next
    (c : Char)
    (cs : List Char) :
    (next c cs).1.Reads (next c cs).2 := by
  unfold next
  split
  · rename_i hGap
    exact .blanks (List.cons_ne_nil _ _)
      (List.forall_mem_cons.mpr
        ⟨hGap, fun d hd => List.mem_takeWhile_imp hd⟩)
  split
  · rename_i hSlash
    rcases hSlash with ⟨rfl, hSecond⟩
    cases cs with
    | nil => cases hSecond
    | cons d cs =>
        cases hSecond
        exact reads_comment cs
  split
  · rename_i hNewline
    subst hNewline
    exact .newline
  rename_i hNewline
  split
  · rename_i hQuote
    exact reads_string hQuote cs
  split
  · rename_i hDigit
    exact reads_number hDigit cs
  split
  · rename_i hStart
    exact reads_word hStart cs
  split
  · rename_i hAt
    subst hAt
    split
    · rename_i hSome
      exact reads_function hSome
    · exact .stray rfl hNewline
  split
  · rename_i m hMark
    have hFound := List.find?_some hMark
    have hChar : m.char = c := beq_iff_eq.mp hFound
    subst hChar
    refine reads_clean (.mark m) ?_
    rw [List.mem_singleton]
    exact Ne.symm hNewline
  · exact .stray rfl hNewline

/- So is every piece of a text. -/
theorem reads_ofChars
    {cs : List Char}
    {before after : List Piece}
    {q : Piece}
    (h : ofChars cs = before ++ q :: after) :
    q.Reads (text after) := by
  fun_induction ofChars cs generalizing before with
  | case1 => cases before <;> cases h
  | case2 c cs ih =>
      cases before with
      | nil =>
          rcases List.cons.inj h with ⟨rfl, rfl⟩
          rw [text, flatMap_chars_ofChars]
          exact reads_next c cs
      | cons first before => exact ih (List.cons.inj h).2

/- No piece is empty. -/
theorem Reads.ne_nil
    {q : Piece}
    {rest : List Char}
    (h : q.Reads rest) :
    q.chars ≠ [] := by
  cases h with
  | blanks hSome => exact hSome
  | token hSpells => exact hSpells.ne_nil
  | _ => exact List.cons_ne_nil _ _

/- What is read as a token spells it. -/
theorem Reads.spells
    {q : Piece}
    {rest : List Char}
    (h : q.Reads rest)
    {kind : Token.Kind}
    (hKind : q.kind? = some kind)
    (hOther : kind ≠ .newline) :
    kind.Spells q.chars (q.fault?.map LexFault.code) ∧
      (q.fault? = some .unterminated →
        ∀ c ∈ rest.head?, c = '\n') := by
  cases h with
  | blanks => cases hKind
  | comment => cases hKind
  | newline => exact absurd (Option.some.inj hKind).symm hOther
  | token hSpells hLine hEnd =>
      rw [← Option.some.inj hKind]
      exact ⟨hSpells, hEnd⟩
  | stray => cases hKind

/- Only a line feed has a line feed in it. -/
theorem Reads.newline_not_mem
    {q : Piece}
    {rest : List Char}
    (h : q.Reads rest)
    (hOther : q.kind? ≠ some .newline) :
    '\n' ∉ q.chars := by
  cases h with
  | blanks _ hBlank =>
      intro hMem
      cases hBlank _ hMem
  | comment hLine => simpa using hLine
  | newline => exact absurd rfl hOther
  | token _ hLine => exact hLine
  | stray _ hLine => simpa using Ne.symm hLine

/- A piece that ends a line is one line feed. -/
theorem Reads.chars_of_newline
    {q : Piece}
    {rest : List Char}
    (h : q.Reads rest)
    (hKind : q.kind? = some .newline) :
    q.chars = ['\n'] := by
  cases h with
  | newline => rfl
  | token hSpells =>
      exact absurd (Option.some.inj hKind) hSpells.inline.1
  | _ => cases hKind

end Piece

------------------------------------------------------------
-- The Order Of Pieces
------------------------------------------------------------

namespace Position

/- The place does not come later in the text. -/
def UpTo (p q : Position) : Prop :=
  p.line < q.line ∨ p.line = q.line ∧ p.column ≤ q.column

theorem Before.upTo
    {p q : Position}
    (h : p.Before q) :
    p.UpTo q := by
  unfold Before at h
  unfold UpTo
  omega

theorem Before.trans_upTo
    {p q r : Position}
    (h : p.Before q)
    (hNext : q.UpTo r) :
    p.Before r := by
  unfold Before at h ⊢
  unfold UpTo at hNext
  omega

theorem upTo_advanceAll
    (p : Position)
    (cs : List Char) :
    p.UpTo (p.advanceAll cs) := by
  by_cases hNone : cs = []
  · rw [hNone]
    exact .inr ⟨rfl, Nat.le_refl _⟩
  · exact (before_advanceAll p hNone).upTo

end Position

namespace Piece

/- A piece starts behind the pieces before it. -/
theorem pairwise_placedFrom
    (p : Position)
    (qs : List Piece) :
    (placedFrom p qs).Pairwise fun x y =>
      x.stop.UpTo y.start := by
  induction qs generalizing p with
  | nil => exact .nil
  | cons q qs ih =>
      refine .cons (fun y hy => ?_) (ih _)
      rcases exists_of_mem_placedFrom hy
        with ⟨before, after, -, hStart⟩
      rw [hStart]
      exact Position.upTo_advanceAll _ _

/- All pieces end before the text does. -/
theorem stop_upTo
    {p : Position}
    {qs : List Piece}
    {x : PlacedPiece}
    (h : x ∈ placedFrom p qs) :
    x.stop.UpTo (p.advanceAll (text qs)) := by
  rcases exists_of_mem_placedFrom h
    with ⟨before, after, rfl, hStart⟩
  have hText :
      text (before ++ x.piece :: after) =
        text before ++ text (x.piece :: after) :=
    List.flatMap_append
  rw [hText, Position.advanceAll_append,
    advanceAll_text_cons, ← hStart]
  exact Position.upTo_advanceAll _ _

/- Every character of some pieces stands in one of them. -/
theorem exists_piece
    {qs : List Piece}
    {front back : List Char}
    {c : Char}
    (h : text qs = front ++ c :: back) :
    ∃ before q after left right,
      qs = before ++ q :: after ∧
        q.chars = left ++ c :: right ∧
        front = text before ++ left := by
  induction qs generalizing front with
  | nil => cases front <;> cases h
  | cons q qs ih =>
      have hFirst : q.chars ++ text qs = front ++ c :: back := h
      have hLater (more : List Char)
          (hFront : front = q.chars ++ more)
          (hRest : text qs = more ++ c :: back) :
          ∃ before r after left right,
            q :: qs = before ++ r :: after ∧
              r.chars = left ++ c :: right ∧
              front = text before ++ left := by
        rcases ih hRest
          with ⟨before, r, after, left, right, rfl, hr, rfl⟩
        refine ⟨q :: before, r, after, left, right, rfl, hr, ?_⟩
        exact hFront.trans (List.append_assoc ..).symm
      rcases List.append_eq_append_iff.mp hFirst
        with ⟨more, hFront, hRest⟩ | ⟨more, hChars, hRest⟩
      · exact hLater more hFront hRest
      · cases more with
        | nil =>
            exact hLater [] (by simp [hChars]) hRest.symm
        | cons d more =>
            rcases List.cons.inj hRest with ⟨rfl, -⟩
            exact ⟨[], q, qs, front, more, rfl, hChars, rfl⟩

/- A piece in the middle stands at the place before it. -/
theorem mem_placedFrom
    {qs before after : List Piece}
    {q : Piece}
    (h : qs = before ++ q :: after)
    (p : Position) :
    ⟨q, p.advanceAll (text before)⟩ ∈ placedFrom p qs := by
  rw [h, placedFrom_append, placedFrom]
  exact List.mem_append_right _ (List.mem_cons_self ..)

end Piece

------------------------------------------------------------
-- Spans
------------------------------------------------------------

/- The place where a span starts. -/
def Span.start (s : Span) : Position :=
  ⟨s.startLine, s.startColumn⟩

/-
  A span inside one row: `run` stands in the columns from
  its first to its last one, `left` and `right` beside it.
-/
structure Span.Marks
    (s : Span)
    (source : SourceText)
    (left run right : List Char) : Prop where
  row : source.row? s.startLine = some (left ++ run ++ right)
  oneRow : s.endLine = s.startLine
  first : s.startColumn = left.length + 1
  last : s.endColumn = left.length + run.length

/- A span of one character is a point. -/
theorem Span.Marks.eq_point
    {s : Span}
    {source : SourceText}
    {left right : List Char}
    {c : Char}
    (h : s.Marks source left [c] right) :
    s = .point s.startLine (left.length + 1) := by
  rcases s with ⟨startLine, startColumn, endLine, endColumn⟩
  rcases h with ⟨-, hRow, hFirst, hLast⟩
  simp only at hRow hFirst hLast
  subst hRow hFirst hLast
  rfl

namespace PlacedPiece

/-
  A piece inside a line marks its own characters, up to the
  end of the row if the line ends behind it.
-/
theorem marks_span
    {source : SourceText}
    {before after : List Piece}
    {q : Piece}
    (hPieces : Piece.ofChars source.text.toList =
      before ++ q :: after)
    (hLine : '\n' ∉ q.chars) :
    ∃ left,
      (span ⟨q, Position.start.advanceAll
        (Piece.text before)⟩).Marks source left q.chars
          ((Piece.text after).takeWhile (· != '\n')) := by
  have hText :
      source.text.toList =
        Piece.text before ++ (q.chars ++ Piece.text after) := by
    rw [← Piece.flatMap_chars_ofChars source.text.toList,
      hPieces, List.flatMap_append, List.flatMap_cons]
    rfl
  have hSome := (Piece.reads_ofChars hPieces).ne_nil
  have hLength := List.length_pos_iff.mpr hSome
  rcases SourceText.exists_row hText hLine
    with ⟨left, hRow, hColumn⟩
  refine ⟨left, hRow, ?_, hColumn, ?_⟩
  · simp only [span, stop, Span.between]
    rw [Position.advanceAll_of_no_newline _ hLine]
  · simp only [span, stop, Span.between]
    rw [Position.advanceAll_of_no_newline _ hLine, hColumn]
    simp only
    omega

end PlacedPiece

------------------------------------------------------------
-- Tokens And Their Characters
------------------------------------------------------------

namespace Token

variable {source : SourceText}

/- Every token is a piece of the text. -/
theorem exists_piece_of_mem
    {t : Token}
    (h : t ∈ allTokens source) :
    ∃ before q after,
      Piece.ofChars source.text.toList =
          before ++ q :: after ∧
        q.kind? = some t.kind ∧
        t.span = PlacedPiece.span ⟨q, Position.start.advanceAll
          (Piece.text before)⟩ := by
  rcases List.mem_filterMap.mp h with ⟨x, hx, hToken⟩
  rcases Piece.exists_of_mem_placedFrom hx
    with ⟨before, after, hPieces, hStart⟩
  rcases Option.map_eq_some_iff.mp hToken with ⟨kind, hKind, rfl⟩
  refine ⟨before, x.piece, after, hPieces, hKind, ?_⟩
  rw [← hStart]

/- Every piece that is a token is one of the tokens. -/
theorem mem_allTokens
    {before after : List Piece}
    {q : Piece}
    (hPieces : Piece.ofChars source.text.toList =
      before ++ q :: after)
    {kind : Token.Kind}
    (hKind : q.kind? = some kind) :
    ⟨kind, PlacedPiece.span ⟨q, Position.start.advanceAll
      (Piece.text before)⟩⟩ ∈ allTokens source := by
  refine List.mem_filterMap.mpr
    ⟨_, Piece.mem_placedFrom hPieces .start, ?_⟩
  simp only [PlacedPiece.token?, hKind, Option.map_some]

/- Every fault of a piece is one of the errors. -/
theorem mem_allErrors
    {before after : List Piece}
    {q : Piece}
    (hPieces : Piece.ofChars source.text.toList =
      before ++ q :: after)
    {fault : LexFault}
    (hFault : q.fault? = some fault) :
    faultAt source fault (PlacedPiece.span
      ⟨q, Position.start.advanceAll (Piece.text before)⟩) ∈
        allErrors source := by
  refine List.mem_filterMap.mpr
    ⟨_, Piece.mem_placedFrom hPieces .start, ?_⟩
  simp only [PlacedPiece.error?, hFault, Option.map_some]

/- Tokens start one behind the other, the end behind all. -/
theorem pairwise_start
    (source : SourceText) :
    (allTokens source ++ [endAt (stopOf source)]).Pairwise
      fun t u => t.span.start.Before u.span.start := by
  have hSome : ∀ x ∈ Piece.placedFrom .start
      (Piece.ofChars source.text.toList),
        x.start.Before x.stop := by
    intro x hx
    rcases Piece.exists_of_mem_placedFrom hx
      with ⟨before, after, hPieces, -⟩
    exact Position.before_advanceAll _
      (Piece.reads_ofChars hPieces).ne_nil
  have hStart {x : PlacedPiece} {t : Token}
      (h : x.token? = some t) : t.span.start = x.start := by
    rcases Option.map_eq_some_iff.mp h with ⟨kind, -, rfl⟩
    rfl
  rw [List.pairwise_append]
  refine ⟨?_, List.pairwise_singleton _ _, ?_⟩
  · refine List.pairwise_filterMap.mpr ?_
    refine (Piece.pairwise_placedFrom .start _).imp_of_mem ?_
    intro x y hx _ hOrder t ht u hu
    rw [hStart ht, hStart hu]
    exact (hSome x hx).trans_upTo hOrder
  · intro t ht u hu
    rcases List.mem_filterMap.mp ht with ⟨x, hx, hToken⟩
    have hEnd := Piece.stop_upTo hx
    have hText :
        Piece.text (Piece.ofChars source.text.toList) =
          source.text.toList :=
      Piece.flatMap_chars_ofChars _
    rw [hText] at hEnd
    rw [List.mem_singleton.mp hu, hStart hToken]
    exact (hSome x hx).trans_upTo hEnd

/-
  Every token inside a line marks the characters that spell
  it, and the error that they bring is at its span.
-/
theorem exists_spelling_of_mem
    {t : Token}
    (h : t ∈ allTokens source)
    (hInline : t.Inline) :
    ∃ left run right fault,
      t.span.Marks source left run right ∧
        t.kind.Spells run fault ∧
        (∀ code ∈ fault, ∃ d ∈ allErrors source,
          d.code = code ∧ d.span = t.span) ∧
        (fault = some .unterminatedString → right = []) := by
  rcases exists_piece_of_mem h
    with ⟨before, q, after, hPieces, hKind, hSpan⟩
  have hReads := Piece.reads_ofChars hPieces
  have hOther : t.kind ≠ .newline := by
    simpa [isNewline] using hInline.1
  have hLine := hReads.newline_not_mem (by
    rw [hKind]
    exact fun hSame => hOther (Option.some.inj hSame))
  rcases hReads.spells hKind hOther with ⟨hSpells, hEnd⟩
  rcases PlacedPiece.marks_span hPieces hLine with ⟨left, hMarks⟩
  rw [← hSpan] at hMarks
  refine ⟨left, _, _, _, hMarks, hSpells, ?_, ?_⟩
  · intro code hCode
    rcases Option.map_eq_some_iff.mp hCode
      with ⟨fault, hFault, rfl⟩
    exact ⟨_, mem_allErrors hPieces hFault, rfl, hSpan.symm⟩
  · intro hCode
    rcases Option.map_eq_some_iff.mp hCode
      with ⟨fault, hFault, hSame⟩
    have hOpen : fault = .unterminated := by
      cases fault with
      | unterminated => rfl
      | _ => cases hSame
    have hHead := hEnd (hOpen ▸ hFault)
    cases hRest : Piece.text after with
    | nil => rfl
    | cons c rest =>
        rw [hHead c (by rw [hRest]; rfl)]
        rfl

------------------------------------------------------------
-- Characters Outside Tokens
------------------------------------------------------------

/- A piece that is a token inside a line has no line feed. -/
theorem newline_not_mem_of_inline
    {x : PlacedPiece}
    (hx : x ∈ Piece.placedFrom .start
      (Piece.ofChars source.text.toList))
    {t : Token}
    (hToken : x.token? = some t)
    (hInline : t.Inline) :
    '\n' ∉ x.piece.chars := by
  rcases Piece.exists_of_mem_placedFrom hx
    with ⟨before, after, hPieces, -⟩
  rcases Option.map_eq_some_iff.mp hToken with ⟨kind, hKind, rfl⟩
  refine (Piece.reads_ofChars hPieces).newline_not_mem ?_
  rw [hKind]
  rintro ⟨⟩
  cases hInline.1

/- A token of a row ends before the pieces behind it. -/
theorem endColumn_lt_of_mem
    {before rest : List Piece}
    (hPieces : Piece.ofChars source.text.toList =
      before ++ rest)
    {x : PlacedPiece}
    (hx : x ∈ Piece.placedFrom .start before)
    (hLine : '\n' ∉ x.piece.chars)
    (hRow : x.start.line =
      (Position.start.advanceAll (Piece.text before)).line) :
    x.span.endColumn <
      (Position.start.advanceAll
        (Piece.text before)).column := by
  have hStop := Piece.stop_upTo hx
  rw [PlacedPiece.stop, Position.advanceAll_of_no_newline _ hLine]
    at hStop
  rcases Piece.exists_of_mem_placedFrom hx
    with ⟨first, others, rfl, hStart⟩
  rw [List.append_assoc, List.cons_append] at hPieces
  rcases PlacedPiece.marks_span hPieces hLine with ⟨left, hMarks⟩
  rw [← hStart] at hMarks
  have hFirst : x.start.column = left.length + 1 :=
    hMarks.first
  have hLast : x.span.endColumn =
      left.length + x.piece.chars.length := hMarks.last
  simp only [Position.UpTo] at hStop
  omega

/- Where a line ends, what follows stands further down. -/
theorem line_lt_of_mem
    {before after : List Piece}
    (hPieces : Piece.ofChars source.text.toList =
      before ++ after)
    (hEnd : ∀ c ∈ (Piece.text after).head?, c = '\n')
    {p : Position}
    {x : PlacedPiece}
    (hx : x ∈ Piece.placedFrom p after)
    (hLine : '\n' ∉ x.piece.chars) :
    p.line < x.start.line := by
  rcases Piece.exists_of_mem_placedFrom hx
    with ⟨first, rest, rfl, hStart⟩
  rw [← List.append_assoc] at hPieces
  have hSome := (Piece.reads_ofChars hPieces).ne_nil
  have hText :
      Piece.text (first ++ x.piece :: rest) =
        Piece.text first ++
          (x.piece.chars ++ Piece.text rest) := by
    rw [Piece.text, List.flatMap_append, List.flatMap_cons]
    rfl
  rw [hText] at hEnd
  -- `x` does not start with the line feed, so it is behind it
  have hFeed : '\n' ∈ Piece.text first := by
    cases hFront : Piece.text first with
    | nil =>
        rw [hFront, List.nil_append] at hEnd
        cases hChars : x.piece.chars with
        | nil => exact absurd hChars hSome
        | cons c cs =>
            rw [hChars] at hEnd hLine
            rw [hEnd c rfl] at hLine
            exact absurd (List.mem_cons_self ..) hLine
    | cons c cs =>
        rw [hFront] at hEnd
        rw [hEnd c rfl]
        exact List.mem_cons_self ..
  rw [hStart]
  exact Position.line_lt_advanceAll p hFeed

/-
  Where the rest of a line is no token, the tokens of the
  line end before it.
-/
theorem endColumn_lt_of_rest
    {before after : List Piece}
    {q : Piece}
    (hPieces : Piece.ofChars source.text.toList =
      before ++ q :: after)
    (hGap : q.kind? = none)
    (hEnd : ∀ c ∈ (Piece.text after).head?, c = '\n')
    {t : Token}
    (h : t ∈ allTokens source)
    (hInline : t.Inline)
    (hRow : t.span.startLine =
      (Position.start.advanceAll (Piece.text before)).line) :
    t.span.endColumn <
      (Position.start.advanceAll
        (Piece.text before)).column := by
  rcases List.mem_filterMap.mp h with ⟨x, hx, hToken⟩
  have hLine := newline_not_mem_of_inline hx hToken hInline
  have hSpan : t.span = x.span := by
    rcases Option.map_eq_some_iff.mp hToken with ⟨_, -, rfl⟩
    rfl
  rw [hSpan] at hRow ⊢
  rw [hPieces, Piece.placedFrom_append, Piece.placedFrom]
    at hx
  rcases List.mem_append.mp hx with hx | hx
  · exact endColumn_lt_of_mem hPieces hx hLine hRow
  rcases List.mem_cons.mp hx with rfl | hx
  · simp [PlacedPiece.token?, hGap] at hToken
  · rw [List.append_cons] at hPieces
    have hDown := line_lt_of_mem hPieces hEnd hx hLine
    have hBehind := Position.line_le_advanceAll
      (Position.start.advanceAll (Piece.text before)) q.chars
    have hSame : x.start.line = _ := hRow
    omega

/- The token stands in a row, over a column of it. -/
def Covers (t : Token) (row column : Nat) : Prop :=
  t.span.startLine = row ∧
    t.span.startColumn ≤ column ∧ column ≤ t.span.endColumn

/-
  A column behind two slashes in a row, where no token of
  the row reaches the slashes.
-/
def InComment
    (source : SourceText)
    (tokens : List Token)
    (row column : Nat) : Prop :=
  ∃ left comment,
    source.row? row = some (left ++ '/' :: '/' :: comment) ∧
      left.length < column ∧
      ∀ t ∈ tokens, t.Inline → t.span.startLine = row →
        t.span.endColumn ≤ left.length

/- Every character of a row is accounted for. -/
theorem accounted_of_row?
    {n : Nat}
    {left right : List Char}
    {c : Char}
    (h : source.row? n = some (left ++ c :: right)) :
    (∃ t ∈ allTokens source,
        t.Inline ∧ t.Covers n (left.length + 1)) ∨
      Text.isGap c = true ∨
      InComment source (allTokens source) n
        (left.length + 1) ∨
      ∃ d ∈ allErrors source, d.code = .invalidCharacter ∧
        d.span = .point n (left.length + 1) := by
  rcases SourceText.exists_front_of_char h
    with ⟨front, back, hText, hPlace, hOther⟩
  rw [← Piece.flatMap_chars_ofChars source.text.toList]
    at hText
  rcases Piece.exists_piece hText
    with ⟨before, q, after, inner, outer, hPieces, hChars, rfl⟩
  have hReads := Piece.reads_ofChars hPieces
  have hMem : c ∈ q.chars := by
    rw [hChars]
    exact List.mem_append_right _ (List.mem_cons_self ..)
  have hLine : '\n' ∉ q.chars := by
    refine hReads.newline_not_mem fun hKind => ?_
    rw [hReads.chars_of_newline hKind] at hMem
    exact hOther (List.mem_singleton.mp hMem)
  have hInner : '\n' ∉ inner := fun hIn =>
    hLine (hChars ▸ List.mem_append_left _ hIn)
  rcases PlacedPiece.marks_span hPieces hLine
    with ⟨start, hMarks⟩
  rw [Position.advanceAll_append,
    Position.advanceAll_of_no_newline _ hInner] at hPlace
  rcases Position.mk.inj hPlace with ⟨rfl, hColumn⟩
  have hFirst : (Position.start.advanceAll
      (Piece.text before)).column = start.length + 1 :=
    hMarks.first
  have hLast := hMarks.last
  have hLength := congrArg List.length hChars
  rw [List.length_append, List.length_cons] at hLength
  cases hReads with
  | newline => exact absurd (List.mem_cons_self ..) hLine
  | blanks _ hBlank => exact .inr (.inl (hBlank c hMem))
  | @comment cs _ _ hEnd =>
      refine .inr (.inr (.inl ⟨start,
        cs ++ (Piece.text after).takeWhile (· != '\n'),
        ?_, by omega, ?_⟩))
      · have hRow := hMarks.row
        rw [List.append_assoc] at hRow
        exact hRow
      · intro t ht hInline hSame
        have hBefore := endColumn_lt_of_rest hPieces rfl hEnd
          ht hInline hSame
        omega
  | token hSpells =>
      refine .inl ⟨_, mem_allTokens hPieces rfl, ?_, rfl, ?_⟩
      · simpa [Inline, isNewline, isEnd] using hSpells.inline
      · rw [hLast, hMarks.first]
        omega
  | stray hCode =>
      refine .inr (.inr (.inr ⟨_, mem_allErrors hPieces rfl,
        hCode, ?_⟩))
      have hSame : left.length = start.length := by
        simp only [List.length_singleton] at hLength
        omega
      rw [hSame]
      exact hMarks.eq_point

/- Every line feed has its own token. -/
theorem exists_newline_of_row?
    {n : Nat}
    {row next : List Char}
    (h : source.row? n = some row)
    (hNext : source.row? (n + 1) = some next) :
    ∃ t ∈ allTokens source, t.kind = .newline ∧
      t.span.start = ⟨n, row.length + 1⟩ := by
  rcases SourceText.exists_front_of_newline h hNext
    with ⟨front, back, hText, hPlace⟩
  rw [← Piece.flatMap_chars_ofChars source.text.toList]
    at hText
  rcases Piece.exists_piece hText
    with ⟨before, q, after, inner, outer, hPieces, hChars, rfl⟩
  have hReads := Piece.reads_ofChars hPieces
  have hKind : q.kind? = some .newline := by
    by_contra hOther
    apply hReads.newline_not_mem hOther
    rw [hChars]
    exact List.mem_append_right _ (List.mem_cons_self ..)
  have hInner : inner = [] := by
    have hOne := hReads.chars_of_newline hKind
    rw [hChars] at hOne
    cases inner with
    | nil => rfl
    | cons d inner =>
        have hNone := (List.cons.inj hOne).2
        simp at hNone
  rw [hInner, List.append_nil] at hPlace
  exact ⟨_, mem_allTokens hPieces hKind, rfl, hPlace⟩

/-
  While the log has room, tokens start one behind the other,
  each one marks the characters that spell it, and whatever
  no token marks is a blank, a comment, a line feed with its
  own token, or a stray character that is reported.
-/
theorem tokens_account_for_the_text
    (source : SourceText)
    (h : (ofSource source).log.totalErrors < Log.capacity) :
    let tokens := (ofSource source).tokens
    let errors := (ofSource source).log.errors
    (tokens.Pairwise fun t u =>
        t.span.start.Before u.span.start) ∧
      (∀ t ∈ tokens, t.Inline →
        ∃ left run right fault,
          t.span.Marks source left run right ∧
            t.kind.Spells run fault ∧
            (∀ code ∈ fault, ∃ d ∈ errors,
              d.code = code ∧ d.span = t.span) ∧
            (fault = some .unterminatedString →
              right = [])) ∧
      (∀ n left c right,
        source.row? n = some (left ++ c :: right) →
          (∃ t ∈ tokens,
            t.Inline ∧ t.Covers n (left.length + 1)) ∨
          Text.isGap c = true ∨
          InComment source tokens n (left.length + 1) ∨
          ∃ d ∈ errors, d.code = .invalidCharacter ∧
            d.span = .point n (left.length + 1)) ∧
      ∀ n row next,
        source.row? n = some row →
        source.row? (n + 1) = some next →
          ∃ t ∈ tokens, t.kind = .newline ∧
            t.span.start = ⟨n, row.length + 1⟩ := by
  simp only [ofSource_of_room (room_of_ofSource h)]
  have hMem {t : Token}
      (ht : t ∈ allTokens source ++ [endAt (stopOf source)])
      (hInline : t.Inline) : t ∈ allTokens source := by
    rcases List.mem_append.mp ht with ht | ht
    · exact ht
    · rw [List.mem_singleton.mp ht] at hInline
      cases hInline.2
  refine ⟨pairwise_start source, ?_, ?_, ?_⟩
  · intro t ht hInline
    exact exists_spelling_of_mem (hMem ht hInline) hInline
  · intro n left c right hRow
    rcases accounted_of_row? hRow
      with ⟨t, ht, hCovers⟩ | hGap | hComment | hStray
    · exact .inl ⟨t, List.mem_append_left _ ht, hCovers⟩
    · exact .inr (.inl hGap)
    · rcases hComment with ⟨start, comment, hSlashes, hLess, hAll⟩
      refine .inr (.inr (.inl
        ⟨start, comment, hSlashes, hLess, ?_⟩))
      exact fun t ht hInline =>
        hAll t (hMem ht hInline) hInline
    · exact .inr (.inr (.inr hStray))
  · intro n row next hRow hNext
    rcases exists_newline_of_row? hRow hNext
      with ⟨t, ht, hNewline⟩
    exact ⟨t, List.mem_append_left _ ht, hNewline⟩

/- A number too large, an open string and a stray mark. -/
def torn : SourceText :=
  ⟨"torn", "pause: 99999999999999999999 'é // $\n@Go $ // x"⟩

theorem tokens_account_for_the_text_torn :
    (ofSource torn).log.totalErrors < Log.capacity ∧
      ((ofSource torn).tokens.Pairwise fun t u =>
        t.span.start.Before u.span.start) ∧
      (∀ t ∈ (ofSource torn).tokens, t.Inline →
        ∃ left run right fault,
          t.span.Marks torn left run right ∧
            t.kind.Spells run fault) ∧
      (ofSource torn).log.totalErrors = 3 := by
  have hErrors : (ofSource torn).log.totalErrors = 3 := by
    decide +kernel
  have hRoom :
      (ofSource torn).log.totalErrors < Log.capacity := by
    rw [hErrors]
    decide
  rcases tokens_account_for_the_text torn hRoom
    with ⟨hOrder, hSpelled, -⟩
  refine ⟨hRoom, hOrder, fun t ht hInline => ?_, hErrors⟩
  rcases hSpelled t ht hInline
    with ⟨left, run, right, fault, hMarks, hSpells, -⟩
  exact ⟨left, run, right, fault, hMarks, hSpells⟩

end Token

end LightShow
