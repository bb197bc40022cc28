import LightShow.Proofs.LineTable

/-
  Lines are lexed one by one.

  No piece goes on behind a line feed, and none looks at what
  comes behind one, so the pieces of two texts joined by a
  line feed are those of the first, the line feed and those
  of the second. Only the line numbers of the second text
  change, by the number of lines of the first.

  Key definitions include:
    * `Position.down`
    * `Token.down`
    * `Diagnostic.down`

  Main statements:
    * `Piece.next_append_newline`
    * `Piece.ofChars_append_newline`
    * `Piece.placedFrom_down`
    * `SourceText.splitLines_joined`
    * `Token.joined_texts_lex_apart`
-/

namespace LightShow

------------------------------------------------------------
-- Pieces End At Line Feeds
------------------------------------------------------------

namespace Piece

/- A run whose class leaves out line feeds stops at one. -/
theorem span_append_newline
    {p : Char → Bool}
    (h : p '\n' = false)
    (cs more : List Char) :
    (cs ++ '\n' :: more).takeWhile p = cs.takeWhile p ∧
      (cs ++ '\n' :: more).dropWhile p =
        cs.dropWhile p ++ '\n' :: more := by
  induction cs with
  | nil => simp [h]
  | cons c cs ih =>
      by_cases hc : p c = true
      · simpa [hc] using ih
      · simp [hc]

theorem run_append_newline
    {p : Char → Bool}
    (h : p '\n' = false)
    (lexeme : List Char → Lexeme)
    (c : Char)
    (cs more : List Char) :
    run p lexeme c (cs ++ '\n' :: more) =
      ((run p lexeme c cs).1,
        (run p lexeme c cs).2 ++ '\n' :: more) := by
  rcases span_append_newline h cs more with ⟨hTake, hDrop⟩
  simp only [run, hTake, hDrop]

theorem string_append_newline
    {quote : Char}
    (h : quote ≠ '\n')
    (cs more : List Char) :
    string quote (cs ++ '\n' :: more) =
      ((string quote cs).1,
        (string quote cs).2 ++ '\n' :: more) := by
  have hStop : continuesString quote '\n' = false := by
    simp [continuesString]
  rcases span_append_newline hStop cs more
    with ⟨hTake, hDrop⟩
  simp only [string, hTake, hDrop]
  cases hRest : cs.dropWhile (continuesString quote) with
  | nil =>
      simp only [List.nil_append, if_neg (Ne.symm h)]
  | cons d rest =>
      simp only [List.cons_append]
      split <;> rfl

theorem head?_append_newline
    {p : Char → Bool}
    (h : p '\n' = false)
    (cs more : List Char) :
    (cs ++ '\n' :: more).head?.any p = cs.head?.any p := by
  cases cs with
  | nil => simp [h]
  | cons c cs => rfl

/- A piece is the same whatever comes behind a line feed. -/
theorem next_append_newline
    (c : Char)
    (cs more : List Char) :
    next c (cs ++ '\n' :: more) =
      ((next c cs).1, (next c cs).2 ++ '\n' :: more) := by
  have hSlash :
      (cs ++ '\n' :: more).head? = some '/' ↔
        cs.head? = some '/' := by
    cases cs with
    | nil => simp
    | cons d cs => simp
  have hWord :=
    head?_append_newline (p := Text.isWordChar) rfl cs more
  unfold next
  simp only [hSlash, hWord]
  split
  · exact run_append_newline rfl _ c cs more
  split
  · exact run_append_newline rfl _ c cs more
  split
  · rfl
  split
  · rename_i hNewline hQuote
    exact string_append_newline hNewline cs more
  split
  · exact run_append_newline rfl _ c cs more
  split
  · exact run_append_newline rfl _ c cs more
  split
  · split
    · exact run_append_newline rfl _ c cs more
    · rfl
  split <;> rfl

/- The piece of a line feed. -/
def lineFeed : Piece := ⟨.token .newline none, ['\n']⟩

/- A line feed keeps the pieces on both sides apart. -/
theorem ofChars_append_newline
    (cs more : List Char) :
    ofChars (cs ++ '\n' :: more) =
      ofChars cs ++ lineFeed :: ofChars more := by
  fun_induction ofChars cs with
  | case1 =>
      rw [List.nil_append, ofChars]
      rfl
  | case2 c cs ih =>
      rw [List.cons_append, ofChars, next_append_newline, ih,
        List.cons_append]

end Piece

------------------------------------------------------------
-- Moving Places Down
------------------------------------------------------------

/- The same column, some lines further down. -/
def Position.down (lines : Nat) (p : Position) : Position :=
  ⟨p.line + lines, p.column⟩

/- The same columns, some lines further down. -/
def Span.down (lines : Nat) (s : Span) : Span :=
  ⟨s.startLine + lines, s.startColumn,
   s.endLine + lines, s.endColumn⟩

/- The same token, some lines further down. -/
def Token.down (lines : Nat) (t : Token) : Token :=
  { t with span := t.span.down lines }

/- The same finding, some lines further down. -/
def Diagnostic.down
    (lines : Nat)
    (d : Diagnostic) : Diagnostic :=
  { d with span := d.span.down lines }

/- The same piece, some lines further down. -/
def PlacedPiece.down (lines : Nat) (x : PlacedPiece) : PlacedPiece :=
  { x with start := x.start.down lines }

namespace Position

theorem advance_down
    (lines : Nat)
    (p : Position)
    (c : Char) :
    (p.down lines).advance c = (p.advance c).down lines := by
  unfold advance
  split
  · simp only [down]
    congr 1
    omega
  · rfl

theorem advanceAll_down
    (lines : Nat)
    (p : Position)
    (cs : List Char) :
    (p.down lines).advanceAll cs =
      (p.advanceAll cs).down lines := by
  induction cs generalizing p with
  | nil => rfl
  | cons c cs ih =>
      have hFirst := ih (p.advance c)
      rw [← advance_down] at hFirst
      exact hFirst

end Position

namespace PlacedPiece

theorem span_down
    (lines : Nat)
    (x : PlacedPiece) :
    (x.down lines).span = x.span.down lines := by
  simp only [span, stop, down, Position.advanceAll_down]
  rfl

theorem token?_down
    (lines : Nat)
    (x : PlacedPiece) :
    (x.down lines).token? =
      x.token?.map (Token.down lines) := by
  simp only [token?, span_down, Option.map_map]
  rfl

end PlacedPiece

/- Pieces stand further down if the first one does. -/
theorem Piece.placedFrom_down
    (lines : Nat)
    (p : Position)
    (qs : List Piece) :
    placedFrom (p.down lines) qs =
      (placedFrom p qs).map (PlacedPiece.down lines) := by
  induction qs generalizing p with
  | nil => rfl
  | cons q qs ih =>
      rw [placedFrom, Position.advanceAll_down, ih]
      rfl

theorem Token.tokensFrom_down
    (lines : Nat)
    (p : Position)
    (qs : List Piece) :
    tokensFrom (p.down lines) qs =
      (tokensFrom p qs).map (Token.down lines) := by
  rw [tokensFrom, tokensFrom, Piece.placedFrom_down,
    List.filterMap_map, List.map_filterMap]
  exact List.filterMap_congr fun x _ => x.token?_down lines

------------------------------------------------------------
-- Lines Of Joined Texts
------------------------------------------------------------

namespace SourceText

/- Two texts, a line feed between them. -/
def joined (name a b : String) : SourceText :=
  ⟨name, a ++ "\n" ++ b⟩

theorem toList_joined
    (name a b : String) :
    (joined name a b).text.toList =
      a.toList ++ '\n' :: b.toList := by
  simp [joined]

/- The rows of both texts, in order. -/
theorem splitLines_joined
    (name a b : String) :
    splitLines (joined name a b).text.toList =
      splitLines a.toList ++ splitLines b.toList := by
  rw [toList_joined, splitLines, Text.split_append_sep]
  rfl

variable (name a b : String)

theorem line?_joined_first
    {n : Nat}
    (h : n ≤ lineCount ⟨name, a⟩) :
    (joined name a b).line? n = line? ⟨name, a⟩ n := by
  rw [line?_eq, line?_eq]
  cases n with
  | zero => rfl
  | succ n =>
      rw [lineCount_eq] at h
      rw [row?, row?, splitLines_joined,
        List.getElem?_append_left h]

theorem line?_joined_second
    {n : Nat}
    (h : 1 ≤ n) :
    (joined name a b).line? (n + lineCount ⟨name, a⟩) =
      line? ⟨name, b⟩ n := by
  rw [line?_eq, line?_eq, lineCount_eq]
  cases n with
  | zero => cases h
  | succ n =>
      have hIndex (k : Nat) : n + 1 + k = k + n + 1 := by
        omega
      rw [hIndex, row?, row?, splitLines_joined,
        List.getElem?_append_right (Nat.le_add_right _ n),
        Nat.add_sub_cancel_left]

end SourceText

/- A text ends on its last line. -/
theorem Token.line_stopOf
    (source : SourceText) :
    (stopOf source).line = source.lineCount := by
  rcases Text.exists_last '\n' source.text.toList
    with ⟨init, row, hRows⟩
  rw [stopOf, Position.advanceAll_start hRows,
    SourceText.lineCount_eq, splitLines, hRows,
    List.length_append, List.length_singleton]

------------------------------------------------------------
-- Errors Of Joined Texts
------------------------------------------------------------

/- Pieces stand between the first and the last line. -/
theorem Piece.line_of_mem_placedFrom
    {p : Position}
    {qs : List Piece}
    {x : PlacedPiece}
    (h : x ∈ placedFrom p qs) :
    p.line ≤ x.start.line ∧
      x.start.line ≤ (p.advanceAll (text qs)).line := by
  rcases exists_of_mem_placedFrom h
    with ⟨before, after, rfl, hStart⟩
  have hText :
      text (before ++ x.piece :: after) =
        text before ++ text (x.piece :: after) :=
    List.flatMap_append
  rw [hStart, hText, Position.advanceAll_append]
  exact ⟨Position.line_le_advanceAll _ _,
    Position.line_le_advanceAll _ _⟩

namespace Token

variable (name a b : String)

/- Errors of the first text quote the same lines. -/
theorem errorsFrom_joined_first :
    errorsFrom (.joined name a b) .start
        (Piece.ofChars a.toList) =
      allErrors ⟨name, a⟩ := by
  refine List.filterMap_congr fun x hx => ?_
  have hLine :
      x.start.line ≤ SourceText.lineCount ⟨name, a⟩ := by
    have hLe := (Piece.line_of_mem_placedFrom hx).2
    have hText : Piece.text (Piece.ofChars a.toList) =
        a.toList := Piece.flatMap_chars_ofChars _
    rw [hText] at hLe
    exact hLe.trans_eq (line_stopOf ⟨name, a⟩)
  have hQuote :=
    SourceText.line?_joined_first name a b hLine
  unfold PlacedPiece.error? faultAt Diagnostic.error
  simp only [PlacedPiece.span, Span.between, hQuote]
  rfl

/- Errors of the second text quote the same lines. -/
theorem errorsFrom_joined_second :
    errorsFrom (.joined name a b)
        (Position.start.down (SourceText.lineCount ⟨name, a⟩))
        (Piece.ofChars b.toList) =
      (allErrors ⟨name, b⟩).map
        (Diagnostic.down
          (SourceText.lineCount ⟨name, a⟩)) := by
  rw [errorsFrom, allErrors, errorsFrom,
    Piece.placedFrom_down, List.filterMap_map,
    List.map_filterMap]
  refine List.filterMap_congr fun x hx => ?_
  have hLine : 1 ≤ x.start.line :=
    (Piece.line_of_mem_placedFrom hx).1
  have hQuote :=
    SourceText.line?_joined_second name a b hLine
  simp only [Function.comp_apply, PlacedPiece.error?,
    PlacedPiece.span_down, Option.map_map]
  refine congrArg (Option.map · x.piece.fault?) ?_
  funext fault
  simp only [Function.comp_apply, faultAt, Diagnostic.error,
    Diagnostic.down, PlacedPiece.span, Span.between, Span.down,
    hQuote]
  rfl

/- Behind the line feed, the second text starts anew. -/
theorem advance_stopOf :
    (stopOf ⟨name, a⟩).advance '\n' =
      Position.start.down
        (SourceText.lineCount ⟨name, a⟩) := by
  rw [← line_stopOf, Position.down, Nat.add_comm]
  rfl

/- The pieces of joined texts, each at its place. -/
theorem placedFrom_joined :
    Piece.placedFrom .start
        (Piece.ofChars
          (SourceText.joined name a b).text.toList) =
      Piece.placedFrom .start (Piece.ofChars a.toList) ++
        ⟨Piece.lineFeed, stopOf ⟨name, a⟩⟩ ::
          Piece.placedFrom
            (Position.start.down
              (SourceText.lineCount ⟨name, a⟩))
            (Piece.ofChars b.toList) := by
  have hText : Piece.text (Piece.ofChars a.toList) = a.toList :=
    Piece.flatMap_chars_ofChars _
  rw [SourceText.toList_joined, Piece.ofChars_append_newline,
    Piece.placedFrom_append, hText, Piece.placedFrom,
    ← advance_stopOf]
  rfl

theorem allTokens_joined :
    allTokens (.joined name a b) =
      allTokens ⟨name, a⟩ ++
        ⟨.newline,
          ⟨SourceText.lineCount ⟨name, a⟩,
            (stopOf ⟨name, a⟩).column,
            SourceText.lineCount ⟨name, a⟩ + 1, 1⟩⟩ ::
          (allTokens ⟨name, b⟩).map
            (Token.down
              (SourceText.lineCount ⟨name, a⟩)) := by
  have hBack := tokensFrom_down
    (SourceText.lineCount ⟨name, a⟩) .start
    (Piece.ofChars b.toList)
  rw [tokensFrom] at hBack
  rw [allTokens, tokensFrom, placedFrom_joined,
    List.filterMap_append, List.filterMap_cons, hBack,
    ← line_stopOf]
  rfl

theorem allErrors_joined :
    allErrors (.joined name a b) =
      allErrors ⟨name, a⟩ ++
        (allErrors ⟨name, b⟩).map
          (Diagnostic.down
            (SourceText.lineCount ⟨name, a⟩)) := by
  rw [← errorsFrom_joined_first name a b,
    ← errorsFrom_joined_second name a b, allErrors,
    errorsFrom, placedFrom_joined, List.filterMap_append]
  rfl

theorem stopOf_joined :
    stopOf (.joined name a b) =
      (stopOf ⟨name, b⟩).down
        (SourceText.lineCount ⟨name, a⟩) := by
  have hFeed := advance_stopOf name a
  rw [stopOf, SourceText.toList_joined,
    Position.advanceAll_append, stopOf,
    ← Position.advanceAll_down, ← hFeed]
  rfl

/-
  Two texts joined by a line feed are lexed apart: first the
  tokens of the one, then a newline, then the tokens of the
  other further down, and so with the errors.
-/
theorem joined_texts_lex_apart
    (h : (ofSource (.joined name a b)).log.totalErrors <
      Log.capacity) :
    let lines := SourceText.lineCount ⟨name, a⟩
    let first := ofSource ⟨name, a⟩
    let second := ofSource ⟨name, b⟩
    let both := ofSource (.joined name a b)
    (∃ front stop,
      first.tokens = front ++ [.endAt stop] ∧
        stop.line = lines ∧
        both.tokens =
          front ++
            ⟨.newline, ⟨lines, stop.column, lines + 1, 1⟩⟩ ::
              second.tokens.map (Token.down lines)) ∧
      both.log.errors =
        first.log.errors ++
          second.log.errors.map (Diagnostic.down lines) ∧
      both.log.totalErrors =
        first.log.totalErrors + second.log.totalErrors := by
  have hBoth := room_of_ofSource h
  have hLength := congrArg List.length
    (allErrors_joined name a b)
  rw [List.length_append, List.length_map] at hLength
  have hFirst :
      (allErrors ⟨name, a⟩).length < Log.capacity := by
    omega
  have hSecond :
      (allErrors ⟨name, b⟩).length < Log.capacity := by
    omega
  simp only [ofSource_of_room hBoth, ofSource_of_room hFirst,
    ofSource_of_room hSecond]
  refine ⟨⟨_, _, rfl, line_stopOf ⟨name, a⟩, ?_⟩,
    allErrors_joined name a b, hLength⟩
  rw [allTokens_joined, stopOf_joined, List.append_assoc,
    List.cons_append, List.map_append]
  rfl

/- An open string and a stray character keep to their lines. -/
theorem joined_texts_lex_apart_open_string :
    let both := ofSource (.joined "" "pause: 'a // b" "c $ d")
    both.log.totalErrors < Log.capacity ∧
      (∃ front stop,
        (ofSource ⟨"", "pause: 'a // b"⟩).tokens =
            front ++ [.endAt stop] ∧
          both.tokens =
            front ++ ⟨.newline, ⟨1, stop.column, 2, 1⟩⟩ ::
              (ofSource ⟨"", "c $ d"⟩).tokens.map
                (Token.down 1)) ∧
      both.log.totalErrors = 2 := by
  have hRoom :
      (ofSource (.joined "" "pause: 'a // b"
        "c $ d")).log.totalErrors < Log.capacity := by
    decide +kernel
  have hLines :
      SourceText.lineCount ⟨"", "pause: 'a // b"⟩ = 1 := by
    decide +kernel
  rcases joined_texts_lex_apart "" _ _ hRoom
    with ⟨⟨front, stop, hFirst, -, hBoth⟩, -⟩
  rw [hLines] at hBoth
  exact ⟨hRoom, ⟨front, stop, hFirst, hBoth⟩,
    by decide +kernel⟩

end Token

end LightShow
