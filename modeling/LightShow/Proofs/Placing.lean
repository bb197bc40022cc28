import LightShow.Proofs.Cutting
import LightShow.Proofs.Logs
import LightShow.Text.Split

/-
  Where the pieces of a text stand.

  A place counts the line feeds before it and the characters
  since the last one, so the place behind a front of the text
  names the row and the column that come next. While the log
  has room, the tokens and errors of a text are read off its
  pieces one by one, each at its place.

  Key definitions include:
    * `splitLines`
    * `SourceText.row?`
    * `Position.Before`
    * `PlacedPiece`
    * `Piece.placedFrom`

  Main statements:
    * `Position.advanceAll_start`
    * `SourceText.exists_row`
    * `Token.collect_of_room`
    * `Token.ofSource_of_room`
-/

namespace LightShow

------------------------------------------------------------
-- Splitting A Text In Two
------------------------------------------------------------

namespace Text

variable {sep : Char}

/- There is always a last part. -/
theorem exists_last
    (sep : Char)
    (cs : List Char) :
    ∃ init last, split sep cs = init ++ [last] := by
  rcases List.eq_nil_or_concat (split sep cs)
    with hNone | ⟨init, last, hLast⟩
  · exact absurd hNone (split_ne_nil sep cs)
  · exact ⟨init, last, hLast.trans List.concat_eq_append⟩

/- The part where two runs meet belongs to both of them. -/
theorem split_append
    {xs ys : List Char}
    {init tail : List (List Char)}
    {left right : List Char}
    (hFront : split sep xs = init ++ [left])
    (hBack : split sep ys = right :: tail) :
    split sep (xs ++ ys) = init ++ (left ++ right) :: tail := by
  induction xs generalizing init left with
  | nil =>
      rw [split_nil] at hFront
      rcases List.append_eq_singleton_iff.mp hFront.symm
        with ⟨rfl, hLeft⟩ | ⟨-, hNone⟩
      · cases hLeft
        exact hBack
      · cases hNone
  | cons c xs ih =>
      rcases exists_last sep xs with ⟨front, last, hLast⟩
      rw [split_cons, hLast] at hFront
      rw [List.cons_append, split_cons, ih hLast]
      split
      · rename_i hSep
        rw [if_pos hSep, ← List.cons_append] at hFront
        rcases List.append_inj' hFront rfl with ⟨rfl, ⟨⟩⟩
        rfl
      · rename_i hOther
        rw [if_neg hOther] at hFront
        -- `c` goes to the first part, which may be the last
        cases front with
        | nil =>
            have hOne : [] ++ [c :: last] = init ++ [left] :=
              hFront
            rcases List.append_inj' hOne rfl with ⟨rfl, ⟨⟩⟩
            rfl
        | cons part front =>
            have hMore :
                ((c :: part) :: front) ++ [last] =
                  init ++ [left] := hFront
            rcases List.append_inj' hMore rfl with ⟨rfl, ⟨⟩⟩
            rfl

/- A separator ends a part. -/
theorem split_append_sep
    (sep : Char)
    (xs ys : List Char) :
    split sep (xs ++ sep :: ys) =
      split sep xs ++ split sep ys := by
  rcases exists_last sep xs with ⟨init, last, hLast⟩
  have hBack : split sep (sep :: ys) = [] :: split sep ys :=
    (split_cons sep sep ys).trans (if_pos rfl)
  rw [split_append hLast hBack, hLast, List.append_nil,
    List.append_assoc, List.singleton_append]

/- The first part goes up to the first separator. -/
theorem split_eq_takeWhile
    (sep : Char)
    (cs : List Char) :
    ∃ tail, split sep cs = cs.takeWhile (· != sep) :: tail := by
  induction cs with
  | nil => exact ⟨[], rfl⟩
  | cons c cs ih =>
      rw [split_cons]
      split
      · rename_i hSep
        exact ⟨split sep cs, by simp [hSep]⟩
      · rename_i hOther
        rcases ih with ⟨tail, hTail⟩
        exact ⟨tail, by simp [hTail, consPart, hOther]⟩

/- No part has a separator in it. -/
theorem not_mem_of_mem_split
    {cs part : List Char}
    (h : part ∈ split sep cs) :
    sep ∉ part := by
  induction cs generalizing part with
  | nil =>
      rw [List.mem_singleton.mp h]
      exact List.not_mem_nil
  | cons c cs ih =>
      rw [split_cons] at h
      split at h
      · rcases List.mem_cons.mp h with rfl | hRest
        · exact List.not_mem_nil
        · exact ih hRest
      · rename_i hOther
        cases hParts : split sep cs with
        | nil => exact absurd hParts (split_ne_nil sep cs)
        | cons first parts =>
            rw [hParts] at h ih
            rcases List.mem_cons.mp h with rfl | hRest
            · rw [List.mem_cons, not_or]
              exact ⟨Ne.symm hOther,
                ih (List.mem_cons_self ..)⟩
            · exact ih (List.mem_cons_of_mem _ hRest)

theorem split_of_not_mem
    {cs : List Char}
    (h : sep ∉ cs) :
    split sep cs = [cs] := by
  induction cs with
  | nil => rfl
  | cons c cs ih =>
      rw [List.mem_cons, not_or] at h
      rw [split_cons, if_neg (Ne.symm h.1), ih h.2]
      rfl

/- Each part but the last one is followed by a separator. -/
theorem join_append
    (init : List (List Char))
    (part : List Char)
    (tail : List (List Char)) :
    join sep (init ++ part :: tail) =
      init.flatMap (· ++ [sep]) ++ join sep (part :: tail) := by
  induction init with
  | nil => rfl
  | cons first init ih =>
      rw [List.flatMap_cons, List.append_assoc, ← ih,
        List.append_assoc, List.singleton_append]
      cases init <;> rfl

theorem split_flatMap
    {init : List (List Char)}
    (h : ∀ part ∈ init, sep ∉ part)
    {last : List Char}
    (hLast : sep ∉ last) :
    split sep (init.flatMap (· ++ [sep]) ++ last) =
      init ++ [last] := by
  induction init with
  | nil => exact split_of_not_mem hLast
  | cons first init ih =>
      rcases List.forall_mem_cons.mp h with ⟨hFirst, hRest⟩
      rw [List.flatMap_cons, List.append_assoc,
        List.append_assoc, List.singleton_append,
        split_append_sep, split_of_not_mem hFirst, ih hRest]
      rfl

/- The text in front of some place inside a part. -/
theorem exists_front
    {cs : List Char}
    {init tail : List (List Char)}
    {left right : List Char}
    (h : split sep cs = init ++ (left ++ right) :: tail) :
    ∃ front back,
      cs = front ++ (right ++ back) ∧
        split sep front = init ++ [left] ∧
        (tail ≠ [] → back.head? = some sep) := by
  have hNone : ∀ part ∈ init ++ (left ++ right) :: tail,
      sep ∉ part := fun part hPart =>
    not_mem_of_mem_split (h.symm ▸ hPart)
  rcases List.forall_mem_append.mp hNone with ⟨hInit, hOthers⟩
  have hLeft : sep ∉ left := fun hMem =>
    hOthers _ (List.mem_cons_self ..)
      (List.mem_append_left right hMem)
  have hJoin := join_split sep cs
  rw [h, join_append] at hJoin
  cases tail with
  | nil =>
      refine ⟨init.flatMap (· ++ [sep]) ++ left, [], ?_,
        split_flatMap hInit hLeft, fun hTail => absurd rfl hTail⟩
      rw [← hJoin, join, List.append_nil, List.append_assoc]
  | cons next tail =>
      refine ⟨init.flatMap (· ++ [sep]) ++ left,
        sep :: join sep (next :: tail), ?_,
        split_flatMap hInit hLeft, fun _ => rfl⟩
      rw [← hJoin, join, List.append_assoc, List.append_assoc]

end Text

/- The lines of a character list, without their line feeds. -/
def splitLines (cs : List Char) : List (List Char) :=
  Text.split '\n' cs

------------------------------------------------------------
-- Places
------------------------------------------------------------

namespace Position

theorem advanceAll_append
    (p : Position)
    (xs ys : List Char) :
    p.advanceAll (xs ++ ys) =
      (p.advanceAll xs).advanceAll ys :=
  List.foldl_append

/- Inside a line, columns count characters. -/
theorem advanceAll_of_no_newline
    (p : Position)
    {cs : List Char}
    (h : '\n' ∉ cs) :
    p.advanceAll cs = ⟨p.line, p.column + cs.length⟩ := by
  induction cs generalizing p with
  | nil => rfl
  | cons c cs ih =>
      rw [List.mem_cons, not_or] at h
      have hAdvance :
          p.advance c = ⟨p.line, p.column + 1⟩ :=
        if_neg (Ne.symm h.1)
      have hRest := ih (p.advance c) h.2
      rw [hAdvance] at hRest
      rw [List.length_cons, Nat.add_comm cs.length,
        ← Nat.add_assoc]
      exact (congrArg (advanceAll · cs) hAdvance).trans hRest

/- A place is the number of its row and of its column. -/
theorem advanceAll_start
    {cs : List Char}
    {init : List (List Char)}
    {row : List Char}
    (h : splitLines cs = init ++ [row]) :
    start.advanceAll cs =
      ⟨init.length + 1, row.length + 1⟩ := by
  induction cs using List.reverseRecOn generalizing init row with
  | nil =>
      rcases List.append_eq_singleton_iff.mp h.symm
        with ⟨rfl, hRow⟩ | ⟨-, hNone⟩
      · cases hRow
        rfl
      · cases hNone
  | append_singleton cs c ih =>
      rcases Text.exists_last '\n' cs with ⟨front, last, hLast⟩
      rw [advanceAll_append, ih hLast]
      by_cases hNewline : c = '\n'
      · have hOne : Text.split '\n' [c] = [] :: [[]] := by
          rw [hNewline]
          rfl
        rw [splitLines, Text.split_append hLast hOne,
          List.append_nil, ← List.concat_append,
          List.concat_eq_append] at h
        rcases List.append_inj' h rfl with ⟨rfl, ⟨⟩⟩
        simp [advanceAll, advance, hNewline]
      · have hOne : Text.split '\n' [c] = [c] :: [] := by
          simp [Text.split, hNewline, Text.consPart]
        rw [splitLines, Text.split_append hLast hOne] at h
        rcases List.append_inj' h rfl with ⟨rfl, ⟨⟩⟩
        simp [advanceAll, advance, hNewline]

/- Lines never count backwards. -/
theorem line_le_advanceAll
    (p : Position)
    (cs : List Char) :
    p.line ≤ (p.advanceAll cs).line := by
  induction cs generalizing p with
  | nil => exact Nat.le_refl _
  | cons c cs ih =>
      have hFirst : p.line ≤ (p.advance c).line := by
        unfold advance
        split
        · exact Nat.le_succ _
        · exact Nat.le_refl _
      exact hFirst.trans (ih (p.advance c))

theorem line_lt_advanceAll
    (p : Position)
    {cs : List Char}
    (h : '\n' ∈ cs) :
    p.line < (p.advanceAll cs).line := by
  rcases List.append_of_mem h with ⟨front, back, rfl⟩
  have hFront := line_le_advanceAll p front
  have hBack := line_le_advanceAll
    ((p.advanceAll front).advance '\n') back
  rw [advanceAll_append]
  exact Nat.lt_of_lt_of_le (Nat.lt_succ_of_le hFront) hBack

/- The place comes earlier in the text. -/
def Before (p q : Position) : Prop :=
  p.line < q.line ∨ p.line = q.line ∧ p.column < q.column

theorem Before.trans
    {p q r : Position}
    (h : p.Before q)
    (hNext : q.Before r) :
    p.Before r := by
  unfold Before at h hNext ⊢
  omega

theorem before_advance
    (p : Position)
    (c : Char) :
    p.Before (p.advance c) := by
  unfold advance
  split
  · exact .inl (Nat.lt_succ_self _)
  · exact .inr ⟨rfl, Nat.lt_succ_self _⟩

/- Characters lead to a later place. -/
theorem before_advanceAll
    (p : Position)
    {cs : List Char}
    (h : cs ≠ []) :
    p.Before (p.advanceAll cs) := by
  induction cs generalizing p with
  | nil => exact absurd rfl h
  | cons c cs ih =>
      have hFirst := before_advance p c
      by_cases hNone : cs = []
      · rw [hNone]
        exact hFirst
      · exact hFirst.trans (ih (p.advance c) hNone)

end Position

------------------------------------------------------------
-- Rows
------------------------------------------------------------

namespace SourceText

/- The text between two line feeds, counted from one. -/
def row? (s : SourceText) : Nat → Option (List Char)
  | 0 => none
  | n + 1 => (splitLines s.text.toList)[n]?

/-
  A run without line feeds stands in the row and from the
  column on that the place before it names.
-/
theorem exists_row
    {source : SourceText}
    {front run back : List Char}
    (hText : source.text.toList = front ++ (run ++ back))
    (hRun : '\n' ∉ run) :
    ∃ left,
      source.row? (Position.start.advanceAll front).line =
          some (left ++ run ++ back.takeWhile (· != '\n')) ∧
        (Position.start.advanceAll front).column =
          left.length + 1 := by
  rcases Text.exists_last '\n' front with ⟨init, left, hFront⟩
  have hAll : ∀ c ∈ run, (c != '\n') = true := by
    intro c hc
    rw [bne_iff_ne]
    rintro rfl
    exact hRun hc
  rcases Text.split_eq_takeWhile '\n' (run ++ back)
    with ⟨tail, hBack⟩
  rw [List.takeWhile_append_of_pos hAll] at hBack
  refine ⟨left, ?_, ?_⟩
  · rw [Position.advanceAll_start hFront, row?, splitLines,
      hText, Text.split_append hFront hBack,
      List.getElem?_append_right (Nat.le_refl _),
      Nat.sub_self, List.append_assoc]
    rfl
  · rw [Position.advanceAll_start hFront]

theorem exists_init_of_row?
    {source : SourceText}
    {n : Nat}
    {row : List Char}
    (h : source.row? n = some row) :
    ∃ init tail,
      splitLines source.text.toList = init ++ row :: tail ∧
        init.length + 1 = n ∧
        (∀ next, source.row? (n + 1) = some next →
          tail ≠ []) := by
  cases n with
  | zero => cases h
  | succ n =>
      rcases List.getElem?_eq_some_iff.mp h with ⟨hLess, rfl⟩
      let rows := splitLines source.text.toList
      refine ⟨rows.take n, rows.drop (n + 1), ?_, ?_, ?_⟩
      · rw [← List.drop_eq_getElem_cons hLess,
          List.take_append_drop]
      · rw [List.length_take_of_le (Nat.le_of_lt hLess)]
      · intro next hNext hNone
        have hMore := (List.getElem?_eq_some_iff.mp hNext).1
        have hEnd := List.drop_eq_nil_iff.mp hNone
        exact absurd hMore (Nat.not_lt.mpr hEnd)

/- A character of a row comes behind a front of the text. -/
theorem exists_front_of_char
    {source : SourceText}
    {n : Nat}
    {left right : List Char}
    {c : Char}
    (h : source.row? n = some (left ++ c :: right)) :
    ∃ front back,
      source.text.toList = front ++ c :: back ∧
        Position.start.advanceAll front =
          ⟨n, left.length + 1⟩ ∧
        c ≠ '\n' := by
  rcases exists_init_of_row? h with ⟨init, tail, hRows, rfl, -⟩
  rcases Text.exists_front hRows
    with ⟨front, back, hText, hFront, -⟩
  refine ⟨front, right ++ back, hText,
    Position.advanceAll_start hFront, ?_⟩
  rintro rfl
  have hPart : left ++ '\n' :: right ∈
      Text.split '\n' source.text.toList := by
    rw [← splitLines, hRows]
    exact List.mem_append_right _ (List.mem_cons_self ..)
  exact Text.not_mem_of_mem_split hPart
    (List.mem_append_right _ (List.mem_cons_self ..))

/- So does the line feed behind a row. -/
theorem exists_front_of_newline
    {source : SourceText}
    {n : Nat}
    {row next : List Char}
    (h : source.row? n = some row)
    (hNext : source.row? (n + 1) = some next) :
    ∃ front back,
      source.text.toList = front ++ '\n' :: back ∧
        Position.start.advanceAll front =
          ⟨n, row.length + 1⟩ := by
  rcases exists_init_of_row? h
    with ⟨init, tail, hRows, rfl, hTail⟩
  rw [← List.append_nil row] at hRows
  rcases Text.exists_front hRows
    with ⟨front, back, hText, hFront, hBack⟩
  rcases List.head?_eq_some_iff.mp (hBack (hTail next hNext))
    with ⟨rest, rfl⟩
  exact ⟨front, rest, hText, Position.advanceAll_start hFront⟩

end SourceText

------------------------------------------------------------
-- Pieces At Their Places
------------------------------------------------------------

/- What is wrong with a piece. -/
def Piece.fault? (q : Piece) : Option LexFault :=
  match q.lexeme with
  | .gap => none
  | .token _ fault => fault
  | .stray fault => some fault

/- A piece and the place of its first character. -/
structure PlacedPiece where
  piece : Piece
  start : Position

namespace PlacedPiece

/- The place behind the piece. -/
def stop (x : PlacedPiece) : Position :=
  x.start.advanceAll x.piece.chars

def span (x : PlacedPiece) : Span :=
  .between x.start x.stop

/- The token that the piece is. -/
def token? (x : PlacedPiece) : Option Token :=
  x.piece.kind?.map fun kind => ⟨kind, x.span⟩

/- The error that the piece brings. -/
def error?
    (source : SourceText)
    (x : PlacedPiece) : Option Diagnostic :=
  x.piece.fault?.map fun fault =>
    Token.faultAt source fault x.span

end PlacedPiece

namespace Piece

/- All characters of some pieces. -/
def text (qs : List Piece) : List Char :=
  qs.flatMap Piece.chars

/- The pieces of a text that starts at `p`, at their places. -/
def placedFrom (p : Position) : List Piece → List PlacedPiece
  | [] => []
  | q :: qs =>
      ⟨q, p⟩ :: placedFrom (p.advanceAll q.chars) qs

theorem advanceAll_text_cons
    (p : Position)
    (q : Piece)
    (qs : List Piece) :
    p.advanceAll (text (q :: qs)) =
      (p.advanceAll q.chars).advanceAll (text qs) :=
  Position.advanceAll_append p q.chars _

theorem placedFrom_append
    (p : Position)
    (qs rs : List Piece) :
    placedFrom p (qs ++ rs) =
      placedFrom p qs ++
        placedFrom (p.advanceAll (text qs)) rs := by
  induction qs generalizing p with
  | nil => rfl
  | cons q qs ih =>
      rw [List.cons_append, placedFrom, placedFrom, ih,
        advanceAll_text_cons, List.cons_append]

/- Every piece stands behind the ones before it. -/
theorem exists_of_mem_placedFrom
    {p : Position}
    {qs : List Piece}
    {x : PlacedPiece}
    (h : x ∈ placedFrom p qs) :
    ∃ before after,
      qs = before ++ x.piece :: after ∧
        x.start = p.advanceAll (text before) := by
  induction qs generalizing p with
  | nil => cases h
  | cons q qs ih =>
      rcases List.mem_cons.mp h with rfl | hRest
      · exact ⟨[], qs, rfl, rfl⟩
      · rcases ih hRest with ⟨before, after, rfl, hStart⟩
        refine ⟨q :: before, after, rfl, ?_⟩
        rw [hStart, advanceAll_text_cons]

end Piece

------------------------------------------------------------
-- Tokens And Errors Of Pieces
------------------------------------------------------------

namespace Token

section Collect

variable {source : SourceText}

/- The errors that pieces bring from place `p` on. -/
def errorsFrom
    (source : SourceText)
    (p : Position)
    (pieces : List Piece) : List Diagnostic :=
  (Piece.placedFrom p pieces).filterMap (PlacedPiece.error? source)

/- The tokens that pieces are from place `p` on. -/
def tokensFrom
    (p : Position)
    (pieces : List Piece) : List Token :=
  (Piece.placedFrom p pieces).filterMap PlacedPiece.token?

/- While there is room, pieces are read one by one. -/
theorem collect_of_room
    {pieces : List Piece}
    {p : Position}
    {log : Log}
    (h : log.totalErrors +
      (errorsFrom source p pieces).length < Log.capacity) :
    collect source pieces p log =
      ⟨tokensFrom p pieces ++
          [.endAt (p.advanceAll (Piece.text pieces))],
        (errorsFrom source p pieces).foldl Log.pushError
          log⟩ := by
  induction pieces generalizing p log with
  | nil => rfl
  | cons q pieces ih =>
      rcases q with ⟨lexeme, chars⟩
      have hRoom (d : Diagnostic)
          (hCount : log.totalErrors + ((errorsFrom source
            (p.advanceAll chars) pieces).length + 1) <
              Log.capacity) :
          (log.pushError d).isFull = false ∧
            (log.pushError d).totalErrors + (errorsFrom source
              (p.advanceAll chars) pieces).length <
                Log.capacity := by
        refine ⟨decide_eq_false ?_, ?_⟩
        · show ¬Log.capacity ≤ log.totalErrors + 1
          omega
        · show log.totalErrors + 1 + _ < Log.capacity
          omega
      rw [Piece.advanceAll_text_cons, collect]
      cases lexeme with
      | gap => exact ih h
      | stray fault =>
          rcases hRoom (faultAt source fault
            (.between p (p.advanceAll chars))) h
            with ⟨hFull, hRest⟩
          simp only [hFull, ih hRest]
          rfl
      | token kind fault =>
          cases fault with
          | none =>
              simp only [ih h]
              rfl
          | some fault =>
              rcases hRoom (faultAt source fault
                (.between p (p.advanceAll chars))) h
                with ⟨hFull, hRest⟩
              simp only [hFull, ih hRest]
              rfl

/- A log with room at the end had room all the way. -/
theorem room_of_collect
    {pieces : List Piece}
    {p : Position}
    {log : Log}
    (h : (collect source pieces p log).log.totalErrors <
      Log.capacity) :
    log.totalErrors +
      (errorsFrom source p pieces).length < Log.capacity := by
  induction pieces generalizing p log with
  | nil => exact h
  | cons q pieces ih =>
      rcases q with ⟨lexeme, chars⟩
      have hPushed (d : Diagnostic) (full rest : Lexed)
          (hFull : full.log = log.pushError d)
          (hRest : rest.log =
            (collect source pieces (p.advanceAll chars)
              (log.pushError d)).log)
          (h : (if (log.pushError d).isFull then full
            else rest).log.totalErrors < Log.capacity) :
          log.totalErrors + ((errorsFrom source
            (p.advanceAll chars) pieces).length + 1) <
              Log.capacity := by
        split at h
        · rename_i hIsFull
          rw [hFull] at h
          simp only [Log.isFull, decide_eq_true_eq] at hIsFull
          omega
        · rw [hRest] at h
          have hCount := ih h
          simp only [Log.pushError] at hCount
          omega
      rw [collect] at h
      cases lexeme with
      | gap => exact ih h
      | stray fault => exact hPushed _ _ _ rfl rfl h
      | token kind fault =>
          cases fault with
          | none => exact ih h
          | some fault =>
              exact hPushed _ _ (Lexed.cons _ _) rfl rfl h

end Collect

/- The errors of all pieces of a text. -/
def allErrors (source : SourceText) : List Diagnostic :=
  errorsFrom source .start (Piece.ofChars source.text.toList)

/- The tokens of all pieces of a text. -/
def allTokens (source : SourceText) : List Token :=
  tokensFrom .start (Piece.ofChars source.text.toList)

/- The place behind a text. -/
def stopOf (source : SourceText) : Position :=
  Position.start.advanceAll source.text.toList

/- A text with fewer errors than fit in a log is read whole. -/
theorem ofSource_of_room
    {source : SourceText}
    (h : (allErrors source).length < Log.capacity) :
    ofSource source =
      ⟨allTokens source ++ [.endAt (stopOf source)],
        ⟨allErrors source, [],
         (allErrors source).length, 0⟩⟩ := by
  have hNone : Log.empty.totalErrors +
      (errorsFrom source .start
        (Piece.ofChars source.text.toList)).length <
          Log.capacity := by
    rw [Nat.add_comm]
    exact h
  have hText :
      Piece.text (Piece.ofChars source.text.toList) =
        source.text.toList :=
    Piece.flatMap_chars_ofChars _
  have hLog := Log.foldl_pushError_empty (Nat.le_of_lt h)
  rw [ofSource_eq_collect, collect_of_room hNone, hText]
  exact congrArg (Lexed.mk _) hLog

theorem room_of_ofSource
    {source : SourceText}
    (h : (ofSource source).log.totalErrors < Log.capacity) :
    (allErrors source).length < Log.capacity := by
  rw [ofSource_eq_collect] at h
  have hRoom := room_of_collect h
  rwa [Log.empty, Nat.zero_add] at hRoom

end Token

end LightShow
