import LightShow.Diagnostic.Log
import LightShow.Token.Piece

/-
  The scanner.

  A scanner walks over the bytes of a source text with one
  cursor. It keeps the place of the cursor as it goes and
  takes the text and the span of a token from where the
  cursor was and where it has come to. No byte of a token
  is above 127 outside strings, so a byte is looked at as
  the ASCII character it would be.

  A byte that starts no token is reported, and scanning goes
  on behind it until the log is full. The list of tokens
  always ends with an end-of-file token at the place where
  the scanner stopped.

  Key definitions include:
    * `LightShow.Scanner`
    * `LightShow.Scanner.scan`
    * `LightShow.Scanner.lex`
    * `LightShow.Token.ofSource`
-/

namespace LightShow

/- Tokens and what was wrong on the way. -/
structure Lexed where
  tokens : List Token
  log : Log

/- The diagnostic of a fault at a span. -/
def Token.faultAt
    (source : SourceText)
    (fault : LexFault)
    (span : Span) : Diagnostic :=
  .error source fault.code fault.message span none

/- Put a token in front of what follows it. -/
def Token.Lexed.cons (t : Token) (rest : Lexed) : Lexed :=
  { rest with tokens := t :: rest.tokens }

/-
  The bytes not yet read, the place of the first of them,
  and what was reported so far.
-/
structure Scanner where
  rest : List UInt8
  place : Position
  log : Log

namespace Scanner

------------------------------------------------------------
-- The Cursor
------------------------------------------------------------

/- The scanner at the front of a text. -/
def start (source : SourceText) : Scanner :=
  ⟨Text.bytes source.text, .start, .empty⟩

/- The byte `n` bytes ahead of the cursor. -/
def peek (s : Scanner) (n : Nat) : Option Char :=
  s.rest[n]?.map Char.ofUInt8

/- Move past one byte. -/
def advance (s : Scanner) : Scanner :=
  match s.rest with
  | [] => s
  | b :: rest =>
      { s with rest, place := s.place.advanceByte b }

/- Read on while the bytes are in a class. -/
def eatBytes
    (p : UInt8 → Bool)
    (s : Scanner) : List UInt8 × Scanner :=
  let bytes := s.rest.takeWhile p
  (bytes,
    { s with
      rest := s.rest.dropWhile p
      place := s.place.advanceBytes bytes })

/- Read on while the bytes are in a class of characters. -/
def eat
    (p : Char → Bool)
    (s : Scanner) : List UInt8 × Scanner :=
  s.eatBytes fun b => p (.ofUInt8 b)

/- From a place to right before the cursor. -/
def spanFrom (start : Position) (s : Scanner) : Span :=
  .between start s.place

/- Report a fault. -/
def emit
    (source : SourceText)
    (fault : LexFault)
    (span : Span)
    (s : Scanner) : Scanner :=
  let d := Token.faultAt source fault span
  { s with log := s.log.pushError d }

/- Reading on never brings bytes back. -/
theorem length_eat_le
    (p : Char → Bool)
    (s : Scanner) :
    (s.eat p).2.rest.length ≤ s.rest.length :=
  (List.dropWhile_suffix _).length_le

/- Reading on moves if the first byte is in the class. -/
theorem length_eat_lt
    {p : Char → Bool}
    {s : Scanner}
    {c : Char}
    (hPeek : s.peek 0 = some c)
    (hClass : p c = true) :
    (s.eat p).2.rest.length < s.rest.length := by
  rcases s with ⟨_ | ⟨b, rest⟩, place, log⟩
  · simp [peek] at hPeek
  · simp only [peek, List.getElem?_cons_zero, Option.map_some,
      Option.some.injEq] at hPeek
    simp only [eat, eatBytes, hPeek, hClass,
      List.dropWhile_cons_of_pos, List.length_cons]
    exact Nat.lt_succ_of_le
      (List.dropWhile_suffix _).length_le

------------------------------------------------------------
-- Gaps
------------------------------------------------------------

/- Skip blanks, and comments up to the ends of their lines. -/
def skipGaps (s : Scanner) : Scanner :=
  let t := (s.eat Text.isGap).2
  if t.peek 0 = some '/' ∧ t.peek 1 = some '/' then
    skipGaps (t.eat (· != '\n')).2
  else t
termination_by s.rest.length
decreasing_by
  rename_i h
  exact Nat.lt_of_lt_of_le (length_eat_lt h.1 rfl)
    (length_eat_le _ s)

------------------------------------------------------------
-- Tokens
------------------------------------------------------------

/- A string behind its opening quote. -/
def string
    (source : SourceText)
    (start : Position)
    (quote : Char)
    (s : Scanner) : Token × Scanner :=
  let body := s.eat (Piece.continuesString quote)
  let kind := Token.Kind.quoted (Text.ofBytes body.1)
  let t := body.2
  if t.peek 0 = some quote then
    (⟨kind, t.advance.spanFrom start⟩, t.advance)
  else
    let span := t.spanFrom start
    (⟨kind, span⟩, t.emit source .unterminated span)

/- A number behind its first digit. -/
def number
    (source : SourceText)
    (start : Position)
    (b : UInt8)
    (s : Scanner) : Token × Scanner :=
  let more := s.eat Char.isDigit
  let t := more.2
  let digits := Text.ofBytes (b :: more.1)
  let span := t.spanFrom start
  let n := Text.digitsValue digits.toList
  if n < Piece.numberBound then (⟨.number n, span⟩, t)
  else
    (⟨.number 0, span⟩,
      t.emit source (.numberTooLarge digits) span)

/- A word behind its first byte, in small letters. -/
def word
    (kind : String → Token.Kind)
    (start : Position)
    (b : UInt8)
    (s : Scanner) : Token × Scanner :=
  let more := s.eat Text.isWordChar
  let t := more.2
  let name := Text.lower (Text.ofBytes (b :: more.1))
  (⟨kind name, t.spanFrom start⟩, t)

/- A token that was found, and the scanner behind it. -/
def found (r : Token × Scanner) : Option Token × Scanner :=
  (some r.1, r.2)

/-
  Read what starts with the byte `b` at the cursor: a token,
  or none if the byte starts none and was reported.
-/
def read
    (source : SourceText)
    (b : UInt8)
    (s : Scanner) : Option Token × Scanner :=
  let c := Char.ofUInt8 b
  let start := s.place
  let t := s.advance
  let span := t.spanFrom start
  if c = '\n' then found (⟨.newline, span⟩, t)
  else if c = '"' ∨ c = '\'' then
    found (t.string source start c)
  else if c.isDigit then found (t.number source start b)
  else if Text.isWordStart c then
    found (t.word .ofWord start b)
  else if c = '@' then
    if (t.peek 0).any Text.isWordChar then
      found (t.word .function start b)
    else (none, t.emit source .strayAt span)
  else
    match Mark.ofChar? c with
    | some m => found (⟨.mark m, span⟩, t)
    | none =>
        -- the rest of a character of several bytes
        let more := t.eatBytes Text.isContinuation
        let text := Text.ofBytes (b :: more.1)
        (none,
          more.2.emit source (.strayChar text)
            (more.2.spanFrom start))

------------------------------------------------------------
-- Every Step Moves The Cursor
------------------------------------------------------------

theorem length_advance_le (s : Scanner) :
    s.advance.rest.length ≤ s.rest.length := by
  unfold advance
  split
  · exact Nat.le_refl _
  · next h => simp [h]

theorem length_advance_lt
    {s : Scanner}
    (h : s.rest ≠ []) :
    s.advance.rest.length < s.rest.length := by
  unfold advance
  split
  · next hNil => exact absurd hNil h
  · next hCons => simp [hCons]

theorem length_skipGaps_le (s : Scanner) :
    s.skipGaps.rest.length ≤ s.rest.length := by
  fun_induction skipGaps s with
  | case1 s t hComment ih =>
      exact Nat.le_trans ih
        (Nat.le_trans (length_eat_le _ t) (length_eat_le _ s))
  | case2 s t hNone => exact length_eat_le _ s

theorem length_string_le
    (source : SourceText)
    (start : Position)
    (quote : Char)
    (s : Scanner) :
    (s.string source start quote).2.rest.length ≤
      s.rest.length := by
  have hBody := length_eat_le (Piece.continuesString quote) s
  unfold string
  dsimp only
  split
  · exact Nat.le_trans (length_advance_le _) hBody
  · exact hBody

theorem length_number_le
    (source : SourceText)
    (start : Position)
    (b : UInt8)
    (s : Scanner) :
    (s.number source start b).2.rest.length ≤
      s.rest.length := by
  unfold number
  dsimp only
  split <;> exact length_eat_le Char.isDigit s

theorem length_read_lt
    (source : SourceText)
    (b : UInt8)
    {s : Scanner}
    (h : s.rest ≠ []) :
    (s.read source b).2.rest.length < s.rest.length := by
  refine Nat.lt_of_le_of_lt ?_ (length_advance_lt h)
  have hWord := length_eat_le Text.isWordChar s.advance
  unfold read
  dsimp only
  split
  · exact Nat.le_refl _
  split
  · exact length_string_le source s.place _ s.advance
  split
  · exact length_number_le source s.place b s.advance
  split
  · exact hWord
  split
  · split
    · exact hWord
    · exact Nat.le_refl _
  split
  · exact Nat.le_refl _
  · exact
      (List.dropWhile_suffix Text.isContinuation).length_le

------------------------------------------------------------
-- The Whole Text
------------------------------------------------------------

/- The next token. Stray bytes are reported and passed by. -/
def scan
    (source : SourceText)
    (s : Scanner) : Token × Scanner :=
  let t := s.skipGaps
  if t.log.isFull then (.endAt t.place, t)
  else
    match _ : t.rest with
    | [] => (.endAt t.place, t)
    | b :: _ =>
        let r := t.read source b
        match r.1 with
        | some token => (token, r.2)
        | none => scan source r.2
termination_by s.rest.length
decreasing_by
  rename_i hRest
  have hSome : t.rest ≠ [] := hRest ▸ List.cons_ne_nil _ _
  exact Nat.lt_of_lt_of_le (length_read_lt source b hSome)
    (length_skipGaps_le s)

/- A token that does not end the text moves the cursor. -/
theorem length_scan_lt
    (source : SourceText)
    (s : Scanner)
    (h : ¬(s.scan source).1.isEnd) :
    (s.scan source).2.rest.length < s.rest.length := by
  fun_induction scan source s with
  | case1 s t hFull => exact absurd rfl h
  | case2 s t hRoom hRest => exact absurd rfl h
  | case3 s t hRoom b rest hRest r token hToken =>
      have hSome : t.rest ≠ [] := hRest ▸ List.cons_ne_nil _ _
      exact Nat.lt_of_lt_of_le (length_read_lt source b hSome)
        (length_skipGaps_le s)
  | case4 s t hRoom b rest hRest r hNone ih =>
      have hSome : t.rest ≠ [] := hRest ▸ List.cons_ne_nil _ _
      exact Nat.lt_trans (ih h) (Nat.lt_of_lt_of_le
        (length_read_lt source b hSome) (length_skipGaps_le s))

/-
  All tokens from the cursor on. Nothing is scanned once the
  log is full.
-/
def lex (source : SourceText) (s : Scanner) : Lexed :=
  if s.log.isFull then ⟨[.endAt s.place], s.log⟩
  else
    let r := s.scan source
    if r.1.isEnd then ⟨[r.1], r.2.log⟩
    else Token.Lexed.cons r.1 (lex source r.2)
termination_by s.rest.length
decreasing_by
  rename_i hEnd
  exact length_scan_lt source s hEnd

end Scanner

/- The tokens of a source text. -/
def Token.ofSource (source : SourceText) : Lexed :=
  (Scanner.start source).lex source

end LightShow
