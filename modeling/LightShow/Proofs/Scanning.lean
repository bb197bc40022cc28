import Mathlib
import LightShow.Proofs.Bytes
import LightShow.Token.Lexer

/-
  The scanner reads a text piece by piece.

  The scanner sees bytes, but its position in a text is
  always in front of a character: it is in front of the
  characters still to come, at the place where they stand.
  From there it reads the piece they start with. So its
  tokens and diagnostics can be collected from the pieces of
  the text alone.

  Key definitions include:
    * `Token.collect`
    * `Scanner.facing`
    * `Scanner.reading`

  Main statements:
    * `Scanner.read_facing`
    * `Scanner.lex_facing`
    * `Token.ofSource_eq_collect`
-/

namespace LightShow

------------------------------------------------------------
-- Collecting Tokens From Pieces
------------------------------------------------------------

namespace Token

/- The place after the gaps at the front of the pieces. -/
def skipGaps
    (p : Position)
    (pieces : List Piece) : Position :=
  (pieces.takeWhile fun q => q.lexeme == .gap).foldl
    (fun p q => p.advanceAll q.chars) p

/- Read the pieces from place `p` on. -/
def collect
    (source : SourceText) :
    List Piece → Position → Log → Lexed
  | [], p, log => ⟨[.endAt p], log⟩
  | q :: qs, p, log =>
      let stop := p.advanceAll q.chars
      let span := Span.between p stop
      match q.lexeme with
      | .gap => collect source qs stop log
      | .stray fault =>
          let log := log.pushError (faultAt source fault span)
          if log.isFull then ⟨[.endAt (skipGaps stop qs)], log⟩
          else collect source qs stop log
      | .token kind none =>
          Lexed.cons ⟨kind, span⟩ (collect source qs stop log)
      | .token kind (some fault) =>
          let log := log.pushError (faultAt source fault span)
          if log.isFull then
            ⟨[⟨kind, span⟩, .endAt stop], log⟩
          else
            Lexed.cons ⟨kind, span⟩
              (collect source qs stop log)

end Token

------------------------------------------------------------
-- Classes The Scanner Tests
------------------------------------------------------------

namespace Text

/- A class of ASCII characters has none beyond them. -/
theorem settled_of_ascii
    {p : Char → Bool}
    (h : ∀ c, p c = true → c.toNat < 128) :
    Settled p false := by
  intro c hWide
  rw [← Bool.not_eq_true]
  intro hClass
  exact absurd (h c hClass) (Nat.not_lt.mpr hWide)

theorem isDigit_ascii
    {c : Char}
    (h : c.isDigit = true) :
    c.toNat < 128 := by
  simp only [Char.isDigit, Bool.and_eq_true,
    decide_eq_true_eq, ge_iff_le, UInt32.le_iff_toNat_le] at h
  exact Nat.lt_of_le_of_lt h.2 (by decide)

theorem isAlpha_ascii
    {c : Char}
    (h : c.isAlpha = true) :
    c.toNat < 128 := by
  simp only [Char.isAlpha, Char.isUpper, Char.isLower,
    Bool.or_eq_true, Bool.and_eq_true, decide_eq_true_eq,
    ge_iff_le, UInt32.le_iff_toNat_le] at h
  rcases h with h | h
  · exact Nat.lt_of_le_of_lt h.2 (by decide)
  · exact Nat.lt_of_le_of_lt h.2 (by decide)

theorem settled_isDigit : Settled Char.isDigit false :=
  settled_of_ascii fun _ => isDigit_ascii

theorem settled_isGap : Settled isGap false := by
  refine settled_of_ascii fun c h => ?_
  simp only [isGap, Bool.or_eq_true, beq_iff_eq] at h
  rcases h with (rfl | rfl) | rfl <;> decide

theorem settled_isWordStart : Settled isWordStart false := by
  refine settled_of_ascii fun c h => ?_
  simp only [isWordStart, Bool.or_eq_true, beq_iff_eq] at h
  rcases h with h | rfl
  · exact isAlpha_ascii h
  · decide

theorem settled_isWordChar : Settled isWordChar false := by
  refine settled_of_ascii fun c h => ?_
  simp only [isWordChar, Char.isAlphanum, Bool.or_eq_true,
    beq_iff_eq] at h
  rcases h with (h | h) | rfl
  · exact isAlpha_ascii h
  · exact isDigit_ascii h
  · decide

/- A comment goes on beyond ASCII. -/
theorem settled_ne_newline : Settled (· != '\n') true := by
  intro c hWide
  rw [bne_iff_ne]
  exact ne_of_wide hWide (by decide)

/- So does a string between ASCII quotes. -/
theorem settled_continuesString
    {quote : Char}
    (h : quote.toNat < 128) :
    Settled (Piece.continuesString quote) true := by
  intro c hWide
  rw [Piece.continuesString, Bool.and_eq_true, bne_iff_ne,
    bne_iff_ne]
  exact ⟨ne_of_wide hWide h, ne_of_wide hWide (by decide)⟩

/- No quote is beyond ASCII. -/
theorem not_quote_of_wide
    {c : Char}
    (h : 128 ≤ c.toNat) :
    ¬(c = '"' ∨ c = '\'') := by
  rintro (hQuote | hQuote)
  · exact ne_of_wide h (by decide) hQuote
  · exact ne_of_wide h (by decide) hQuote

/- No mark is beyond ASCII. -/
theorem ofChar?_of_wide
    {c : Char}
    (h : 128 ≤ c.toNat) :
    Mark.ofChar? c = none := by
  refine List.find?_eq_none.mpr fun m _ => ?_
  have hAscii : m.char.toNat < 128 := by
    cases m <;> decide
  rw [beq_iff_eq]
  exact (ne_of_wide h hAscii).symm

end Text

------------------------------------------------------------
-- The Scanner In Front Of Characters
------------------------------------------------------------

namespace Scanner

/- The scanner in front of the characters still to come. -/
def facing
    (cs : List Char)
    (p : Position)
    (log : Log) : Scanner :=
  ⟨Text.encode cs, p, log⟩

variable {cs : List Char} {p : Position} {log : Log}

theorem log_facing : (facing cs p log).log = log := rfl

/- Reading a class of bytes reads a class of characters. -/
theorem eat_facing
    {q : Char → Bool}
    {beyond : Bool}
    (h : Text.Settled q beyond) :
    (facing cs p log).eat q =
      (Text.encode (cs.takeWhile q),
        facing (cs.dropWhile q)
          (p.advanceAll (cs.takeWhile q)) log) := by
  simp only [eat, eatBytes, facing, Text.takeWhile_encode h,
    Text.dropWhile_encode h, Position.advanceBytes_encode]

theorem peek_facing
    {d : Char}
    (h : d.toNat < 128) :
    (facing cs p log).peek 0 = some d ↔ cs.head? = some d := by
  rw [peek, ← List.head?_eq_getElem?]
  exact Text.head?_encode h cs

/- The byte of an ASCII character, in front of any others. -/
theorem exists_byte
    {c : Char}
    (h : c.toNat < 128) :
    ∃ b, Char.ofUInt8 b = c ∧
      ∀ cs, Text.encode (c :: cs) = b :: Text.encode cs := by
  rcases Text.encodeChar_of_ascii h with ⟨b, hBytes, hSelf, -⟩
  refine ⟨b, hSelf, fun cs => ?_⟩
  rw [Text.encode_cons, hBytes]
  rfl

/- An ASCII character is passed with one byte. -/
theorem advance_facing
    {c : Char}
    (h : c.toNat < 128) :
    (facing (c :: cs) p log).advance =
      facing cs (p.advance c) log := by
  rcases Text.encodeChar_of_ascii h with ⟨b, hBytes, -, -⟩
  have hPlace : p.advanceByte b = p.advance c := by
    have hChar := Position.advanceBytes_encodeChar p c
    rw [hBytes] at hChar
    exact hChar
  rw [facing, Text.encode_cons, hBytes, advance]
  exact congrArg (Scanner.mk _ · log) hPlace

------------------------------------------------------------
-- Gaps
------------------------------------------------------------

/- Nothing is left to read of a class that was read. -/
theorem eat_eat
    (q : Char → Bool)
    (s : Scanner) :
    (s.eat q).2.eat q = ([], (s.eat q).2) := by
  have hRest (bs : List UInt8) (q : UInt8 → Bool) :
      (bs.dropWhile q).takeWhile q = [] ∧
        (bs.dropWhile q).dropWhile q = bs.dropWhile q := by
    induction bs with
    | nil => exact ⟨rfl, rfl⟩
    | cons b bs ih =>
        cases hClass : q b <;> simp [hClass, ih]
  rcases hRest s.rest (fun b => q (.ofUInt8 b))
    with ⟨hTake, hDrop⟩
  simp only [eat, eatBytes, hTake, hDrop]
  rfl

/- Blanks at the front of a gap make no difference. -/
theorem skipGaps_eat (s : Scanner) :
    (s.eat Text.isGap).2.skipGaps = s.skipGaps := by
  rw [skipGaps.eq_def (s.eat Text.isGap).2,
    skipGaps.eq_def s, eat_eat]

/- Skipping gaps reports nothing. -/
theorem log_skipGaps (s : Scanner) :
    s.skipGaps.log = s.log := by
  fun_induction skipGaps s with
  | case1 s t hComment ih => exact ih
  | case2 s t hNone => rfl

/- A gap of blanks is skipped. -/
theorem skipGaps_blanks
    {c : Char}
    (h : Text.isGap c = true) :
    (facing (c :: cs) p log).skipGaps =
      (facing (cs.dropWhile Text.isGap)
        (p.advanceAll (c :: cs.takeWhile Text.isGap))
        log).skipGaps := by
  rw [← skipGaps_eat, eat_facing Text.settled_isGap,
    List.takeWhile_cons_of_pos h, List.dropWhile_cons_of_pos h]

/- Where no blank is, none is read. -/
theorem eat_isGap_of_head?
    (h : ∀ c ∈ cs.head?, Text.isGap c = false) :
    ((facing cs p log).eat Text.isGap).2 = facing cs p log := by
  rw [eat_facing Text.settled_isGap]
  cases cs with
  | nil => rfl
  | cons c cs =>
      have hNone : ¬Text.isGap c = true := by
        rw [h c rfl]
        exact Bool.false_ne_true
      rw [List.takeWhile_cons_of_neg hNone,
        List.dropWhile_cons_of_neg hNone]
      rfl

/- Two slashes start a comment, and nothing else does. -/
theorem peeks_comment_iff :
    ((facing cs p log).peek 0 = some '/' ∧
        (facing cs p log).peek 1 = some '/') ↔
      ∃ rest, cs = '/' :: '/' :: rest := by
  constructor
  · rintro ⟨hFirst, hSecond⟩
    rw [peek_facing (by decide)] at hFirst
    rcases List.head?_eq_some_iff.mp hFirst with ⟨cs, rfl⟩
    have hNext : (facing cs p log).peek 0 = some '/' := hSecond
    rw [peek_facing (by decide)] at hNext
    rcases List.head?_eq_some_iff.mp hNext with ⟨rest, rfl⟩
    exact ⟨rest, rfl⟩
  · rintro ⟨rest, rfl⟩
    exact ⟨rfl, rfl⟩

/- A comment is skipped. -/
theorem skipGaps_comment
    (h : cs.head? = some '/') :
    (facing ('/' :: cs) p log).skipGaps =
      (facing (cs.dropWhile (· != '\n'))
        (p.advanceAll ('/' :: cs.takeWhile (· != '\n')))
        log).skipGaps := by
  rcases List.head?_eq_some_iff.mp h with ⟨rest, rfl⟩
  have hBlank : ∀ c ∈ ('/' :: '/' :: rest).head?,
      Text.isGap c = false := by
    rintro _ ⟨⟩
    rfl
  rw [skipGaps, eat_isGap_of_head? hBlank,
    if_pos (peeks_comment_iff.mpr ⟨rest, rfl⟩),
    eat_facing Text.settled_ne_newline]
  rfl

/- Nothing else is skipped. -/
theorem skipGaps_facing
    (hBlank : ∀ c ∈ cs.head?, Text.isGap c = false)
    (hComment : ¬∃ rest, cs = '/' :: '/' :: rest) :
    (facing cs p log).skipGaps = facing cs p log := by
  rw [skipGaps, eat_isGap_of_head? hBlank,
    if_neg (mt peeks_comment_iff.mp hComment)]

theorem skipGaps_nil :
    (facing [] p log).skipGaps = facing [] p log :=
  skipGaps_facing (by rintro _ ⟨⟩) (by rintro ⟨_, ⟨⟩⟩)

/- A piece that starts with neither is no gap. -/
theorem lexeme_ne_gap
    {c : Char}
    (hBlank : ¬Text.isGap c = true)
    (hComment : ¬(c = '/' ∧ cs.head? = some '/')) :
    (Piece.next c cs).1.lexeme ≠ .gap := by
  have hNext := Piece.next.eq_def c cs
  rw [if_neg hBlank, if_neg hComment] at hNext
  rw [hNext]
  split
  · exact Lexeme.noConfusion
  split
  · unfold Piece.string
    dsimp only
    split
    · exact Lexeme.noConfusion
    · split <;> exact Lexeme.noConfusion
  split
  · simp only [Piece.run, Piece.number]
    split <;> exact Lexeme.noConfusion
  split
  · exact Lexeme.noConfusion
  split
  · split <;> exact Lexeme.noConfusion
  split <;> exact Lexeme.noConfusion

/- The scanner skips the gap it is in front of. -/
theorem skipGaps_gap
    {c : Char}
    (h : (Piece.next c cs).1.lexeme = .gap) :
    (facing (c :: cs) p log).skipGaps =
      (facing (Piece.next c cs).2
        (p.advanceAll (Piece.next c cs).1.chars)
        log).skipGaps := by
  by_cases hBlank : Text.isGap c = true
  · rw [skipGaps_blanks hBlank, Piece.next, if_pos hBlank]
    rfl
  by_cases hComment : c = '/' ∧ cs.head? = some '/'
  · rw [Piece.next, if_neg hBlank, if_pos hComment]
    rcases hComment with ⟨rfl, hSecond⟩
    exact skipGaps_comment hSecond
  · exact absurd h (lexeme_ne_gap hBlank hComment)

/- In front of anything else it stays. -/
theorem not_gap_of_lexeme
    {c : Char}
    (h : (Piece.next c cs).1.lexeme ≠ .gap) :
    ¬Text.isGap c = true ∧
      ¬(c = '/' ∧ cs.head? = some '/') := by
  by_cases hBlank : Text.isGap c = true
  · rw [Piece.next, if_pos hBlank] at h
    exact absurd rfl h
  refine ⟨hBlank, fun hComment => h ?_⟩
  rw [Piece.next, if_neg hBlank, if_pos hComment]
  rfl

theorem skipGaps_of_ne_gap
    {c : Char}
    (h : (Piece.next c cs).1.lexeme ≠ .gap) :
    (facing (c :: cs) p log).skipGaps =
      facing (c :: cs) p log := by
  rcases not_gap_of_lexeme h with ⟨hBlank, hComment⟩
  refine skipGaps_facing ?_ ?_
  · rintro _ ⟨⟩
    exact Bool.not_eq_true _ ▸ hBlank
  · rintro ⟨rest, hSlashes⟩
    cases hSlashes
    exact hComment ⟨rfl, rfl⟩

------------------------------------------------------------
-- Pieces
------------------------------------------------------------

variable (source : SourceText)

/- What it comes to when the scanner reads a piece. -/
def reading
    (p : Position)
    (log : Log)
    (r : Piece × List Char) : Option Token × Scanner :=
  let stop := p.advanceAll r.1.chars
  let span := Span.between p stop
  match r.1.lexeme with
  | .gap => (none, facing r.2 stop log)
  | .stray fault =>
      let log := log.pushError
        (Token.faultAt source fault span)
      (none, facing r.2 stop log)
  | .token kind none =>
      (some ⟨kind, span⟩, facing r.2 stop log)
  | .token kind (some fault) =>
      let log := log.pushError
        (Token.faultAt source fault span)
      (some ⟨kind, span⟩, facing r.2 stop log)

/- A word behind its first character. -/
theorem word_facing
    (kind : String → Token.Kind)
    {c : Char}
    {b : UInt8}
    (hByte : ∀ cs,
      Text.encode (c :: cs) = b :: Text.encode cs) :
    found ((facing cs (p.advance c) log).word kind p b) =
      reading source p log
        (Piece.run Text.isWordChar
          (fun w => .token (kind (Piece.wordText w)) none)
          c cs) := by
  rw [word, eat_facing Text.settled_isWordChar]
  dsimp only
  rw [← hByte, Text.ofBytes_encode]
  rfl

/- A number behind its first digit. -/
theorem number_facing
    {c : Char}
    {b : UInt8}
    (hByte : ∀ cs,
      Text.encode (c :: cs) = b :: Text.encode cs) :
    found ((facing cs (p.advance c) log).number source p b) =
      reading source p log
        (Piece.run Char.isDigit Piece.number c cs) := by
  rw [number, eat_facing Text.settled_isDigit]
  dsimp only
  rw [← hByte, Text.ofBytes_encode, String.toList_ofList,
    reading, Piece.run, Piece.number]
  dsimp only
  split <;> rfl

/- A string behind its opening quote. -/
theorem string_facing
    {quote : Char}
    (h : quote.toNat < 128) :
    found ((facing cs (p.advance quote) log).string source p
        quote) =
      reading source p log (Piece.string quote cs) := by
  rw [string, eat_facing (Text.settled_continuesString h),
    Piece.string]
  dsimp only
  rw [Text.ofBytes_encode]
  cases cs.dropWhile (Piece.continuesString quote) with
  | nil =>
      rw [if_neg (mt (peek_facing h).mp (by simp))]
      rfl
  | cons c rest =>
      dsimp only
      by_cases hClosed : c = quote
      · cases hClosed
        have hStop (body : List Char) :
            p.advanceAll (quote :: body ++ [quote]) =
              ((p.advance quote).advanceAll body).advance
                quote := List.foldl_append
        rw [if_pos ((peek_facing h).mpr rfl), if_pos rfl,
          advance_facing h, reading]
        dsimp only
        rw [hStop]
        rfl
      · have hHead : (c :: rest).head? ≠ some quote := by
          simpa using hClosed
        rw [if_neg (mt (peek_facing h).mp hHead),
          if_neg hClosed]
        rfl

/- No character in front of the scanner is half read. -/
theorem eat_isContinuation_facing :
    (facing cs p log).eatBytes Text.isContinuation =
      ([], facing cs p log) := by
  have hBytes := List.takeWhile_append_dropWhile
    (p := Text.isContinuation) (l := Text.encode cs)
  rw [Text.takeWhile_isContinuation, List.nil_append] at hBytes
  simp only [eatBytes, facing, Text.takeWhile_isContinuation,
    hBytes]
  rfl

/- The class of the character ahead. -/
theorem peek_any_facing
    {q : Char → Bool}
    {beyond : Bool}
    (h : Text.Settled q beyond) :
    ((facing cs p log).peek 0).any q = cs.head?.any q := by
  cases cs with
  | nil => rfl
  | cons c cs =>
      rcases h.exists_head c with ⟨b, more, hBytes, hHead⟩
      rw [facing, Text.encode_cons, hBytes]
      exact hHead

/- Reading in front of an ASCII character. -/
theorem read_facing_ascii
    {c : Char}
    {b : UInt8}
    (hAscii : c.toNat < 128)
    (hSelf : Char.ofUInt8 b = c)
    (hByte : ∀ cs,
      Text.encode (c :: cs) = b :: Text.encode cs)
    (hBlank : ¬Text.isGap c = true)
    (hComment : ¬(c = '/' ∧ cs.head? = some '/')) :
    (facing (c :: cs) p log).read source b =
      reading source p log (Piece.next c cs) := by
  have hNext := Piece.next.eq_def c cs
  rw [if_neg hBlank, if_neg hComment] at hNext
  rw [read, hNext, advance_facing hAscii, hSelf]
  dsimp only
  by_cases hNewline : c = '\n'
  · rw [if_pos hNewline, if_pos hNewline]
    rfl
  rw [if_neg hNewline, if_neg hNewline]
  by_cases hQuote : c = '"' ∨ c = '\''
  · rw [if_pos hQuote, if_pos hQuote]
    exact string_facing source hAscii
  rw [if_neg hQuote, if_neg hQuote]
  by_cases hDigit : c.isDigit = true
  · rw [if_pos hDigit, if_pos hDigit]
    exact number_facing source hByte
  rw [if_neg hDigit, if_neg hDigit]
  by_cases hWord : Text.isWordStart c = true
  · rw [if_pos hWord, if_pos hWord]
    exact word_facing source _ hByte
  rw [if_neg hWord, if_neg hWord]
  by_cases hName : c = '@'
  · rw [if_pos hName, if_pos hName,
      peek_any_facing Text.settled_isWordChar]
    split
    · exact word_facing source _ hByte
    · rfl
  rw [if_neg hName, if_neg hName, eat_isContinuation_facing]
  cases Mark.ofChar? c with
  | some m => rfl
  | none =>
      have hText := hByte [] ▸ Text.ofBytes_encode [c]
      dsimp only
      rw [← Text.encode_nil, hText]
      rfl

/- A byte beyond ASCII is reported with its character. -/
theorem read_of_wide
    {b : UInt8}
    {s : Scanner}
    (h : 128 ≤ (Char.ofUInt8 b).toNat) :
    s.read source b =
      let more := s.advance.eatBytes Text.isContinuation
      let text := Text.ofBytes (b :: more.1)
      (none,
        more.2.emit source (.strayChar text)
          (more.2.spanFrom s.place)) := by
  rw [read]
  dsimp only
  rw [if_neg (Text.ne_of_wide h (by decide)),
    if_neg (Text.not_quote_of_wide h),
    if_neg (Text.settled_isDigit.not_of_wide h),
    if_neg (Text.settled_isWordStart.not_of_wide h),
    if_neg (Text.ne_of_wide h (by decide)),
    Text.ofChar?_of_wide h]

/- A character beyond ASCII is a piece of its own. -/
theorem next_of_wide
    {c : Char}
    (h : 128 ≤ c.toNat) :
    Piece.next c cs =
      Piece.one (.stray (.strayChar (String.singleton c)))
        c cs := by
  have hSlash : c ≠ '/' := Text.ne_of_wide h (by decide)
  rw [Piece.next,
    if_neg (Text.settled_isGap.not_of_wide h),
    if_neg (fun hComment => hSlash hComment.1),
    if_neg (Text.ne_of_wide h (by decide)),
    if_neg (Text.not_quote_of_wide h),
    if_neg (Text.settled_isDigit.not_of_wide h),
    if_neg (Text.settled_isWordStart.not_of_wide h),
    if_neg (Text.ne_of_wide h (by decide)),
    Text.ofChar?_of_wide h]

/- Reading in front of a character beyond ASCII. -/
theorem read_facing_wide
    {c : Char}
    {b : UInt8}
    {more : List UInt8}
    (hWide : 128 ≤ c.toNat)
    (hBytes : String.utf8EncodeChar c = b :: more)
    (hMore : ∀ x ∈ more, Text.isContinuation x = true) :
    (facing (c :: cs) p log).read source b =
      reading source p log (Piece.next c cs) := by
  have hByte := Text.wide_of_mem_encodeChar hWide
    (hBytes ▸ List.mem_cons_self ..)
  have hTake : (more ++ Text.encode cs).takeWhile
      Text.isContinuation = more := by
    rw [List.takeWhile_append_of_pos hMore,
      Text.takeWhile_isContinuation, List.append_nil]
  have hDrop : (more ++ Text.encode cs).dropWhile
      Text.isContinuation = Text.encode cs := by
    have hAll := List.takeWhile_append_dropWhile
      (p := Text.isContinuation) (l := more ++ Text.encode cs)
    rw [hTake] at hAll
    exact List.append_cancel_left hAll
  have hPlace : (p.advanceByte b).advanceBytes more =
      p.advance c := by
    rw [← Position.advanceBytes_encodeChar, hBytes]
    rfl
  have hText :
      Text.ofBytes (b :: more) = String.singleton c := by
    have hOne := Text.ofBytes_encode [c]
    rw [Text.encode_cons, hBytes, Text.encode_nil,
      List.append_nil] at hOne
    exact hOne
  have hAdvance : (facing (c :: cs) p log).advance =
      ⟨more ++ Text.encode cs, p.advanceByte b, log⟩ := by
    rw [facing, Text.encode_cons, hBytes]
    rfl
  rw [read_of_wide source hByte, next_of_wide hWide, hAdvance]
  simp only [eatBytes, hTake, hDrop, hPlace, hText]
  rfl

/- In front of a piece that is no gap, that piece is read. -/
theorem read_facing
    (p : Position)
    (log : Log)
    {c : Char}
    (h : (Piece.next c cs).1.lexeme ≠ .gap) :
    ∃ b rest, Text.encode (c :: cs) = b :: rest ∧
      (facing (c :: cs) p log).read source b =
        reading source p log (Piece.next c cs) := by
  rcases not_gap_of_lexeme h with ⟨hBlank, hComment⟩
  rcases Nat.lt_or_ge c.toNat 128 with hAscii | hWide
  · rcases exists_byte hAscii with ⟨b, hSelf, hByte⟩
    exact ⟨b, Text.encode cs, hByte cs,
      read_facing_ascii source hAscii hSelf hByte hBlank
        hComment⟩
  · rcases Text.encodeChar_of_wide hWide
      with ⟨b, more, hBytes, -, hMore⟩
    refine ⟨b, more ++ Text.encode cs, ?_,
      read_facing_wide source hWide hBytes hMore⟩
    rw [Text.encode_cons, hBytes]
    rfl

------------------------------------------------------------
-- The Whole Text
------------------------------------------------------------

variable {source : SourceText} {s t : Scanner}

/- With a full log or nothing left, the text is over. -/
theorem scan_end
    (h : s.skipGaps.log.isFull = true ∨ s.skipGaps.rest = []) :
    s.scan source = (.endAt s.skipGaps.place, s.skipGaps) := by
  rw [scan]
  dsimp only
  split
  · rfl
  · rename_i hRoom
    split
    · rfl
    · rename_i b rest hRest
      rcases h with hFull | hNone
      · exact absurd hFull hRoom
      · rw [hNone] at hRest
        cases hRest

/- A token is returned, and a stray byte is passed by. -/
theorem scan_read
    (hRoom : s.skipGaps.log.isFull = false)
    {b : UInt8}
    {rest : List UInt8}
    (hRest : s.skipGaps.rest = b :: rest) :
    s.scan source =
      match (s.skipGaps.read source b).1 with
      | some token => (token, (s.skipGaps.read source b).2)
      | none => (s.skipGaps.read source b).2.scan source := by
  rw [scan]
  dsimp only
  rw [if_neg (by rw [hRoom]; exact Bool.false_ne_true)]
  split
  · rename_i hNone
    rw [hRest] at hNone
    cases hNone
  · rename_i x tail hCons
    obtain ⟨rfl, -⟩ := List.cons.inj (hRest.symm.trans hCons)
    rfl

/- Gaps in front make no difference to a scan. -/
theorem scan_of_skipGaps
    (h : s.skipGaps = t.skipGaps) :
    s.scan source = t.scan source := by
  by_cases hFull : t.skipGaps.log.isFull = true
  · rw [scan_end (.inl hFull), scan_end (.inl (h ▸ hFull)), h]
  rw [Bool.not_eq_true] at hFull
  cases hRest : t.skipGaps.rest with
  | nil =>
      rw [scan_end (.inr hRest), scan_end (.inr (h ▸ hRest)), h]
  | cons b rest =>
      rw [scan_read hFull hRest,
        scan_read (h ▸ hFull) (h ▸ hRest), h]

/- A token that is read ends no text. -/
theorem isEnd_of_read
    {b : UInt8}
    {token : Token}
    (h : (s.read source b).1 = some token) :
    token.isEnd = false := by
  have hString (q : Char) (p : Position) (s : Scanner) :
      (s.string source p q).1.isEnd = false := by
    unfold string
    dsimp only
    split <;> rfl
  have hNumber (p : Position) (s : Scanner) :
      (s.number source p b).1.isEnd = false := by
    unfold number
    dsimp only
    split <;> rfl
  have hWord (name : String) (span : Span) :
      (Token.mk (.ofWord name) span).isEnd = false := by
    unfold Token.Kind.ofWord Token.isEnd
    split <;> rfl
  unfold read at h
  dsimp only at h
  split at h
  · rw [← Option.some.inj h]
    rfl
  split at h
  · rw [← Option.some.inj h]
    exact hString ..
  split at h
  · rw [← Option.some.inj h]
    exact hNumber ..
  split at h
  · rw [← Option.some.inj h]
    exact hWord ..
  split at h
  · split at h
    · rw [← Option.some.inj h]
      rfl
    · cases h
  split at h
  · rw [← Option.some.inj h]
    rfl
  · cases h

theorem lex_of_isFull
    (h : s.log.isFull = true) :
    s.lex source = ⟨[.endAt s.place], s.log⟩ := by
  rw [lex, if_pos h]

/- Texts that are scanned alike are lexed alike. -/
theorem lex_of_scan
    (hRoom : s.log.isFull = false)
    (hNext : t.log.isFull = false)
    (h : s.scan source = t.scan source) :
    s.lex source = t.lex source := by
  rw [lex.eq_def, lex.eq_def source t, hRoom, hNext, h,
    if_neg Bool.false_ne_true, if_neg Bool.false_ne_true]

/- The token at the front of a text, and then the others. -/
theorem lex_token
    (hRoom : s.log.isFull = false)
    {token : Token}
    (h : s.scan source = (token, t))
    (hEnd : token.isEnd = false) :
    s.lex source = Token.Lexed.cons token (t.lex source) := by
  rw [lex, hRoom, h]
  simp [hEnd]

/- The end of the text ends the tokens. -/
theorem lex_end
    (hRoom : s.log.isFull = false)
    {p : Position}
    (h : s.scan source = (.endAt p, t)) :
    s.lex source = ⟨[.endAt p], t.log⟩ := by
  rw [lex, hRoom, h]
  rfl

/- Behind a stray byte, a full log ends the text. -/
theorem lex_stray
    (hRoom : s.log.isFull = false)
    (h : s.scan source = t.scan source) :
    s.lex source =
      if t.log.isFull then ⟨[.endAt t.skipGaps.place], t.log⟩
      else t.lex source := by
  split
  · rename_i hFull
    rw [← log_skipGaps] at hFull
    rw [lex_end hRoom (h.trans (scan_end (.inl hFull))),
      log_skipGaps]
  · rename_i hMore
    exact lex_of_scan hRoom (Bool.eq_false_iff.mpr hMore) h

/- The gaps in front are those of the pieces. -/
theorem place_skipGaps_facing :
    (facing cs p log).skipGaps.place =
      Token.skipGaps p (Piece.ofChars cs) := by
  fun_induction Piece.ofChars cs generalizing p with
  | case1 => rw [skipGaps_nil]; rfl
  | case2 c cs ih =>
      by_cases hGap : (Piece.next c cs).1.lexeme = .gap
      · rw [skipGaps_gap hGap, ih, Token.skipGaps,
          Token.skipGaps, List.takeWhile_cons_of_pos]
        · rfl
        · rw [hGap]
          rfl
      · rw [skipGaps_of_ne_gap hGap, Token.skipGaps,
          List.takeWhile_cons_of_neg]
        · rfl
        · rwa [beq_iff_eq]

/- The scan in front of a piece that is no gap. -/
theorem scan_facing
    (source : SourceText)
    (p : Position)
    {c : Char}
    (hRoom : log.isFull = false)
    (hGap : (Piece.next c cs).1.lexeme ≠ .gap) :
    let r := reading source p log (Piece.next c cs)
    (facing (c :: cs) p log).scan source =
        (match r.1 with
        | some token => (token, r.2)
        | none => r.2.scan source) ∧
      ∀ token, r.1 = some token → token.isEnd = false := by
  have hSkip : (facing (c :: cs) p log).skipGaps =
      facing (c :: cs) p log := skipGaps_of_ne_gap hGap
  rcases read_facing source p log hGap
    with ⟨b, rest, hRest, hRead⟩
  have hRoomThere :
      (facing (c :: cs) p log).skipGaps.log.isFull = false := by
    rw [hSkip]
    exact hRoom
  have hRestThere :
      (facing (c :: cs) p log).skipGaps.rest = b :: rest := by
    rw [hSkip]
    exact hRest
  dsimp only
  rw [scan_read hRoomThere hRestThere, hSkip, ← hRead]
  exact ⟨rfl, fun _ => isEnd_of_read⟩

/-
  From any place on, the scanner finds what can be collected
  from the pieces.
-/
theorem lex_facing
    (hRoom : log.isFull = false) :
    (facing cs p log).lex source =
      Token.collect source (Piece.ofChars cs) p log := by
  fun_induction Piece.ofChars cs generalizing p log with
  | case1 =>
      refine lex_end hRoom (t := facing [] p log) ?_
      rw [scan_end, skipGaps_nil]
      · rfl
      · rw [skipGaps_nil]
        exact .inr rfl
  | case2 c cs ih =>
      by_cases hGap : (Piece.next c cs).1.lexeme = .gap
      · rw [lex_of_scan hRoom hRoom
          (scan_of_skipGaps (skipGaps_gap hGap)), ih hRoom,
          Token.collect, hGap]
      rcases scan_facing source p hRoom hGap
        with ⟨hScan, hEnd⟩
      rw [Token.collect]
      cases hLexeme : (Piece.next c cs).1.lexeme with
      | gap => exact absurd hLexeme hGap
      | stray fault =>
          simp only [reading, hLexeme] at hScan
          dsimp only
          rw [lex_stray hRoom hScan, place_skipGaps_facing,
            log_facing]
          split
          · rfl
          · rename_i hMore
            exact ih (Bool.eq_false_iff.mpr hMore)
      | token kind fault =>
          cases fault with
          | none =>
              simp only [reading, hLexeme] at hScan hEnd
              rw [lex_token hRoom hScan (hEnd _ rfl), ih hRoom]
          | some fault =>
              simp only [reading, hLexeme] at hScan hEnd
              rw [lex_token hRoom hScan (hEnd _ rfl)]
              dsimp only
              split
              · rename_i hFull
                rw [lex_of_isFull hFull]
                rfl
              · rename_i hMore
                exact congrArg (Token.Lexed.cons _)
                  (ih (Bool.eq_false_iff.mpr hMore))

end Scanner

/- The tokens of a text are collected from its pieces. -/
theorem Token.ofSource_eq_collect (source : SourceText) :
    ofSource source =
      collect source (Piece.ofChars source.text.toList)
        .start .empty := by
  have hStart : Scanner.start source =
      .facing source.text.toList .start .empty := by
    rw [Scanner.start, Text.bytes_eq_encode]
    rfl
  rw [ofSource, hStart, Scanner.lex_facing rfl]

end LightShow
