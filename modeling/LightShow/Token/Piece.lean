import LightShow.Diagnostic.Code
import LightShow.Token.Basic

/-
  The pieces a source text consists of.

  A piece is a run of characters together with what it is:
  a gap (blanks or a comment), a token, possibly with a
  fault of its own, or a stray character that starts no
  token. The pieces of a text cover it without overlap, and
  what a piece is depends on no character before it. The
  scanner reads bytes; pieces say what it reads in terms of
  the characters of the text.

  Key definitions include:
    * `LightShow.Piece`
    * `LightShow.Piece.next`
    * `LightShow.Piece.ofChars`

  Main statements:
    * `LightShow.Piece.chars_append_next`
    * `LightShow.Piece.flatMap_chars_ofChars`
-/

namespace LightShow

------------------------------------------------------------
-- Faults
------------------------------------------------------------

/- What can be wrong with a run of characters. -/
inductive LexFault where
  | strayAt
  | strayChar (text : String)
  | numberTooLarge (digits : String)
  | unterminated
deriving DecidableEq, Repr

namespace LexFault

def code : LexFault → Code
  | .strayAt => .invalidCharacter
  | .strayChar _ => .invalidCharacter
  | .numberTooLarge _ => .invalidNumber
  | .unterminated => .unterminatedString

def message : LexFault → String
  | .strayAt => "'@' must be followed by a function name"
  | .strayChar text => s!"unexpected character '{text}'"
  | .numberTooLarge digits =>
      s!"number '{digits}' is too large"
  | .unterminated => "unterminated string literal"

end LexFault

------------------------------------------------------------
-- Pieces
------------------------------------------------------------

/- What a run of characters is. -/
inductive Lexeme where
  | gap
  | token (kind : Token.Kind) (fault : Option LexFault)
  | stray (fault : LexFault)
deriving DecidableEq, Repr

/- A run of characters and what it is. -/
structure Piece where
  lexeme : Lexeme
  chars : List Char
deriving DecidableEq, Repr

namespace Piece

/- Numbers are below this bound. -/
def numberBound : Nat := Nat.pow 2 64

/- The lexeme of a run of digits. -/
def number (digits : List Char) : Lexeme :=
  let n := Text.digitsValue digits
  if n < numberBound then .token (.number n) none
  else
    .token (.number 0)
      (some (.numberTooLarge (String.ofList digits)))

/- Whether a character continues a string. -/
def continuesString (quote c : Char) : Bool :=
  c != quote && c != '\n'

/-
  The string that opens with `quote` and goes on with `cs`.
  It ends with the same quote, or for want of one at the end
  of the line, which is a fault.
-/
def string
    (quote : Char)
    (cs : List Char) : Piece × List Char :=
  let body := cs.takeWhile (continuesString quote)
  let text := Token.Kind.quoted (String.ofList body)
  match cs.dropWhile (continuesString quote) with
  | [] =>
      (⟨.token text (some .unterminated), quote :: body⟩, [])
  | c :: rest =>
      if c = quote then
        (⟨.token text none, quote :: body ++ [c]⟩, rest)
      else
        (⟨.token text (some .unterminated), quote :: body⟩,
          c :: rest)

/- The word of given characters, in small letters. -/
def wordText (cs : List Char) : String :=
  Text.lower (String.ofList cs)

/- The longest run of `p` after `c`, as one piece. -/
def run
    (p : Char → Bool)
    (lexeme : List Char → Lexeme)
    (c : Char)
    (cs : List Char) : Piece × List Char :=
  let chars := c :: cs.takeWhile p
  (⟨lexeme chars, chars⟩, cs.dropWhile p)

/- The piece of one character. -/
def one
    (lexeme : Lexeme)
    (c : Char)
    (cs : List Char) : Piece × List Char :=
  (⟨lexeme, [c]⟩, cs)

/- The piece at the front of a text, and the rest. -/
def next (c : Char) (cs : List Char) : Piece × List Char :=
  if Text.isGap c then
    run Text.isGap (fun _ => .gap) c cs
  else if c = '/' ∧ cs.head? = some '/' then
    run (· != '\n') (fun _ => .gap) c cs
  else if c = '\n' then
    one (.token .newline none) c cs
  else if c = '"' ∨ c = '\'' then
    string c cs
  else if c.isDigit then
    run Char.isDigit number c cs
  else if Text.isWordStart c then
    run Text.isWordChar
      (fun w => .token (.ofWord (wordText w)) none) c cs
  else if c = '@' then
    if cs.head?.any Text.isWordChar then
      run Text.isWordChar
        (fun w => .token (.function (wordText w)) none) c cs
    else one (.stray .strayAt) c cs
  else
    match Mark.ofChar? c with
    | some m => one (.token (.mark m) none) c cs
    | none =>
        one (.stray (.strayChar (String.singleton c))) c cs

------------------------------------------------------------
-- Pieces Cover The Text
------------------------------------------------------------

theorem chars_append_run
    (p : Char → Bool)
    (lexeme : List Char → Lexeme)
    (c : Char)
    (cs : List Char) :
    (run p lexeme c cs).1.chars ++ (run p lexeme c cs).2 =
      c :: cs := by
  simp [run]

theorem chars_append_string
    (quote : Char)
    (cs : List Char) :
    (string quote cs).1.chars ++ (string quote cs).2 =
      quote :: cs := by
  have h := List.takeWhile_append_dropWhile
    (p := continuesString quote) (l := cs)
  unfold string
  split
  · rename_i hd
    rw [hd] at h
    simpa using h
  · rename_i c rest hd
    rw [hd] at h
    by_cases hc : c = quote
    · simpa [hc] using h
    · simpa [hc] using h

/- A piece and the rest after it make up the text. -/
theorem chars_append_next
    (c : Char)
    (cs : List Char) :
    (next c cs).1.chars ++ (next c cs).2 = c :: cs := by
  have hRun (p : Char → Bool) (lexeme : List Char → Lexeme) :=
    chars_append_run p lexeme c cs
  unfold next
  split
  · exact hRun ..
  split
  · exact hRun ..
  split
  · rfl
  split
  · exact chars_append_string c cs
  split
  · exact hRun ..
  split
  · exact hRun ..
  split
  · split
    · exact hRun ..
    · rfl
  split <;> rfl

theorem chars_string_ne_nil
    (quote : Char)
    (cs : List Char) :
    (string quote cs).1.chars ≠ [] := by
  unfold string
  split
  · exact List.cons_ne_nil _ _
  · split <;> exact List.cons_ne_nil _ _

/- No piece is empty. -/
theorem chars_next_ne_nil
    (c : Char)
    (cs : List Char) :
    (next c cs).1.chars ≠ [] := by
  unfold next
  split
  · exact List.cons_ne_nil _ _
  split
  · exact List.cons_ne_nil _ _
  split
  · exact List.cons_ne_nil _ _
  split
  · exact chars_string_ne_nil c cs
  split
  · exact List.cons_ne_nil _ _
  split
  · exact List.cons_ne_nil _ _
  split
  · split <;> exact List.cons_ne_nil _ _
  split <;> exact List.cons_ne_nil _ _

/- So the rest behind a piece is shorter than the text. -/
theorem length_next_lt
    (c : Char)
    (cs : List Char) :
    (next c cs).2.length < (c :: cs).length := by
  have hLength := congrArg List.length (chars_append_next c cs)
  have hSome :=
    List.length_pos_iff.mpr (chars_next_ne_nil c cs)
  rw [List.length_append] at hLength
  omega

/- All pieces of a text. -/
def ofChars : List Char → List Piece
  | [] => []
  | c :: cs =>
      (next c cs).1 :: ofChars (next c cs).2
termination_by cs => cs.length
decreasing_by exact length_next_lt c cs

/- Cutting loses no character. -/
theorem flatMap_chars_ofChars
    (cs : List Char) :
    (ofChars cs).flatMap Piece.chars = cs := by
  fun_induction ofChars cs with
  | case1 => rfl
  | case2 c cs ih =>
      simp only [List.flatMap_cons, ih]
      exact chars_append_next c cs

end Piece

end LightShow
