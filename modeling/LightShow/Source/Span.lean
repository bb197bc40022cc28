import LightShow.Text.Bytes

/-
  Places in a source text.

  Lines and columns count from one, and a column is one code
  point. The end of a span is the place of its last
  character.

  Key definitions include:
    * `LightShow.Position`
    * `LightShow.Position.advance`
    * `LightShow.Position.advanceByte`
    * `LightShow.Span`
    * `LightShow.Span.through`
-/

namespace LightShow

------------------------------------------------------------
-- Positions
------------------------------------------------------------

/- The place of one character. -/
structure Position where
  line : Nat
  column : Nat
deriving DecidableEq, Repr

namespace Position

/- The place of the first character of a text. -/
def start : Position := ⟨1, 1⟩

/- The place after one more character. -/
def advance (p : Position) (c : Char) : Position :=
  if c = '\n' then ⟨p.line + 1, 1⟩
  else ⟨p.line, p.column + 1⟩

/- The place after a run of characters. -/
def advanceAll (p : Position) (cs : List Char) : Position :=
  cs.foldl advance p

/-
  The place after one more byte of a text in UTF-8. Bytes
  after the first of a character share its column.
-/
def advanceByte (p : Position) (b : UInt8) : Position :=
  if Char.ofUInt8 b = '\n' then ⟨p.line + 1, 1⟩
  else if Text.isContinuation b then p
  else ⟨p.line, p.column + 1⟩

/- The place after a run of bytes. -/
def advanceBytes
    (p : Position)
    (bs : List UInt8) : Position :=
  bs.foldl advanceByte p

end Position

------------------------------------------------------------
-- Spans
------------------------------------------------------------

/- A stretch of source text, both ends included. -/
structure Span where
  startLine : Nat
  startColumn : Nat
  endLine : Nat
  endColumn : Nat
deriving DecidableEq, Repr

namespace Span

/- The span of one place. -/
def point (line column : Nat) : Span :=
  ⟨line, column, line, column⟩

/- The first place of every text. -/
def origin : Span := point 1 1

/- The span of the character at one position. -/
def ofPosition (p : Position) : Span :=
  point p.line p.column

/-
  The span of the characters from `start` up to but not
  including `stop`. A span that ends with a line break ends
  in the first column of the next line.
-/
def between (start stop : Position) : Span :=
  ⟨start.line, start.column, stop.line,
    max 1 (stop.column - 1)⟩

/- From the start of one span to the end of another. -/
def through (a b : Span) : Span :=
  ⟨a.startLine, a.startColumn, b.endLine, b.endColumn⟩

/- Line and column of the start. -/
def text (s : Span) : String :=
  s!"{s.startLine}:{s.startColumn}"

end Span

end LightShow
