import LightShow.Text.Bytes

/-
  A named source text and its lines.

  Lines are the stretches between line feeds, so a text with
  `n` line feeds has `n + 1` lines. Carriage returns at the
  end of a line do not belong to it. A line is looked up in
  a table of the offsets at which the lines start.

  Key definitions include:
    * `LightShow.SourceText`
    * `LightShow.SourceText.lineStarts`
    * `LightShow.SourceText.line?`
    * `LightShow.SourceText.lineCount`
-/

namespace LightShow

------------------------------------------------------------
-- Source Texts
------------------------------------------------------------

/- A source text with the file name used in diagnostics. -/
structure SourceText where
  name : String
  text : String
deriving DecidableEq, Repr

/- Drop the carriage returns at the end of a line. -/
def dropReturns (cs : List Char) : List Char :=
  (cs.reverse.dropWhile (· == '\r')).reverse

namespace SourceText

/- The offsets behind the line feeds, counted from `offset`. -/
def startsAfter (offset : Nat) : List UInt8 → List Nat
  | [] => []
  | b :: bs =>
      let starts := startsAfter (offset + 1) bs
      if Char.ofUInt8 b = '\n' then (offset + 1) :: starts
      else starts

/- The byte offset at which each line starts. -/
def lineStarts (s : SourceText) : List Nat :=
  0 :: startsAfter 0 (Text.bytes s.text)

/- The number of lines. -/
def lineCount (s : SourceText) : Nat :=
  s.lineStarts.length

/-
  The line with a number counted from one. It goes up to the
  line feed before the next line, or to the end of the text.
-/
def line? (s : SourceText) : Nat → Option String
  | 0 => none
  | n + 1 =>
      let bytes := Text.bytes s.text
      s.lineStarts[n]?.map fun start =>
        let stop :=
          (s.lineStarts[n + 1]?.map (· - 1)).getD bytes.length
        let line := Text.ofBytes (bytes.extract start stop)
        String.ofList (dropReturns line.toList)

end SourceText

end LightShow
