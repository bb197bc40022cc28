import LightShow.Text.Hex

/-
  TOML strings in quotes.

  Double quotes allow escapes, single quotes do not. Three
  quotes open a string that may hold line ends: a line end
  right after the opening is dropped, and up to two quotes
  may stand before the three that close it.

  Key definitions include:
    * `LightShow.Toml.Quoted.escape?`
    * `LightShow.Toml.Quoted.basic?`
    * `LightShow.Toml.Quoted.literal?`
    * `LightShow.Toml.Quoted.longBasic?`
    * `LightShow.Toml.Quoted.longLiteral?`
-/

namespace LightShow

namespace Toml

/- A run of characters and what follows it. -/
abbrev Cut := List Char × List Char

/- The blanks within a line. -/
def isGap (c : Char) : Bool :=
  c == ' ' || c == '\t'

/- The characters that may stand in strings and comments. -/
def isTextChar (c : Char) : Bool :=
  c == '\t' || 0x20 ≤ c.toNat && c.toNat ≠ 0x7F

namespace Quoted

------------------------------------------------------------
-- Escapes
------------------------------------------------------------

/- The number that hexadecimal digits spell. -/
def codePoint? (ds : List Char) : Option Nat :=
  ds.foldlM
    (fun n d => (Text.hexValue? d).map (16 * n + ·)) 0

/- The character of a number of hexadecimal digits. -/
def coded?
    (count : Nat)
    (cs : List Char) : Option (Char × List Char) := do
  let ds := cs.take count
  let n ← codePoint? ds
  if ds.length = count ∧ n.isValidChar then
    return (Char.ofNat n, cs.drop count)
  else none

/- The character that is escaped, after the backslash. -/
def escape? : List Char → Option (Char × List Char)
  | 'b' :: cs => some (Char.ofNat 8, cs)
  | 't' :: cs => some ('\t', cs)
  | 'n' :: cs => some ('\n', cs)
  | 'f' :: cs => some (Char.ofNat 12, cs)
  | 'r' :: cs => some ('\r', cs)
  | 'e' :: cs => some (Char.ofNat 27, cs)
  | '"' :: cs => some ('"', cs)
  | '\\' :: cs => some ('\\', cs)
  | 'x' :: cs => coded? 2 cs
  | 'u' :: cs => coded? 4 cs
  | 'U' :: cs => coded? 8 cs
  | _ => none

/- Put characters in front of a run. -/
def prepend (front : List Char) (cut : Cut) : Cut :=
  (front ++ cut.1, cut.2)

------------------------------------------------------------
-- Strings Of One Line
------------------------------------------------------------

/- The text up to the double quote that closes it. -/
def basic? (cs : List Char) : Option Cut :=
  match cs with
  | [] => none
  | '"' :: rest => some ([], rest)
  | '\\' :: rest =>
      match escape? rest with
      | none => none
      | some (c, after) =>
          if after.length < rest.length then
            (basic? after).map (prepend [c])
          else none
  | c :: rest =>
      if isTextChar c then (basic? rest).map (prepend [c])
      else none
termination_by cs.length

/- The text up to the single quote that closes it. -/
def literal? (cs : List Char) : Option Cut :=
  let isInside := fun c => isTextChar c && c != '\''
  match cs.dropWhile isInside with
  | '\'' :: rest => some (cs.takeWhile isInside, rest)
  | _ => none

------------------------------------------------------------
-- Strings Of Several Lines
------------------------------------------------------------

/- Drop one line end in front. -/
def dropLineEnd : List Char → List Char
  | '\n' :: cs => cs
  | '\r' :: '\n' :: cs => cs
  | cs => cs

/- Drop blanks and line ends in front. -/
def dropLines : List Char → List Char
  | '\r' :: '\n' :: cs => dropLines cs
  | '\r' :: cs => '\r' :: cs
  | c :: cs =>
      if isGap c || c == '\n' then dropLines cs else c :: cs
  | [] => []

/- Where a backslash at the end of a line continues. -/
def continued? (cs : List Char) : Option (List Char) :=
  match cs.dropWhile isGap with
  | '\n' :: rest => some (dropLines rest)
  | '\r' :: '\n' :: rest => some (dropLines rest)
  | _ => none

/- The quotes beyond three that end a string: at most two. -/
def surplus (quote : Char) : List Char → Cut
  | a :: b :: cs =>
      if a = quote then
        if b = quote then ([a, b], cs) else ([a], b :: cs)
      else ([], a :: b :: cs)
  | [a] => if a = quote then ([a], []) else ([], [a])
  | [] => ([], [])

/- The characters that stand for themselves over lines. -/
def isLongChar (c : Char) : Bool :=
  isTextChar c || c == '\n'

/- The text up to three double quotes. -/
def longBasic? (cs : List Char) : Option Cut :=
  match cs with
  | [] => none
  | '"' :: '"' :: '"' :: rest => some (surplus '"' rest)
  | '\r' :: '\n' :: rest =>
      (longBasic? rest).map (prepend ['\r', '\n'])
  | '\\' :: rest =>
      match continued? rest with
      | some after =>
          if after.length < rest.length then longBasic? after
          else none
      | none =>
          match escape? rest with
          | none => none
          | some (c, after) =>
              if after.length < rest.length then
                (longBasic? after).map (prepend [c])
              else none
  | c :: rest =>
      if isLongChar c then
        (longBasic? rest).map (prepend [c])
      else none
termination_by cs.length

/- The text up to three single quotes. -/
def longLiteral? : List Char → Option Cut
  | [] => none
  | '\'' :: '\'' :: '\'' :: rest => some (surplus '\'' rest)
  | '\r' :: '\n' :: rest =>
      (longLiteral? rest).map (prepend ['\r', '\n'])
  | c :: rest =>
      if isLongChar c then
        (longLiteral? rest).map (prepend [c])
      else none

------------------------------------------------------------
-- All Strings
------------------------------------------------------------

/- A string on one line, from its opening quote on. -/
def short? : List Char → Option Cut
  | '"' :: cs => basic? cs
  | '\'' :: cs => literal? cs
  | _ => none

/- Any string, from its opening quotes on. -/
def any? : List Char → Option Cut
  | '"' :: '"' :: '"' :: cs => longBasic? (dropLineEnd cs)
  | '\'' :: '\'' :: '\'' :: cs =>
      longLiteral? (dropLineEnd cs)
  | cs => short? cs

end Quoted

end Toml

end LightShow
