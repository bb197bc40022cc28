import LightShow.Text.Hex

/-
  Writing JSON objects over several lines.

  Strings escape the quote, the backslash and the control
  characters below U+0020, with the short form where there
  is one; all other characters stand for themselves. Members
  stand on lines of their own, two blanks deeper than the
  object.

  Key definitions include:
    * `LightShow.Text.Json.quote`
    * `LightShow.Text.Json.object`
-/

namespace LightShow

namespace Text

namespace Json

/- A character inside a string. -/
def escape (c : Char) : List Char :=
  if c = '"' then ['\\', '"']
  else if c = '\\' then ['\\', '\\']
  else if c = '\n' then ['\\', 'n']
  else if c = '\r' then ['\\', 'r']
  else if c = '\t' then ['\\', 't']
  else if c.toNat = 8 then ['\\', 'b']
  else if c.toNat = 12 then ['\\', 'f']
  else if c.toNat < 32 then
    ['\\', 'u', '0', '0', hexDigit (c.toNat / 16),
      hexDigit (c.toNat % 16)]
  else [c]

/- A string in quotes. -/
def quote (s : String) : String :=
  String.ofList
    ('"' :: s.toList.flatMap escape ++ ['"'])

/- An indentation of some levels. -/
def indent (level : Nat) : String :=
  String.ofList (List.replicate (2 * level) ' ')

/- An object of written values whose brace is `level` deep. -/
def object
    (level : Nat)
    (members : List (String × String)) : String :=
  let lines := members.map fun (key, value) =>
    indent (level + 1) ++ quote key ++ ": " ++ value
  "\x7b\n" ++ ",\n".intercalate lines ++ "\n" ++
    indent level ++ "\x7d"

end Json

end Text

end LightShow
