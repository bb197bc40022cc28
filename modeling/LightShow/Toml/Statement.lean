import LightShow.Toml.Literal
import LightShow.Toml.Quoted
import LightShow.Toml.Table

/-
  The statements of a TOML document, read from its text.

  A document is a list of headers and of keys with values,
  each on a line of its own. Blanks, empty lines and comments
  may stand between them, and between all parts of what is in
  brackets or braces, the names of a key apart.

  Key definitions include:
    * `LightShow.Toml.Statement`
    * `LightShow.Toml.key?`
    * `LightShow.Toml.value?`
    * `LightShow.Toml.statements?`
-/

namespace LightShow

namespace Toml

/- A reader takes what it reads off the front of a text. -/
abbrev Reader (α : Type) :=
  List Char → Option (α × List Char)

------------------------------------------------------------
-- Blanks, Line Ends And Comments
------------------------------------------------------------

/-
  Drop blanks, line ends and comments. A character that no
  comment may hold is left in front, where nothing reads it.
-/
def skip (inComment : Bool) : List Char → List Char
  | [] => []
  | '\r' :: '\n' :: cs => skip false cs
  | c :: cs =>
      if c = '\n' then skip false cs
      else if inComment then
        if isTextChar c then skip true cs else c :: cs
      else if c = '#' then skip true cs
      else if isGap c then skip false cs
      else c :: cs

/- Drop a comment in front. -/
def dropComment : List Char → List Char
  | '#' :: cs => cs.dropWhile isTextChar
  | cs => cs

/- What follows the end of a line. -/
def afterLine? (cs : List Char) : Option (List Char) :=
  match dropComment (cs.dropWhile isGap) with
  | [] => some []
  | '\n' :: rest => some rest
  | '\r' :: '\n' :: rest => some rest
  | _ => none

/- Take one given character off the front. -/
def expect? (c : Char) : List Char → Option (List Char)
  | [] => none
  | d :: cs => if d = c then some cs else none

------------------------------------------------------------
-- Keys
------------------------------------------------------------

/- The characters of names without quotes. -/
def isBareChar (c : Char) : Bool :=
  c.isAlphanum || c == '_' || c == '-'

/- One name of a key. -/
def name? : Reader String := fun cs =>
  match cs.takeWhile isBareChar with
  | [] =>
      (Quoted.short? cs).map fun (text, rest) =>
        (String.ofList text, rest)
  | word =>
      some (String.ofList word, cs.dropWhile isBareChar)

/- Names divided by dots. -/
def names? (cs : List Char) : Option (Key × List Char) :=
  match name? cs with
  | none => none
  | some (name, rest) =>
      match rest.dropWhile isGap with
      | '.' :: more =>
          if (more.dropWhile isGap).length < cs.length then
            (names? (more.dropWhile isGap)).map fun (k, after) =>
              ({ k with route := name :: k.route }, after)
          else none
      | after => some (⟨[], name⟩, after)
termination_by cs.length

/- The number of names that a key may have. -/
def maxNames : Nat := 80

/- A key. -/
def key? : Reader Key := fun cs =>
  (names? cs).filter fun (k, _) => k.route.length < maxNames

------------------------------------------------------------
-- Values
------------------------------------------------------------

/-
  The items before a closing bracket, divided by commas; a
  comma may follow the last one.
-/
def items?
    {α : Type}
    (close : Char)
    (item : Reader α)
    (cs : List Char) : Option (List α × List Char) :=
  match expect? close (skip false cs) with
  | some rest => some ([], rest)
  | none =>
      match item (skip false cs) with
      | none => none
      | some (a, after) =>
          match expect? ',' (skip false after) with
          | some more =>
              if more.length < cs.length then
                (items? close item more).map
                  fun (as, rest) => (a :: as, rest)
              else none
          | none =>
              (expect? close (skip false after)).map
                fun rest => ([a], rest)
termination_by cs.length

/-
  A key with its value. What may stand on both sides of the
  sign between them is dropped by `gap`.
-/
def pair?
    (gap : List Char → List Char)
    (value : Reader Value) : Reader (Key × Value) :=
  fun cs => do
    let (key, rest) ← key? cs
    let rest ← expect? '=' (gap rest)
    let (v, rest) ← value (gap rest)
    return ((key, v), rest)

/- A pair in braces, which may go on over several lines. -/
def bracedPair?
    (value : Reader Value) : Reader (Key × Value) :=
  pair? (skip false) value

/- A pair on one line. -/
def linePair? (value : Reader Value) : Reader (Key × Value) :=
  pair? (·.dropWhile isGap) value

/- The number of brackets that may be open at once. -/
def maxDepth : Nat := 80

/- A value inside which `depth` more brackets may open. -/
def valueWithin? : (depth : Nat) → Reader Value
  | _, [] => none
  | 0, c :: cs => leaf? (c :: cs)
  | depth + 1, c :: cs =>
      if c = '[' then
        (items? ']' (valueWithin? depth) cs).map
          fun (items, rest) => (.array items, rest)
      else if c = '\x7b' then
        match items? '\x7d' (bracedPair? (valueWithin? depth)) cs with
        | none => none
        | some (pairs, rest) =>
            (Table.putAll? [] pairs).map
              fun t => (.table .braces t, rest)
      else leaf? (c :: cs)
where
  /- A value without brackets. -/
  leaf? (cs : List Char) : Option (Value × List Char) :=
    match Quoted.any? cs with
    | some (text, rest) =>
        some (.string (String.ofList text), rest)
    | none =>
        let (run, rest) := Literal.next cs
        (Literal.value? run).map fun v => (v, rest)

/- A value. -/
def value? : Reader Value := valueWithin? maxDepth

------------------------------------------------------------
-- Statements
------------------------------------------------------------

/- What stands on a line. -/
inductive Statement where
  /- A header enters a table. -/
  | table (key : Key)
  /- A double header enters one more table of an array. -/
  | item (key : Key)
  /- A key is given a value. -/
  | pair (key : Key) (value : Value)

/- The key of a header, which is followed by brackets. -/
def header? (close : List Char) : Reader Key := fun cs => do
  let (key, rest) ← key? (cs.dropWhile isGap)
  let rest ← close.foldlM (fun cs c => expect? c cs) rest
  return (key, rest)

/- One statement. -/
def statement? : Reader Statement
  | '[' :: '[' :: cs =>
      (header? [']', ']'] cs).map fun (k, r) => (.item k, r)
  | '[' :: cs =>
      (header? [']'] cs).map fun (k, r) => (.table k, r)
  | cs =>
      (linePair? value? cs).map fun ((k, v), r) => (.pair k v, r)

/- All statements of a text. -/
def statements? (cs : List Char) : Option (List Statement) :=
  match skip false cs with
  | [] => some []
  | c :: rest =>
      match statement? (c :: rest) with
      | none => none
      | some (s, after) =>
          match afterLine? after with
          | none => none
          | some more =>
              if more.length < cs.length then
                (statements? more).map (s :: ·)
              else none
termination_by cs.length

end Toml

end LightShow
