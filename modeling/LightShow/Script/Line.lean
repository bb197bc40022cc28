import LightShow.Script.Entry

/-
  Lines of tokens.

  A line is its tokens and the token that ends it, a newline
  or the end of the file.

  Key definitions include:
    * `LightShow.Line`
    * `LightShow.Line.ofTokens`
    * `LightShow.Line.read`
-/

namespace LightShow

/- The tokens of a line and the token that ends it. -/
structure Line where
  tokens : List Token
  stop : Token
deriving DecidableEq, Repr

namespace Line

/- All tokens of a line, the last one included. -/
def all (l : Line) : List Token :=
  l.tokens ++ [l.stop]

/- Put a token in front of the lines that follow it. -/
def cons (t : Token) (lines : List Line) : List Line :=
  if t.isEnd then [⟨[], t⟩]
  else if t.isNewline then ⟨[], t⟩ :: lines
  else
    match lines with
    | [] => [⟨[t], t⟩]
    | l :: ls => ⟨t :: l.tokens, l.stop⟩ :: ls

/- The lines up to the first end-of-file token. -/
def ofTokens (ts : List Token) : List Line :=
  ts.foldr cons []

/- Read a line; an empty line has no entry. -/
def read
    (inFunction : Bool)
    (line : Line) : Except LineError (Option Entry) :=
  match line.tokens with
  | [] => .ok none
  | t :: rest =>
      match Entry.read inFunction t
          ⟨rest, line.stop, t.span⟩ with
      | .ok (entry, _) => .ok (some entry)
      | .error refusal => .error refusal.error

end Line

end LightShow
