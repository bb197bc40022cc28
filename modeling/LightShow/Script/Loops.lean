import LightShow.Script.Parser
import Mathlib.Data.PFun

/-
  Reading a script in loops.

  A cursor shows the next token. Behind the last token it
  shows the last one again, and going on from there leads
  nowhere. Four loops move it: over newlines, to the end of
  a line, over the items of an LED list, and over entries.

  A loop goes on until some pass leaves it, and nothing else
  stops it. Where no pass ever does, it has no result.

  Key definitions include:
    * `LightShow.Loop.Pass`
    * `LightShow.Cursor.advance`
    * `LightShow.Cursor.overNewlines`
    * `LightShow.Cursor.toNextLine`
    * `LightShow.Reader.itemPass`
    * `LightShow.Draft.entryPass`
    * `LightShow.Script.readInLoops`
-/

namespace LightShow

/-
  One pass of a loop: out of the loop with a result, or to
  the state of the next pass. The loop is its `PFun.fix`.
-/
abbrev Loop.Pass (σ β : Type) := σ →. β ⊕ σ

------------------------------------------------------------
-- Moving A Cursor
------------------------------------------------------------

namespace Cursor

/- A cursor in front of some tokens. -/
def start (ts : List Token) : Cursor :=
  ⟨ts, ts.getLastD (.endAt .start), .origin⟩

/- Go past the next token, if there is one. -/
def advance (c : Cursor) : Cursor :=
  match c.rest with
  | [] => c
  | t :: rest => c.after t rest

/- How many tokens are still to be read. -/
def unread (c : Cursor) : Nat :=
  c.rest.length

/- Go past one newline. -/
def newlinePass : Loop.Pass Cursor Cursor :=
  fun c =>
    if c.peek.isNewline then return .inr c.advance
    else return .inl c

/- Skip newlines. -/
def overNewlines : Cursor →. Cursor :=
  newlinePass.fix

/- Go past one token of a line, or past the newline. -/
def linePass : Loop.Pass Cursor Cursor :=
  fun c =>
    if c.peek.isEnd then return .inl c
    else if c.peek.isNewline then return .inl c.advance
    else return .inr c.advance

/- Skip what is left of a line, and the newlines behind. -/
def toNextLine : Cursor →. Cursor :=
  fun c => do
    let d ← linePass.fix c
    d.overNewlines

end Cursor

------------------------------------------------------------
-- Reading In Loops
------------------------------------------------------------

/- Read one more item of an LED list behind those so far. -/
def Reader.itemPass :
    Loop.Pass (List LedRange × Cursor)
      (Except Refusal (List LedRange × Cursor)) :=
  fun (ranges, c) =>
    match ledRange c with
    | .error r => return .inl (.error r)
    | .ok (range, d) =>
        match eat (.mark .comma) d with
        | .error r => return .inl (.error r)
        | .ok (true, e) =>
            return .inr (ranges ++ [range], e)
        | .ok (false, e) =>
            return .inl (.ok (ranges ++ [range], e))

namespace Entry

/- Whether an entry may start with a token of some kind. -/
def startsWith (inFunction : Bool) : Token.Kind → Bool
  | .keyword .device => true
  | .keyword .define => true
  | .keyword k => k.isInstruction && inFunction
  | .function _ => true
  | _ => false

/-
  Read the entry at a cursor. A token that no entry starts
  with is refused where it stands.
-/
def readAt (inFunction : Bool) : Reader Entry :=
  fun c =>
    if startsWith inFunction c.peek.kind then
      read inFunction c.peek c.advance
    else read inFunction c.peek c

end Entry

/-
  Read one entry and go to the next line. The loop is left
  at the end of the text and once the log is full.
-/
def Draft.entryPass
    (source : SourceText) :
    Loop.Pass (Draft × Cursor) (Draft × Cursor) :=
  fun (d, c) =>
    if c.peek.isEnd then return .inl (d, c)
    else if d.log.isFull then return .inl (d, c)
    else
      match Entry.readAt (!d.script.functions.isEmpty) c with
      | .ok (entry, e) => do
          let next ← e.overNewlines
          return .inr (d.accept source entry, next)
      | .error r => do
          let line ← r.left.toNextLine
          let next ← line.overNewlines
          return .inr (d.refuse source r.error, next)

/-
  Read tokens into an empty script with a log so far, and
  tell where reading stopped.
-/
def Script.readInLoops
    (source : SourceText)
    (log : Log)
    (ts : List Token) : Part (Draft × Cursor) := do
  let c ← (Cursor.start ts).overNewlines
  (Draft.entryPass source).fix (⟨{}, log⟩, c)

end LightShow
