import LightShow.Script.Alias
import LightShow.Script.Line

/-
  Reading a whole script.

  The spliced tokens are read from front to back, entry by
  entry. Where an entry cannot be read, one error is recorded
  and reading goes on at the next line; it stops before the
  next entry once the log is full.

  The same can be said line by line: each line on its own
  adds what it says, or one error.

  Key definitions include:
    * `LightShow.Draft`
    * `LightShow.Draft.turn`
    * `LightShow.Draft.run`
    * `LightShow.Draft.step`
    * `LightShow.Script.ofTokens`
    * `LightShow.Script.ofSource`
-/

namespace LightShow

------------------------------------------------------------
-- Growing A Script
------------------------------------------------------------

namespace Function

/- Put a statement at the end and stretch the span over it. -/
def push (f : Function) (s : Statement) : Function :=
  { f with body := f.body ++ [s], span := f.span.through s.span }

/- Put a statement into the last of some functions. -/
def pushLast (s : Statement) :
    List Function → List Function
  | [] => []
  | [f] => [f.push s]
  | f :: g :: fs => f :: pushLast s (g :: fs)

end Function

namespace Script

/-
  Add an entry. A header opens a function; statements go to
  the function opened last.
-/
def add (script : Script) : Entry → Script
  | .setting d =>
      { script with settings := script.settings ++ [d] }
  | .aliasing a =>
      { script with aliases := script.aliases ++ [a] }
  | .header name =>
      { script with
        functions := script.functions ++
          [⟨name, [], name.span⟩] }
  | .statement s =>
      { script with
        functions := Function.pushLast s script.functions }

/-
  The error that an entry brings with it although it is
  added: a header with the name of an earlier function.
-/
def clash? (script : Script) : Entry → Option LineError
  | .header name =>
      (script.find? name.text).map fun f =>
        ⟨.duplicateFunction name.text f.name.span.startLine,
          name.span⟩
  | _ => none

end Script

------------------------------------------------------------
-- Finding The Next Line
------------------------------------------------------------

namespace Token

/- Skip the newlines at the front. -/
def skipNewlines (ts : List Token) : List Token :=
  ts.dropWhile isNewline

/- Skip what is left of a line, up to the end of the text. -/
def skipLine : List Token → List Token
  | [] => []
  | t :: ts =>
      if t.isEnd then t :: ts
      else if t.isNewline then ts
      else skipLine ts

theorem skipNewlines_suffix
    (ts : List Token) :
    skipNewlines ts <:+ ts :=
  List.dropWhile_suffix _

theorem skipLine_suffix
    (ts : List Token) :
    skipLine ts <:+ ts := by
  induction ts with
  | nil => exact List.suffix_rfl
  | cons t ts ih =>
      unfold skipLine
      split
      · exact List.suffix_rfl
      · split
        · exact List.suffix_cons t ts
        · exact ih.trans (List.suffix_cons t ts)

end Token

------------------------------------------------------------
-- Reading Entries In Order
------------------------------------------------------------

/- A script that is being read, and its log. -/
structure Draft where
  script : Script
  log : Log

namespace LineError

/- The diagnostic of a line error. -/
def diagnostic
    (source : SourceText)
    (e : LineError) : Diagnostic :=
  .error source e.fault.code e.fault.message e.span
    e.fault.suggestion

end LineError

namespace Draft

/- Record an error. -/
def refuse
    (source : SourceText)
    (d : Draft)
    (e : LineError) : Draft :=
  { d with log := d.log.pushError (e.diagnostic source) }

/- Take in an entry that was read. -/
def accept
    (source : SourceText)
    (d : Draft)
    (entry : Entry) : Draft :=
  let grown := { d with script := d.script.add entry }
  match d.script.clash? entry with
  | some e => grown.refuse source e
  | none => grown

/-
  Read the entry that starts with `t`, and give the tokens
  from the next line on that has any. Where the entry cannot
  be read, the rest of its line is skipped.
-/
def turn
    (source : SourceText)
    (last : Token)
    (d : Draft)
    (t : Token)
    (rest : List Token) : Draft × List Token :=
  match Entry.read (!d.script.functions.isEmpty) t
      ⟨rest, last, t.span⟩ with
  | .ok (entry, c) =>
      (d.accept source entry, Token.skipNewlines c.rest)
  | .error r =>
      (d.refuse source r.error,
        Token.skipNewlines (Token.skipLine r.left.rest))

/- A turn only takes tokens off the front. -/
theorem turn_suffix
    (source : SourceText)
    (last : Token)
    (d : Draft)
    (t : Token)
    (rest : List Token) :
    (d.turn source last t rest).2 <:+ rest := by
  have hRead :=
    (Entry.closes_read (!d.script.functions.isEmpty) t).keeps
      ⟨rest, last, t.span⟩
  unfold turn
  split
  · rename_i entry c h
    rw [h] at hRead
    exact (Token.skipNewlines_suffix _).trans hRead
  · rename_i r h
    rw [h] at hRead
    exact (Token.skipNewlines_suffix _).trans
      ((Token.skipLine_suffix _).trans hRead)

/-
  Read entries up to the end of the text. The tokens start
  with no newline, and `last` is the one that ends them.
-/
def run
    (source : SourceText)
    (last : Token)
    (d : Draft) : List Token → Draft
  | [] => d
  | t :: rest =>
      if t.isEnd then d
      else if d.log.isFull then d
      else
        run source last (d.turn source last t rest).1
          (d.turn source last t rest).2
termination_by ts => ts.length
decreasing_by
  exact Nat.lt_succ_of_le
    (turn_suffix source last d t rest).length_le

end Draft

------------------------------------------------------------
-- Reading Line By Line
------------------------------------------------------------

namespace Draft

/- Take in one line. -/
def step
    (source : SourceText)
    (d : Draft)
    (line : Line) : Draft :=
  if d.log.isFull then d
  else
    match line.read (!d.script.functions.isEmpty) with
    | .error e => d.refuse source e
    | .ok none => d
    | .ok (some entry) => d.accept source entry

end Draft

namespace Script

/- Read lines into an empty script with a log so far. -/
def ofLines
    (source : SourceText)
    (log : Log)
    (lines : List Line) : Draft :=
  lines.foldl (Draft.step source) ⟨{}, log⟩

------------------------------------------------------------
-- Reading Texts
------------------------------------------------------------

/- Read tokens into an empty script with a log so far. -/
def readTokens
    (source : SourceText)
    (log : Log)
    (ts : List Token) : Draft :=
  Draft.run source (ts.getLastD (.endAt .start)) ⟨{}, log⟩
    (Token.skipNewlines ts)

/- Read tokens: aliases first, then entry by entry. -/
def ofTokens
    (source : SourceText)
    (ts : List Token) : Draft :=
  let (table, tableLog) := AliasTable.ofTokens source ts
  let (spliced, faults) := table.splice ts
  let log := faults.foldl
    (fun log (fault, span) =>
      log.pushError (fault.diagnostic source span))
    tableLog
  readTokens source log spliced

/- Read a source text. -/
def ofSource (source : SourceText) : Draft :=
  let lexed := Token.ofSource source
  let draft := ofTokens source lexed.tokens
  { draft with log := lexed.log.extend draft.log }

end Script

end LightShow
