import LightShow.Script.Basic
import LightShow.Script.LedRange
import LightShow.Script.Reader.Inline

/-
  What one line of a script says.

  A line is a device setting, an alias, a function header or
  a statement, told apart by its first token.

  Key definitions include:
    * `LightShow.Entry`
    * `LightShow.Reader.ledList`
    * `LightShow.Reader.action`
    * `LightShow.Entry.read`
-/

namespace LightShow

namespace Reader

------------------------------------------------------------
-- Words And Numbers
------------------------------------------------------------

/- Read a word that is not reserved. -/
def identifier : Reader Name :=
  take .identifier fun t =>
    match t.kind with
    | .word name => some ⟨name, t.span⟩
    | _ => none

/- Read a function name. -/
def functionName : Reader Name :=
  take .functionName fun t =>
    match t.kind with
    | .function name => some ⟨name, t.span⟩
    | _ => none

/- Read a number and its place. -/
def number : Reader (Nat × Span) :=
  take .number fun t =>
    match t.kind with
    | .number n => some (n, t.span)
    | _ => none

/- Read the value of a device setting. -/
def settingValue : Reader String :=
  take .settingValue fun t =>
    match t.kind with
    | .quoted s => some s
    | .word s => some s
    | .number n => some s!"{n}"
    | _ => none

/- Read the text of an alias. -/
def aliasText : Reader String :=
  take .aliasText fun t =>
    match t.kind with
    | .quoted s => some s
    | _ => none

/- Read a time unit. -/
def timeUnit : Reader (TimeUnit × Span) :=
  take .timeUnit fun t =>
    match t.kind with
    | .word s => (TimeUnit.ofSuffix? s).map (·, t.span)
    | _ => none

------------------------------------------------------------
-- Colors And Durations
------------------------------------------------------------

/- Read the value of one channel. -/
def channel (ch : Channel) : Reader UInt8 := do
  let (n, span) ← number
  if ch.maxValue < n then fail ⟨.channelTooLarge ch n, span⟩
  else return UInt8.ofNat n

/- Read a color in brackets. -/
def color : Reader Color := do
  token (.mark .leftParen)
  let red ← channel .red
  token (.mark .comma)
  let green ← channel .green
  token (.mark .comma)
  let blue ← channel .blue
  token (.mark .comma)
  let bright ← channel .bright
  token (.mark .rightParen)
  return ⟨red, green, blue, bright⟩

/- Read an amount and its unit. -/
def duration : Reader Duration := do
  let (amount, start) ← number
  let (unit, stop) ← timeUnit
  return ⟨amount, unit, start.through stop⟩

------------------------------------------------------------
-- LED Lists
------------------------------------------------------------

/- Check one item of an LED list. -/
def checkRange
    (first last : Nat)
    (firstSpan lastSpan : Span) :
    Except LineError LedRange :=
  if first = 0 then .error ⟨.ledZero, firstSpan⟩
  else if LineFault.maxLed < last then
    .error ⟨.ledAboveLimit last, lastSpan⟩
  else if last < first then
    .error ⟨.ledRangeBackwards first last,
      firstSpan.through lastSpan⟩
  else .ok ⟨first, last⟩

/- Read the end of an item that started with `first`. -/
def rangeEnd (first : Nat × Span) : Reader (Nat × Span) := do
  if ← eat (.mark .minus) then number else return first

/- Read one item: a number, or two with a minus between. -/
def ledRange : Reader LedRange := do
  let first ← number
  let last ← rangeEnd first
  ofExcept (checkRange first.1 last.1 first.2 last.2)

theorem inline_number : Inline number :=
  inline_take (fun _ => rfl) (fun _ => rfl) _

theorem inline_rangeEnd
    (first : Nat × Span) :
    Inline (rangeEnd first) := by
  refine (inline_eat (by decide)).bind fun b => ?_
  cases b
  · exact inline_pure _
  · exact inline_number

theorem inline_ledRange : Inline ledRange :=
  inline_number.bind fun first =>
    (inline_rangeEnd first).bind fun _ => inline_ofExcept _

theorem consumes_ledRange : Consumes ledRange := by
  refine (consumes_take _ _).bind fun first => ?_
  exact ((inline_rangeEnd first).bind fun _ =>
    inline_ofExcept _).keeps

theorem inline_comma : Inline (eat (.mark .comma)) :=
  inline_eat (by decide)

/- Read the items of an LED list, commas between them. -/
def ledRanges (c : Cursor) :
    Except Refusal (List LedRange × Cursor) :=
  match _h : ledRange c with
  | .error r => .error r
  | .ok (r, d) =>
      match _hc : eat (.mark .comma) d with
      | .ok (true, e) => do
          let (rs, last) ← ledRanges e
          return (r :: rs, last)
      | .ok (false, e) => .ok ([r], e)
      | .error err => .error err
termination_by c.rest.length
decreasing_by
  exact Nat.lt_of_le_of_lt (inline_comma.keeps.length_le _hc)
    (consumes_ledRange _ _ _ _h)

/- Read a list of LED items in square brackets. -/
def ledList : Reader LedList := do
  let start ← upcoming
  token (.mark .leftBracket)
  let ranges ← (ledRanges : Reader (List LedRange))
  token (.mark .rightBracket)
  return ⟨LedRange.numbers ranges, start.through (← previous)⟩

------------------------------------------------------------
-- Statements
------------------------------------------------------------

/- Read an option in brackets, such as `(repeat = 3)`. -/
def option (k : Keyword) : Reader (Option (Nat × Span)) := do
  if ← eat (.mark .leftParen) then
    token (.keyword k)
    token (.mark .equals)
    let value ← number
    token (.mark .rightParen)
    return some value
  else return none

/- The repeat count that an option gives. -/
def repeatCount :
    Option (Nat × Span) → Except LineError Nat
  | none => .ok 1
  | some (n, span) =>
      if 1 ≤ n ∧ n ≤ LineFault.maxRepeat then .ok n
      else .error ⟨.repeatOutOfRange n, span⟩

/- The z-order that an option gives. -/
def zOrder :
    Option (Nat × Span) → Except LineError (Option Nat)
  | none => .ok none
  | some (n, span) =>
      if n ≤ LineFault.maxZOrder then .ok (some n)
      else .error ⟨.zOrderOutOfRange n, span⟩

/- Read what follows the colon of a statement. -/
def action (start : Token) : Reader Action :=
  match start.kind with
  | .keyword .glowImmediate => do
      let leds ← ledList
      let shade ← color
      return .glow leds shade
  | .keyword .glowRamp => do
      let leds ← ledList
      let first ← color
      token (.keyword .toward)
      let last ← color
      token (.keyword .within)
      let time ← duration
      return .ramp leds first last time
  | .keyword .pause => do
      let time ← duration
      return .pause time
  | .keyword .here => do
      let label ← identifier
      return .here label
  | .keyword .goto => do
      let label ← identifier
      return .goto label
  | .keyword .call => do
      let function ← functionName
      let count ← option .repeats
      return .call function (← ofExcept (repeatCount count))
  | .keyword .callAsync => do
      let function ← functionName
      let order ← option .zOrder
      return .callAsync function (← ofExcept (zOrder order))
  | other =>
      ofExcept (.error ⟨.unknownInstruction other, start.span⟩)

end Reader

------------------------------------------------------------
-- Entries
------------------------------------------------------------

/- What one line adds to a script. -/
inductive Entry where
  | setting (setting : Setting)
  | aliasing (a : Alias)
  | header (name : Name)
  | statement (statement : Statement)
deriving DecidableEq, Repr

namespace Reader

/- Read a device setting line from behind its first word. -/
def setting (start : Span) : Reader Entry := do
  token (.mark .colon)
  let key ← identifier
  token (.mark .equals)
  let value ← settingValue
  let span := start.through (← previous)
  lineEnd
  return .setting ⟨key, value, span⟩

/- Read an alias line from behind its first word. -/
def aliasLine (start : Span) : Reader Entry := do
  token (.mark .colon)
  let name ← identifier
  token (.mark .equals)
  let value ← aliasText
  let span := start.through (← previous)
  lineEnd
  return .aliasing ⟨name, value, span⟩

/- Read a statement from behind its first word. -/
def statement (start : Token) : Reader Entry := do
  token (.mark .colon)
  let deed ← action start
  let span := start.span.through (← previous)
  lineEnd
  return .statement ⟨deed, span⟩

/- Read a function header from behind its name. -/
def header (name : Name) : Reader Entry := do
  lineEnd
  return .header name

end Reader

namespace Entry

/-
  Read a line that starts with the token `t`. Statements are
  only accepted inside a function.
-/
def read (inFunction : Bool) (t : Token) : Reader Entry :=
  match t.kind with
  | .keyword .device => Reader.setting t.span
  | .keyword .define => Reader.aliasLine t.span
  | .function name => Reader.header ⟨name, t.span⟩
  | .keyword k =>
      if k.isInstruction then
        if inFunction then Reader.statement t
        else
          Reader.ofExcept
            (.error ⟨.outsideFunction t.kind, t.span⟩)
      else
        Reader.ofExcept
          (.error ⟨.unknownInstruction t.kind, t.span⟩)
  | other =>
      Reader.ofExcept
        (.error ⟨.unknownInstruction other, t.span⟩)

end Entry

------------------------------------------------------------
-- Readers Of Entries Read Off The Front
------------------------------------------------------------

namespace Reader

/- Items are read one after the other. -/
theorem ledRanges_eq :
    ledRanges =
      (do
        let r ← ledRange
        if ← eat (.mark .comma) then
          let rs ← (ledRanges : Reader (List LedRange))
          return r :: rs
        else return [r] : Reader (List LedRange)) := by
  funext c
  rw [ledRanges]
  simp only [Bind.bind, StateT.bind, Except.bind]
  split
  · rename_i e hRange
    simp [hRange]
  · rename_i r d hRange
    simp only [hRange]
    split <;> rename_i hEat <;> simp [hEat] <;> rfl

theorem inline_ledRanges :
    Inline (ledRanges : Reader (List LedRange)) := by
  intro c
  -- each item is read behind a comma, on a shorter rest
  induction hLength : c.rest.length using Nat.strongRecOn
    generalizing c with
  | ind n ih =>
      rw [ledRanges_eq]
      refine (inline_ledRange c).bind fun r d hItem => ?_
      refine (inline_comma d).bind fun b e hComma => ?_
      cases b with
      | false => exact inline_pure [r] e
      | true =>
          have hItemLess := consumes_ledRange _ _ _ hItem
          have hCommaLe := inline_comma.keeps.length_le hComma
          refine (ih e.rest.length (by omega) e rfl).bind ?_
          exact fun rs d' _ => inline_pure (r :: rs) d'

theorem inline_ledList : Inline ledList := by
  refine inline_upcoming.bind fun _ => ?_
  refine (inline_token (by decide)).bind fun _ => ?_
  refine inline_ledRanges.bind fun _ => ?_
  refine (inline_token (by decide)).bind fun _ => ?_
  exact inline_previous.bind fun _ => inline_pure _

theorem inline_channel
    (ch : Channel) :
    Inline (channel ch) := by
  refine inline_number.bind fun x => ?_
  rcases x with ⟨n, span⟩
  simp only
  split
  · exact inline_fail _
  · exact inline_pure _

theorem inline_color : Inline color := by
  refine (inline_token (by decide)).bind fun _ => ?_
  refine (inline_channel _).bind fun _ => ?_
  refine (inline_token (by decide)).bind fun _ => ?_
  refine (inline_channel _).bind fun _ => ?_
  refine (inline_token (by decide)).bind fun _ => ?_
  refine (inline_channel _).bind fun _ => ?_
  refine (inline_token (by decide)).bind fun _ => ?_
  refine (inline_channel _).bind fun _ => ?_
  exact (inline_token (by decide)).bind fun _ => inline_pure _

theorem inline_timeUnit : Inline timeUnit :=
  inline_take (fun _ => rfl) (fun _ => rfl) _

theorem inline_duration : Inline duration :=
  inline_number.bind fun _ =>
    inline_timeUnit.bind fun _ => inline_pure _

theorem inline_identifier : Inline identifier :=
  inline_take (fun _ => rfl) (fun _ => rfl) _

theorem inline_functionName : Inline functionName :=
  inline_take (fun _ => rfl) (fun _ => rfl) _

theorem inline_settingValue : Inline settingValue :=
  inline_take (fun _ => rfl) (fun _ => rfl) _

theorem inline_aliasText : Inline aliasText :=
  inline_take (fun _ => rfl) (fun _ => rfl) _

theorem inline_option (k : Keyword) : Inline (option k) := by
  refine (inline_eat (by decide)).bind fun b => ?_
  cases b with
  | false => exact inline_pure _
  | true =>
      refine (inline_token ?_).bind fun _ => ?_
      · exact ⟨Token.Kind.noConfusion, Token.Kind.noConfusion⟩
      refine (inline_token (by decide)).bind fun _ => ?_
      refine inline_number.bind fun _ => ?_
      exact (inline_token (by decide)).bind fun _ =>
        inline_pure _

/- What follows the colon is read inside the line. -/
theorem inline_action
    (start : Token) :
    Inline (action start) := by
  unfold action
  split
  · refine inline_ledList.bind fun _ => ?_
    exact inline_color.bind fun _ => inline_pure _
  · refine inline_ledList.bind fun _ => ?_
    refine inline_color.bind fun _ => ?_
    refine (inline_token (by decide)).bind fun _ => ?_
    refine inline_color.bind fun _ => ?_
    refine (inline_token (by decide)).bind fun _ => ?_
    exact inline_duration.bind fun _ => inline_pure _
  · exact inline_duration.bind fun _ => inline_pure _
  · exact inline_identifier.bind fun _ => inline_pure _
  · exact inline_identifier.bind fun _ => inline_pure _
  · refine inline_functionName.bind fun _ => ?_
    refine (inline_option _).bind fun _ => ?_
    exact (inline_ofExcept _).bind fun _ => inline_pure _
  · refine inline_functionName.bind fun _ => ?_
    refine (inline_option _).bind fun _ => ?_
    exact (inline_ofExcept _).bind fun _ => inline_pure _
  · exact inline_ofExcept _

theorem closes_setting
    (start : Span) :
    Closes (setting start) := by
  refine (inline_token (by decide)).bind_closes fun _ => ?_
  refine inline_identifier.bind_closes fun _ => ?_
  refine (inline_token (by decide)).bind_closes fun _ => ?_
  refine inline_settingValue.bind_closes fun _ => ?_
  refine inline_previous.bind_closes fun _ => ?_
  exact closes_lineEnd.map _

theorem closes_aliasLine
    (start : Span) :
    Closes (aliasLine start) := by
  refine (inline_token (by decide)).bind_closes fun _ => ?_
  refine inline_identifier.bind_closes fun _ => ?_
  refine (inline_token (by decide)).bind_closes fun _ => ?_
  refine inline_aliasText.bind_closes fun _ => ?_
  refine inline_previous.bind_closes fun _ => ?_
  exact closes_lineEnd.map _

theorem closes_statement
    (start : Token) :
    Closes (statement start) := by
  refine (inline_token (by decide)).bind_closes fun _ => ?_
  refine (inline_action start).bind_closes fun _ => ?_
  refine inline_previous.bind_closes fun _ => ?_
  exact closes_lineEnd.map _

end Reader

/- Reading an entry is reading its whole line. -/
theorem Entry.closes_read
    (inFunction : Bool)
    (t : Token) :
    Reader.Closes (Entry.read inFunction t) := by
  unfold Entry.read
  split
  · exact Reader.closes_setting _
  · exact Reader.closes_aliasLine _
  · exact Reader.closes_lineEnd.map _
  · split
    · split
      · exact Reader.closes_statement t
      · exact Reader.closes_fail _
    · exact Reader.closes_fail _
  · exact Reader.closes_fail _

end LightShow
