import LightShow.Script.LineFault

/-
  Reading the tokens of one line.

  A reader works on a cursor, the tokens that are still to
  be read and the token that ends them. It may be given the
  tokens of one line or all that follow. Only the reader of
  line ends reads the token that ends a line; to all others
  it is one that they do not want. A reader that fails says
  where it stopped.

  Key definitions include:
    * `LightShow.Cursor`
    * `LightShow.Refusal`
    * `LightShow.Reader`
    * `LightShow.Reader.take`
    * `LightShow.Reader.eat`
    * `LightShow.Reader.lineEnd`

  Main statements:
    * `LightShow.Reader.consumes_take`
    * `LightShow.Reader.Keeps.bind`
-/

namespace LightShow

------------------------------------------------------------
-- Cursors
------------------------------------------------------------

/- A place in the tokens that are being read. -/
structure Cursor where
  /- The tokens still to be read. -/
  rest : List Token
  /- The token that ends them. -/
  stop : Token
  /- The place of the token read last. -/
  previous : Span
deriving DecidableEq, Repr

/- Why reading failed, and where it stopped. -/
structure Refusal where
  error : LineError
  left : Cursor
deriving DecidableEq, Repr

/- Readers consume tokens of one line or are refused. -/
abbrev Reader := StateT Cursor (Except Refusal)

namespace Cursor

/- The token to be read next, or the one that ends all. -/
def peek (c : Cursor) : Token :=
  c.rest.headD c.stop

/- The refusal of the next token instead of `wanted`. -/
def unexpected (c : Cursor) (wanted : Wanted) : Refusal :=
  ⟨⟨.expected wanted c.peek.kind, c.peek.span⟩, c⟩

/- The cursor after its first token, which is `t`. -/
def after (c : Cursor) (t : Token) (rest : List Token) :
    Cursor :=
  { c with rest := rest, previous := t.span }

end Cursor

namespace Reader

/-
  Read the next token if `select` accepts it, and fail
  otherwise.
-/
def take
    {α : Type}
    (wanted : Wanted)
    (select : Token → Option α) : Reader α :=
  fun c =>
    match c.rest with
    | [] => .error (c.unexpected wanted)
    | t :: rest =>
        match select t with
        | none => .error (c.unexpected wanted)
        | some a => .ok (a, c.after t rest)

/- Read a token of one kind. -/
def token (kind : Token.Kind) : Reader Unit :=
  take (.token kind) fun t =>
    if t.kind = kind then some () else none

/- Read a token of one kind if it comes next. -/
def eat (kind : Token.Kind) : Reader Bool :=
  fun c =>
    match c.rest with
    | [] => .ok (false, c)
    | t :: rest =>
        if t.kind = kind then .ok (true, c.after t rest)
        else .ok (false, c)

/- The place of the token read last. -/
def previous : Reader Span :=
  fun c => .ok (c.previous, c)

/- The place of the token to be read next. -/
def upcoming : Reader Span :=
  fun c => .ok (c.peek.span, c)

/-
  Read the newline that ends the line. The end of the text
  ends the line as well, but is left for others to see.
-/
def lineEnd : Reader Unit :=
  fun c =>
    match c.rest with
    | [] => .ok ((), c)
    | t :: rest =>
        if t.isEnd then .ok ((), c)
        else if t.isNewline then .ok ((), c.after t rest)
        else .error (c.unexpected .lineEnd)

/- Fail here. -/
def fail {α : Type} (e : LineError) : Reader α :=
  fun c => .error ⟨e, c⟩

/- Fail or go on without reading. -/
def ofExcept {α : Type} : Except LineError α → Reader α
  | .ok a => pure a
  | .error e => fail e

------------------------------------------------------------
-- Running Readers
------------------------------------------------------------

section Bind

variable {α β : Type} {p : Reader α} {c d : Cursor}

/- A bind runs its second reader where the first one ends. -/
theorem bind_of_ok
    {a : α}
    (h : p c = .ok (a, d))
    (f : α → Reader β) :
    (p >>= f) c = f a d := by
  simp [bind, StateT.bind, Except.bind, h]

/- A bind fails where its first reader fails. -/
theorem bind_of_error
    {r : Refusal}
    (h : p c = .error r)
    (f : α → Reader β) :
    (p >>= f) c = .error r := by
  simp [bind, StateT.bind, Except.bind, h]

/- A bind that succeeds passes through a cursor between. -/
theorem bind_eq_ok
    {f : α → Reader β}
    {b : β}
    (h : (p >>= f) c = .ok (b, d)) :
    ∃ a e, p c = .ok (a, e) ∧ f a e = .ok (b, d) := by
  cases hp : p c with
  | error r =>
      rw [bind_of_error hp] at h
      cases h
  | ok v =>
      rw [bind_of_ok hp] at h
      exact ⟨v.1, v.2, rfl, h⟩

end Bind

/- The cursor with which a reader ends, failing or not. -/
def left {α : Type} : Except Refusal (α × Cursor) → Cursor
  | .ok (_, d) => d
  | .error r => r.left

/- A reader that only takes tokens off the front. -/
def Keeps {α : Type} (p : Reader α) : Prop :=
  ∀ c : Cursor, (left (p c)).rest <:+ c.rest

/- A reader that reads at least one token. -/
def Consumes {α : Type} (p : Reader α) : Prop :=
  ∀ (c d : Cursor) (a : α), p c = .ok (a, d) →
    d.rest.length < c.rest.length

section Front

variable {α β : Type} {p : Reader α} {f : α → Reader β}

theorem Keeps.length_le
    (hp : Keeps p)
    {c d : Cursor}
    {a : α}
    (h : p c = .ok (a, d)) :
    d.rest.length ≤ c.rest.length := by
  have hSuffix := hp c
  rw [h] at hSuffix
  exact hSuffix.length_le

theorem Keeps.bind
    (hp : Keeps p)
    (hf : ∀ a, Keeps (f a)) :
    Keeps (p >>= f) := by
  intro c
  have hFirst := hp c
  cases h : p c with
  | error r =>
      rw [h] at hFirst
      rw [bind_of_error h]
      exact hFirst
  | ok v =>
      rw [h] at hFirst
      rw [bind_of_ok h]
      exact (hf v.1 v.2).trans hFirst

theorem Consumes.bind
    (hp : Consumes p)
    (hf : ∀ a, Keeps (f a)) :
    Consumes (p >>= f) := by
  intro c e b h
  rcases bind_eq_ok h with ⟨a, d, hFirst, hSecond⟩
  exact Nat.lt_of_le_of_lt ((hf a).length_le hSecond)
    (hp _ _ _ hFirst)

theorem consumes_take
    (wanted : Wanted)
    (select : Token → Option α) :
    Consumes (take wanted select) := by
  intro c d a h
  unfold take at h
  split at h
  · cases h
  · rename_i t rest hRest
    split at h
    · cases h
    · cases h
      rw [hRest]
      exact Nat.lt_succ_self _

end Front

end Reader

end LightShow
