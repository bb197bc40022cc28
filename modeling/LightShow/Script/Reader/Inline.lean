import LightShow.Script.Reader

/-
  Readers that stay in their line.

  A line is given to a reader either on its own or with all
  tokens that follow it. A reader inside a line makes the
  same of both: it takes tokens of the line off the front or
  fails at one of them. A reader of a whole line also reads
  the token that ends it, and no more.

  Key definitions include:
    * `LightShow.Cursor.InLine`
    * `LightShow.Cursor.within`
    * `LightShow.Reader.Inline`
    * `LightShow.Reader.Closes`

  Main statements:
    * `LightShow.Reader.InlineAt.bind`
    * `LightShow.Reader.inline_take`
    * `LightShow.Reader.closes_lineEnd`
    * `LightShow.Reader.Inline.bind_closes`
-/

namespace LightShow

------------------------------------------------------------
-- A Line Among All Tokens
------------------------------------------------------------

namespace Cursor

/- A cursor on the tokens of one line. -/
structure InLine (c : Cursor) : Prop where
  rest : ∀ t ∈ c.rest, t.Inline
  stop : ¬c.stop.Inline

/- The same place among all tokens, `last` ending them. -/
def within
    (c : Cursor)
    (more : List Token)
    (last : Token) : Cursor :=
  { c with rest := c.rest ++ c.stop :: more, stop := last }

/- The next token is the same with more behind the line. -/
theorem peek_within
    (c : Cursor)
    (more : List Token)
    (last : Token) :
    (c.within more last).peek = c.peek := by
  cases h : c.rest <;> simp [peek, within, h]

theorem unexpected_within
    (c : Cursor)
    (more : List Token)
    (last : Token)
    (wanted : Wanted) :
    (c.within more last).unexpected wanted =
      ⟨(c.unexpected wanted).error, c.within more last⟩ := by
  rw [unexpected, peek_within, unexpected]

/- What is left behind the line: the end of a text stays. -/
def behind (c : Cursor) (more : List Token) : List Token :=
  if c.stop.isNewline then more else c.stop :: more

end Cursor

namespace Reader

------------------------------------------------------------
-- Readers Inside A Line
------------------------------------------------------------

/- What a reader makes of it, seen among all tokens. -/
def within
    {α : Type}
    (more : List Token)
    (last : Token) :
    Except Refusal (α × Cursor) →
      Except Refusal (α × Cursor)
  | .ok (a, d) => .ok (a, d.within more last)
  | .error r => .error ⟨r.error, r.left.within more last⟩

/-
  At this cursor a reader takes tokens of the line off the
  front, and what follows the line makes no difference.
-/
structure InlineAt
    {α : Type}
    (p : Reader α)
    (c : Cursor) : Prop where
  suffix : (left (p c)).rest <:+ c.rest
  stop : (left (p c)).stop = c.stop
  within_eq : c.InLine → ∀ more last,
    p (c.within more last) = within more last (p c)

/- A reader that never reads the token that ends a line. -/
def Inline {α : Type} (p : Reader α) : Prop :=
  ∀ c, InlineAt p c

section Line

variable {α β : Type} {p : Reader α} {f : α → Reader β}

theorem Inline.keeps
    (h : Inline p) :
    Keeps p :=
  fun c => (h c).suffix

/- Reading inside a line ends inside the line. -/
theorem InlineAt.inLine_left
    {c : Cursor}
    (h : InlineAt p c)
    (hLine : c.InLine) :
    (left (p c)).InLine where
  rest := fun t ht => hLine.rest t (h.suffix.subset ht)
  stop := h.stop ▸ hLine.stop

theorem InlineAt.bind
    {c : Cursor}
    (hp : InlineAt p c)
    (hf : ∀ a d, p c = .ok (a, d) → InlineAt (f a) d) :
    InlineAt (p >>= f) c := by
  cases h : p c with
  | error r =>
      refine ⟨?_, ?_, fun hLine more last => ?_⟩
      · have hSuffix := hp.suffix
        rw [h] at hSuffix
        rw [bind_of_error h]
        exact hSuffix
      · have hStop := hp.stop
        rw [h] at hStop
        rw [bind_of_error h]
        exact hStop
      · have hWithin := hp.within_eq hLine more last
        rw [h] at hWithin
        rw [bind_of_error hWithin, bind_of_error h]
        rfl
  | ok v =>
      rcases v with ⟨a, d⟩
      have hNext := hf a d h
      refine ⟨?_, ?_, fun hLine more last => ?_⟩
      · have hSuffix := hp.suffix
        rw [h] at hSuffix
        rw [bind_of_ok h]
        exact hNext.suffix.trans hSuffix
      · have hStop := hp.stop
        rw [h] at hStop
        rw [bind_of_ok h]
        exact hNext.stop.trans hStop
      · have hWithin := hp.within_eq hLine more last
        have hInner := hp.inLine_left hLine
        rw [h] at hWithin hInner
        rw [bind_of_ok hWithin, bind_of_ok h]
        exact hNext.within_eq hInner more last

theorem Inline.bind
    (hp : Inline p)
    (hf : ∀ a, Inline (f a)) :
    Inline (p >>= f) :=
  fun c => (hp c).bind fun a d _ => hf a d

theorem inlineAt_of_error
    {c : Cursor}
    {e : LineError}
    (h : p c = .error ⟨e, c⟩)
    (hWithin : c.InLine → ∀ more last,
      p (c.within more last) =
        .error ⟨e, c.within more last⟩) :
    InlineAt p c := by
  refine ⟨?_, ?_, fun hLine more last => ?_⟩
  · rw [h]
    exact List.suffix_rfl
  · rw [h]
    rfl
  · rw [h]
    exact hWithin hLine more last

theorem inlineAt_of_ok
    {c d : Cursor}
    {a : α}
    (h : p c = .ok (a, d))
    (hSuffix : d.rest <:+ c.rest)
    (hStop : d.stop = c.stop)
    (hWithin : c.InLine → ∀ more last,
      p (c.within more last) = .ok (a, d.within more last)) :
    InlineAt p c := by
  refine ⟨?_, ?_, fun hLine more last => ?_⟩
  · rw [h]
    exact hSuffix
  · rw [h]
    exact hStop
  · rw [h]
    exact hWithin hLine more last

theorem inline_pure
    (a : α) :
    Inline (pure a : Reader α) :=
  fun _ => inlineAt_of_ok rfl List.suffix_rfl rfl
    fun _ _ _ => rfl

theorem inline_fail
    (e : LineError) :
    Inline (fail e : Reader α) :=
  fun _ => inlineAt_of_error rfl fun _ _ _ => rfl

theorem inline_ofExcept
    (r : Except LineError α) :
    Inline (ofExcept r) := by
  cases r with
  | error e => exact inline_fail e
  | ok a => exact inline_pure a

theorem inline_previous : Inline previous :=
  fun _ => inlineAt_of_ok rfl List.suffix_rfl rfl
    fun _ _ _ => rfl

theorem inline_upcoming : Inline upcoming := by
  intro c
  refine inlineAt_of_ok rfl List.suffix_rfl rfl ?_
  intro _ more last
  rw [upcoming, Cursor.peek_within]

/- A reader that wants no token that ends a line. -/
theorem inline_take
    {select : Token → Option α}
    (hNewline : ∀ span, select ⟨.newline, span⟩ = none)
    (hEnd : ∀ span, select ⟨.endOfFile, span⟩ = none)
    (wanted : Wanted) :
    Inline (take wanted select) := by
  have hSelect {t : Token} (h : ¬t.Inline) :
      select t = none := by
    rcases t with ⟨kind, span⟩
    rcases Token.kind_of_not_inline h with rfl | rfl
    · exact hNewline span
    · exact hEnd span
  intro c
  cases hRest : c.rest with
  | nil =>
      have hTake :
          take wanted select c =
            .error (c.unexpected wanted) := by
        simp [take, hRest]
      refine inlineAt_of_error hTake ?_
      intro hLine more last
      have hStop := hSelect hLine.stop
      refine Eq.trans ?_ (congrArg Except.error
        (c.unexpected_within more last wanted))
      simp [take, Cursor.within, hRest, hStop]
  | cons t rest =>
      cases hToken : select t with
      | none =>
          have hTake :
              take wanted select c =
                .error (c.unexpected wanted) := by
            simp [take, hRest, hToken]
          refine inlineAt_of_error hTake ?_
          intro hLine more last
          refine Eq.trans ?_ (congrArg Except.error
            (c.unexpected_within more last wanted))
          simp [take, Cursor.within, hRest, hToken]
      | some a =>
          have hTake :
              take wanted select c =
                .ok (a, c.after t rest) := by
            simp [take, hRest, hToken]
          refine inlineAt_of_ok hTake
            (hRest ▸ List.suffix_cons t rest) rfl ?_
          intro hLine more last
          simp [take, Cursor.within, hRest, hToken,
            Cursor.after]

theorem inline_token
    {kind : Token.Kind}
    (hKind : kind ≠ .newline ∧ kind ≠ .endOfFile) :
    Inline (token kind) :=
  inline_take (fun _ => if_neg hKind.1.symm)
    (fun _ => if_neg hKind.2.symm) _

theorem inline_eat
    {kind : Token.Kind}
    (hKind : kind ≠ .newline ∧ kind ≠ .endOfFile) :
    Inline (eat kind) := by
  intro c
  cases hRest : c.rest with
  | nil =>
      have hEat : eat kind c = .ok (false, c) := by
        simp [eat, hRest]
      refine inlineAt_of_ok hEat List.suffix_rfl rfl ?_
      intro hLine more last
      have hStop : c.stop.kind ≠ kind := by
        rintro rfl
        exact (Token.kind_of_not_inline hLine.stop).elim
          hKind.1 hKind.2
      simp [eat, Cursor.within, hRest, hStop]
  | cons t rest =>
      by_cases hToken : t.kind = kind
      · have hEat :
            eat kind c = .ok (true, c.after t rest) := by
          simp [eat, hRest, hToken]
        refine inlineAt_of_ok hEat
          (hRest ▸ List.suffix_cons t rest) rfl ?_
        intro hLine more last
        simp [eat, Cursor.within, hRest, hToken,
          Cursor.after]
      · have hEat : eat kind c = .ok (false, c) := by
          simp [eat, hRest, hToken]
        refine inlineAt_of_ok hEat List.suffix_rfl rfl ?_
        intro hLine more last
        simp [eat, Cursor.within, hRest, hToken]

end Line

------------------------------------------------------------
-- Readers Of A Whole Line
------------------------------------------------------------

/-
  A reader that reads a whole line, the token that ends it
  included, or fails inside it. What follows the line makes
  no difference.
-/
structure Closes {α : Type} (p : Reader α) : Prop where
  keeps : Keeps p
  ok : ∀ {c a d}, c.InLine → p c = .ok (a, d) →
    ∀ more last, ∃ e,
      p (c.within more last) = .ok (a, e) ∧
        e.rest = c.behind more
  error : ∀ {c r}, c.InLine → p c = .error r →
    r.left.InLine ∧ r.left.stop = c.stop ∧
      ∀ more last,
        p (c.within more last) =
          .error ⟨r.error, r.left.within more last⟩

section Close

variable {α β : Type} {p : Reader α} {f : α → Reader β}

theorem keeps_lineEnd : Keeps lineEnd := by
  intro c
  unfold lineEnd
  split
  · exact List.suffix_rfl
  · rename_i t rest hRest
    split
    · exact List.suffix_rfl
    · split
      · exact hRest ▸ List.suffix_cons t rest
      · exact List.suffix_rfl

theorem closes_lineEnd : Closes lineEnd where
  keeps := keeps_lineEnd
  ok := by
    intro c a d hLine hRead more last
    cases hRest : c.rest with
    | cons t rest =>
        have hInline := hLine.rest t
          (hRest ▸ List.mem_cons_self ..)
        simp [lineEnd, hRest, hInline.1, hInline.2] at hRead
    | nil =>
        rcases Token.kind_of_not_inline hLine.stop
          with hStop | hStop
        · refine ⟨(c.within more last).after c.stop more,
            ?_, ?_⟩
          · simp [lineEnd, Cursor.within, hRest, hStop,
              Token.isEnd, Token.isNewline]
          · simp [Cursor.behind, Cursor.after, hStop,
              Token.isNewline]
        · refine ⟨c.within more last, ?_, ?_⟩
          · simp [lineEnd, Cursor.within, hRest, hStop,
              Token.isEnd]
          · simp [Cursor.behind, Cursor.within, hRest,
              hStop, Token.isNewline]
  error := by
    intro c r hLine hRead
    cases hRest : c.rest with
    | nil => simp [lineEnd, hRest] at hRead
    | cons t rest =>
        have hInline := hLine.rest t
          (hRest ▸ List.mem_cons_self ..)
        have hLeft : r = c.unexpected .lineEnd := by
          simpa [lineEnd, hRest, hInline.1, hInline.2,
            eq_comm] using hRead
        subst hLeft
        refine ⟨hLine, rfl, fun more last => ?_⟩
        refine Eq.trans ?_ (congrArg Except.error
          (c.unexpected_within more last .lineEnd))
        simp [lineEnd, Cursor.within, hRest, hInline.1,
          hInline.2]

/- Failing is failing inside the line. -/
theorem closes_fail
    (e : LineError) :
    Closes (fail e : Reader α) where
  keeps := (inline_fail e).keeps
  ok := fun _ h => nomatch h
  error := by
    rintro c _ hLine ⟨⟩
    exact ⟨hLine, rfl, fun _ _ => rfl⟩

theorem Closes.map
    (hp : Closes p)
    (g : α → β) :
    Closes (p >>= fun a => pure (g a)) where
  keeps := hp.keeps.bind fun a => (inline_pure _).keeps
  ok := by
    intro c b d hLine hRead more last
    rcases bind_eq_ok hRead with ⟨a, e, hFirst, hPure⟩
    rcases hp.ok hLine hFirst more last
      with ⟨e', hWithin, hRest⟩
    cases hPure
    exact ⟨e', bind_of_ok hWithin _, hRest⟩
  error := by
    intro c r hLine hRead
    cases hFirst : p c with
    | ok v =>
        rw [bind_of_ok hFirst] at hRead
        cases hRead
    | error r' =>
        rw [bind_of_error hFirst] at hRead
        cases hRead
        rcases hp.error hLine hFirst
          with ⟨hInner, hStop, hWithin⟩
        exact ⟨hInner, hStop, fun more last =>
          bind_of_error (hWithin more last) _⟩

/- What is read inside the line goes before. -/
theorem Inline.bind_closes
    (hp : Inline p)
    (hf : ∀ a, Closes (f a)) :
    Closes (p >>= f) where
  keeps := hp.keeps.bind fun a => (hf a).keeps
  ok := by
    intro c b d hLine hRead more last
    rcases bind_eq_ok hRead with ⟨a, e, hFirst, hSecond⟩
    have hWithin := (hp c).within_eq hLine more last
    have hInner := (hp c).inLine_left hLine
    have hStop := (hp c).stop
    rw [hFirst] at hWithin hInner hStop
    rcases (hf a).ok hInner hSecond more last
      with ⟨e', hNext, hRest⟩
    refine ⟨e', (bind_of_ok hWithin _).trans hNext, ?_⟩
    rw [hRest, Cursor.behind, Cursor.behind]
    exact hStop ▸ rfl
  error := by
    intro c r hLine hRead
    have hWithin := (hp c).within_eq hLine
    have hInner := (hp c).inLine_left hLine
    have hStop := (hp c).stop
    cases hFirst : p c with
    | error r' =>
        rw [hFirst] at hWithin hInner hStop
        rw [bind_of_error hFirst] at hRead
        cases hRead
        exact ⟨hInner, hStop, fun more last =>
          bind_of_error (hWithin more last) _⟩
    | ok v =>
        rw [hFirst] at hWithin hInner hStop
        rw [bind_of_ok hFirst] at hRead
        rcases (hf v.1).error hInner hRead
          with ⟨hLeft, hStop', hNext⟩
        exact ⟨hLeft, hStop'.trans hStop, fun more last =>
          (bind_of_ok (hWithin more last) _).trans
            (hNext more last)⟩

end Close

end Reader

end LightShow
