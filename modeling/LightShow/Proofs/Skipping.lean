import LightShow.Proofs.SplicedLines
import LightShow.Script.Loops

/-
  Skipping tokens in loops.

  A loop ends if every pass that does not leave it leaves
  less to do. Over tokens that end with the end of the text,
  a cursor that has read no such token always has one in
  front of it and never looks at the last token from behind;
  so newlines and lines are skipped, as they are by recursion
  over the tokens.

  Key definitions include:
    * `Loop.Advances`
    * `Token.Ended`
    * `Cursor.On`

  Main statements:
    * `Loop.Advances.exists_fix`
    * `AliasTable.ended_splice`
    * `Cursor.advances_of_reads`
    * `Cursor.exists_overNewlines`
    * `Cursor.exists_toNextLine`
-/

namespace LightShow

------------------------------------------------------------
-- Loops That End
------------------------------------------------------------

namespace Loop

variable {σ β : Type} {pass : Pass σ β}

/-
  From states with `P` every pass comes to an end. A pass
  that goes on keeps `P` and leaves less to do, and one that
  leaves the loop does so with `R`.
-/
structure Advances
    (pass : Pass σ β)
    (P : σ → Prop)
    (R : β → Prop)
    (size : σ → Nat) : Prop where
  ends : ∀ s, P s → (pass s).Dom
  keeps : ∀ s next, P s → .inr next ∈ pass s → P next
  less : ∀ s next, P s → .inr next ∈ pass s →
    size next < size s
  leaves : ∀ s result, P s → .inl result ∈ pass s →
    R result

variable {P : σ → Prop} {R : β → Prop} {size : σ → Nat}

/-
  Such a loop has a result. What holds where it is left, and
  of a state if it holds of the next one, holds of the state
  that it starts from.
-/
theorem Advances.exists_fix
    (h : Advances pass P R size)
    {Q : σ → β → Prop}
    (hLeave : ∀ s result, P s →
      .inl result ∈ pass s → Q s result)
    (hAgain : ∀ s next result, P s →
      .inr next ∈ pass s → Q next result → Q s result)
    {s : σ}
    (hs : P s) :
    ∃ result ∈ pass.fix s, R result ∧ Q s result := by
  induction hSize : size s using Nat.strongRecOn
    generalizing s with
  | ind n ih =>
      rcases Part.dom_iff_mem.mp (h.ends s hs)
        with ⟨result | next, hPass⟩
      · exact ⟨result, PFun.fix_stop hPass,
          h.leaves s result hs hPass,
          hLeave s result hs hPass⟩
      · have hLess := h.less s next hs hPass
        have hNext := h.keeps s next hs hPass
        rcases ih _ (hSize ▸ hLess) hNext rfl
          with ⟨result, hFix, hR, hResult⟩
        refine ⟨result, ?_, hR,
          hAgain s next result hs hPass hResult⟩
        rwa [PFun.fix_fwd_eq hPass]

end Loop

------------------------------------------------------------
-- Tokens That End The Text
------------------------------------------------------------

theorem Token.isEnd_of_isNewline
    {t : Token}
    (h : t.isNewline = true) :
    t.isEnd = false := by
  rw [isNewline, beq_iff_eq] at h
  rw [isEnd, h]
  rfl

/- The last token, if there is one, ends the text. -/
def Token.Ended (ts : List Token) : Prop :=
  ∀ t ∈ ts.getLast?, t.isEnd = true

theorem Token.Ended.eq_nil
    {ts : List Token}
    (h : Ended ts)
    (hOpen : ∀ t ∈ ts, t.isEnd = false) :
    ts = [] := by
  cases hLast : ts.getLast? with
  | none => exact List.getLast?_eq_none_iff.mp hLast
  | some t =>
      have hNot := hOpen t (List.mem_of_getLast? hLast)
      rw [h t hLast] at hNot
      cases hNot

/- Tokens are all of one line, or one of them ends it. -/
theorem Token.cases_line
    (ts : List Token) :
    (∀ t ∈ ts, t.Inline) ∨
      ∃ line stop more, ts = line ++ stop :: more ∧
        (∀ t ∈ line, t.Inline) ∧ ¬stop.Inline := by
  induction ts with
  | nil => exact .inl nofun
  | cons t ts ih =>
      by_cases hFirst : t.Inline
      · rcases ih with hAll | ⟨line, stop, more, rfl, hLine,
          hStop⟩
        · exact .inl (List.forall_mem_cons.mpr
            ⟨hFirst, hAll⟩)
        · exact .inr ⟨t :: line, stop, more, rfl,
            List.forall_mem_cons.mpr ⟨hFirst, hLine⟩, hStop⟩
      · exact .inr ⟨[], t, ts, rfl, nofun, hFirst⟩

theorem Token.Ended.isEnd_getLastD
    {ts : List Token}
    (h : Ended ts) :
    (ts.getLastD (.endAt .start)).isEnd = true := by
  cases hLast : ts.getLast? with
  | none =>
      rw [List.getLastD_eq_getLast?, hLast]
      rfl
  | some t =>
      rw [List.getLastD_eq_getLast?, hLast]
      exact h t hLast

/-
  The token that ends the text is always put out, whatever
  is taken back on the lines before.
-/
theorem AliasTable.ended_splice
    (table : AliasTable)
    {ts : List Token}
    (h : Token.Ended ts) :
    Token.Ended (table.splice ts).1 := by
  rcases List.eq_nil_or_concat' ts
    with rfl | ⟨front, stop, rfl⟩
  · exact nofun
  · have hStop : stop.isEnd = true := h stop (by simp)
    have hNotInline : ¬stop.Inline := fun hInline => by
      simp [hInline.2] at hStop
    have hOut (p : Pass) :
        (Pass.step table p stop).out = stop :: p.out :=
      (Pass.step_stop hNotInline p).1
    simp only [splice, List.foldl_append, List.foldl_cons,
      List.foldl_nil, hOut, List.reverse_cons]
    simpa [Token.Ended] using hStop

------------------------------------------------------------
-- Cursors On Tokens
------------------------------------------------------------

namespace Cursor

variable {ts : List Token} {c : Cursor}

/- A cursor on some tokens that read no end of the text. -/
structure On (c : Cursor) (ts : List Token) : Prop where
  stop : c.stop = ts.getLastD (.endAt .start)
  read : ∃ front, front ++ c.rest = ts ∧
    ∀ t ∈ front, t.isEnd = false

theorem on_start (ts : List Token) : (start ts).On ts where
  stop := rfl
  read := ⟨[], rfl, nofun⟩

theorem On.isEnd_stop
    (h : c.On ts)
    (hEnded : Token.Ended ts) :
    c.stop.isEnd = true :=
  h.stop ▸ hEnded.isEnd_getLastD

/- Not all tokens are read, unless there are none. -/
theorem On.eq_nil
    (h : c.On ts)
    (hEnded : Token.Ended ts)
    (hRest : c.rest = []) :
    ts = [] := by
  rcases h.read with ⟨front, hFront, hRead⟩
  rw [hRest, List.append_nil] at hFront
  exact hEnded.eq_nil (hFront ▸ hRead)

/- What is left is nothing, or starts with the next token. -/
theorem rest_cases
    (c : Cursor) :
    c.rest = [] ∨ c.rest = c.peek :: c.advance.rest := by
  unfold peek advance
  cases c.rest with
  | nil => exact .inl rfl
  | cons t rest => exact .inr rfl

/- An end of the text at a cursor is the first one. -/
theorem On.rest_of_isEnd
    (h : c.On ts)
    (hPeek : c.peek.isEnd = true) :
    c.rest = ts.dropWhile fun t => !t.isEnd := by
  rcases h.read with ⟨front, rfl, hRead⟩
  have hFront : ∀ t ∈ front, (!t.isEnd) = true := by
    intro t ht
    rw [hRead t ht]
    rfl
  rw [List.dropWhile_append_of_pos hFront]
  rcases c.rest_cases with hRest | hRest
  · rw [hRest, List.dropWhile_nil]
  · rw [hRest]
    simp [hPeek]

/- A token in front of the end is still to be read. -/
theorem On.rest_eq
    (h : c.On ts)
    (hEnded : Token.Ended ts)
    (hPeek : c.peek.isEnd = false) :
    c.rest = c.peek :: c.advance.rest := by
  refine c.rest_cases.resolve_left fun hRest => ?_
  have hStop := h.isEnd_stop hEnded
  simp [peek, hRest, hStop] at hPeek

theorem stop_advance
    (c : Cursor) :
    c.advance.stop = c.stop := by
  unfold advance
  split <;> rfl

theorem On.advance
    (h : c.On ts)
    (hEnded : Token.Ended ts)
    (hPeek : c.peek.isEnd = false) :
    c.advance.On ts := by
  refine ⟨(stop_advance c).trans h.stop, ?_⟩
  rcases h.read with ⟨front, hFront, hRead⟩
  rw [h.rest_eq hEnded hPeek] at hFront
  refine ⟨front ++ [c.peek], by simpa using hFront, ?_⟩
  intro t ht
  rcases List.mem_append.mp ht with ht | ht
  · exact hRead t ht
  · exact List.mem_singleton.mp ht ▸ hPeek

theorem On.unread_advance
    (h : c.On ts)
    (hEnded : Token.Ended ts)
    (hPeek : c.peek.isEnd = false) :
    c.advance.unread < c.unread := by
  rw [unread, unread, h.rest_eq hEnded hPeek]
  exact Nat.lt_succ_self _

------------------------------------------------------------
-- Loops Over Tokens
------------------------------------------------------------

variable {pass : Loop.Pass Cursor Cursor}

/-
  A loop ends if its passes go on by reading a token that is
  not the end of the text, and read no other where they leave
  it.
-/
theorem advances_of_reads
    (hEnded : Token.Ended ts)
    (hEnds : ∀ c, (pass c).Dom)
    (hAgain : ∀ c d, .inr d ∈ pass c →
      c.peek.isEnd = false ∧ d = c.advance)
    (hLeave : ∀ c d, .inl d ∈ pass c →
      d = c ∨ (c.peek.isEnd = false ∧ d = c.advance)) :
    Loop.Advances pass (·.On ts) (·.On ts) unread where
  ends := fun c _ => hEnds c
  keeps := by
    intro c d h hPass
    rcases hAgain c d hPass with ⟨hOpen, rfl⟩
    exact h.advance hEnded hOpen
  less := by
    intro c d h hPass
    rcases hAgain c d hPass with ⟨hOpen, rfl⟩
    exact h.unread_advance hEnded hOpen
  leaves := by
    intro c d h hPass
    rcases hLeave c d hPass with rfl | ⟨hOpen, rfl⟩
    · exact h
    · exact h.advance hEnded hOpen

------------------------------------------------------------
-- Skipping Tokens
------------------------------------------------------------

theorem newlinePass_again
    {d : Cursor}
    (h : .inr d ∈ newlinePass c) :
    c.peek.isNewline = true ∧ d = c.advance := by
  unfold newlinePass at h
  split at h
  · cases Part.mem_some_iff.mp h
    exact ⟨‹_›, rfl⟩
  · cases Part.mem_some_iff.mp h

theorem newlinePass_leave
    {d : Cursor}
    (h : .inl d ∈ newlinePass c) :
    c.peek.isNewline = false ∧ d = c := by
  unfold newlinePass at h
  split at h
  · cases Part.mem_some_iff.mp h
  · cases Part.mem_some_iff.mp h
    exact ⟨Bool.eq_false_iff.mpr ‹_›, rfl⟩

/- Each pass over newlines reads one. -/
theorem advances_newlinePass
    (hEnded : Token.Ended ts) :
    Loop.Advances newlinePass (·.On ts) (·.On ts)
      unread := by
  refine advances_of_reads hEnded ?_ ?_ ?_
  · intro c
    unfold newlinePass
    split <;> exact trivial
  · intro c d hPass
    rcases newlinePass_again hPass with ⟨hNewline, hNext⟩
    exact ⟨Token.isEnd_of_isNewline hNewline, hNext⟩
  · exact fun c d hPass => .inl (newlinePass_leave hPass).2

theorem skipNewlines_rest
    (h : c.peek.isNewline = false) :
    Token.skipNewlines c.rest = c.rest := by
  rcases c.rest_cases with hRest | hRest
  · rw [hRest]
    rfl
  · rw [hRest]
    exact Token.skipNewlines_of_inline h _

/- Skipping newlines in a loop ends behind them. -/
theorem exists_overNewlines
    (hEnded : Token.Ended ts)
    (h : c.On ts) :
    ∃ d ∈ c.overNewlines, d.On ts ∧
      d.rest = Token.skipNewlines c.rest ∧
      d.peek.isNewline = false := by
  refine (advances_newlinePass hEnded).exists_fix
    (Q := fun c d =>
      d.rest = Token.skipNewlines c.rest ∧
        d.peek.isNewline = false) ?_ ?_ h
  · intro c d _ hPass
    rcases newlinePass_leave hPass with ⟨hNewline, rfl⟩
    exact ⟨(skipNewlines_rest hNewline).symm, hNewline⟩
  · intro c next d h hPass hNext
    rcases newlinePass_again hPass with ⟨hNewline, rfl⟩
    have hRest := h.rest_eq hEnded
      (Token.isEnd_of_isNewline hNewline)
    have hSkip :
        Token.skipNewlines c.rest =
          Token.skipNewlines c.advance.rest := by
      rw [hRest, Token.skipNewlines,
        List.dropWhile_cons_of_pos hNewline]
      rfl
    rwa [hSkip]

theorem linePass_again
    {d : Cursor}
    (h : .inr d ∈ linePass c) :
    c.peek.Inline ∧ d = c.advance := by
  unfold linePass at h
  split at h
  · cases Part.mem_some_iff.mp h
  split at h
  · cases Part.mem_some_iff.mp h
  · rename_i hEnd hNewline
    cases Part.mem_some_iff.mp h
    exact ⟨⟨Bool.eq_false_iff.mpr hNewline,
      Bool.eq_false_iff.mpr hEnd⟩, rfl⟩

theorem linePass_leave
    {d : Cursor}
    (h : .inl d ∈ linePass c) :
    (c.peek.isEnd = true ∧ d = c) ∨
      (c.peek.isNewline = true ∧ d = c.advance) := by
  unfold linePass at h
  split at h
  · cases Part.mem_some_iff.mp h
    exact .inl ⟨‹_›, rfl⟩
  split at h
  · cases Part.mem_some_iff.mp h
    exact .inr ⟨‹_›, rfl⟩
  · cases Part.mem_some_iff.mp h

/- Each pass to the end of a line reads one token of it. -/
theorem advances_linePass
    (hEnded : Token.Ended ts) :
    Loop.Advances linePass (·.On ts) (·.On ts)
      unread := by
  refine advances_of_reads hEnded ?_ ?_ ?_
  · intro c
    unfold linePass
    split
    · exact trivial
    · split <;> exact trivial
  · intro c d hPass
    rcases linePass_again hPass with ⟨hInline, hNext⟩
    exact ⟨hInline.2, hNext⟩
  · intro c d hPass
    rcases linePass_leave hPass
      with ⟨-, hNext⟩ | ⟨hNewline, hNext⟩
    · exact .inl hNext
    · exact .inr
        ⟨Token.isEnd_of_isNewline hNewline, hNext⟩

theorem skipLine_rest_of_isEnd
    (h : c.peek.isEnd = true) :
    Token.skipLine c.rest = c.rest := by
  rcases c.rest_cases with hRest | hRest
  · rw [hRest]
    rfl
  · rw [hRest]
    exact if_pos h

theorem skipLine_rest_of_inline
    (h : c.On ts)
    (hEnded : Token.Ended ts)
    (hPeek : c.peek.Inline) :
    Token.skipLine c.rest =
      Token.skipLine c.advance.rest := by
  rw [h.rest_eq hEnded hPeek.2, Token.skipLine]
  simp [hPeek.1, hPeek.2]

/- Skipping a line in a loop ends behind its newline. -/
theorem exists_fix_linePass
    (hEnded : Token.Ended ts)
    (h : c.On ts) :
    ∃ d ∈ linePass.fix c, d.On ts ∧
      d.rest = Token.skipLine c.rest := by
  refine (advances_linePass hEnded).exists_fix
    (Q := fun c d => d.rest = Token.skipLine c.rest) ?_ ?_ h
  · intro c d h hPass
    rcases linePass_leave hPass
      with ⟨hEnd, rfl⟩ | ⟨hNewline, rfl⟩
    · exact (skipLine_rest_of_isEnd hEnd).symm
    · have hOpen := Token.isEnd_of_isNewline hNewline
      rw [h.rest_eq hEnded hOpen, Token.skipLine]
      simp [hOpen, hNewline]
  · intro c next d h hPass hNext
    rcases linePass_again hPass with ⟨hInline, rfl⟩
    rwa [skipLine_rest_of_inline h hEnded hInline]

/- From anywhere in a line, loops find the next one. -/
theorem exists_toNextLine
    (hEnded : Token.Ended ts)
    (h : c.On ts) :
    ∃ d ∈ c.toNextLine, d.On ts ∧
      d.rest =
        Token.skipNewlines (Token.skipLine c.rest) := by
  rcases exists_fix_linePass hEnded h
    with ⟨line, hLine, hOn, hRest⟩
  rcases exists_overNewlines hEnded hOn
    with ⟨d, hSkipped, hNext, hSkip, -⟩
  exact ⟨d, Part.mem_bind hLine hSkipped, hNext,
    by rw [hSkip, hRest]⟩

end Cursor

end LightShow
