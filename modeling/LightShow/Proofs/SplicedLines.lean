import LightShow.Proofs.LexicalTokens
import LightShow.Proofs.LineRecovery

/-
  Aliases are replaced line by line.

  The pass over all tokens keeps in mind where a line was
  entered and whether the rest of it is dropped. Alias texts
  hold no newline, so a line is entered where one starts, and
  what comes of it does not depend on what was put out before:
  the pass comes to the same as replacing each line alone.

  Key definitions include:
    * `Line.spliced`
    * `AliasTable.Inline`
    * `AliasTable.Pass.Fresh`

  Main statements:
    * `AliasTable.put_append`
    * `AliasTable.Pass.foldl_line`
    * `AliasTable.splice_chain`
    * `AliasTable.chain_spliced`
-/

namespace LightShow

theorem Token.inline_iff
    {t : Token} :
    t.Inline ↔ t.kind ≠ .newline ∧ t.kind ≠ .endOfFile := by
  simp [Inline, isNewline, isEnd]

theorem Token.forall_inline_iff
    {ts : List Token} :
    (∀ t ∈ ts, t.Inline) ↔
      ∀ t ∈ ts, t.kind ≠ .newline ∧ t.kind ≠ .endOfFile :=
  forall₂_congr fun _ _ => inline_iff

/- A line with its aliases replaced. -/
def Line.spliced (table : AliasTable) (l : Line) : Line :=
  ⟨(table.spliceLine l.tokens).1, l.stop⟩

namespace AliasTable

/- A table whose texts neither end a line nor the text. -/
def Inline (table : AliasTable) : Prop :=
  table.Holds fun kind => kind ≠ .newline ∧ kind ≠ .endOfFile

variable {table : AliasTable}

------------------------------------------------------------
-- What Was Put Out Before The Line
------------------------------------------------------------

section Base

variable {base : List Token}
variable (hBase : endsInNumber base = false)
include hBase

theorem endsInNumber_append
    (out : List Token) :
    endsInNumber (out ++ base) = endsInNumber out := by
  cases out with
  | nil => exact hBase
  | cons t out =>
      rcases t with ⟨kind, span⟩
      cases kind <;> rfl

omit hBase in
theorem foldlM_append
    {α ε : Type}
    {f : List Token → α → Except ε (List Token)}
    (h : ∀ out a, f (out ++ base) a =
      (f out a).map (· ++ base))
    (as : List α)
    (out : List Token) :
    as.foldlM f (out ++ base) =
      (as.foldlM f out).map (· ++ base) := by
  induction as generalizing out with
  | nil => rfl
  | cons a as ih =>
      rw [List.foldlM_cons, List.foldlM_cons, h]
      cases f out a with
      | error e => rfl
      | ok new => exact ih new

/- Nothing but a number in front of it matters to a word. -/
theorem expand_append
    (span : Span)
    (levels : Nat)
    (out : List Token)
    (kind : Token.Kind) :
    table.expand span levels (out ++ base) kind =
      (table.expand span levels out kind).map
        (· ++ base) := by
  induction levels generalizing out kind with
  | zero =>
      cases kind with
      | word name =>
          simp only [expand, endsInNumber_append hBase]
          split
          · rfl
          · cases table.body? name <;> rfl
      | _ => rfl
  | succ levels ih =>
      cases kind with
      | word name =>
          simp only [expand, endsInNumber_append hBase]
          split
          · rfl
          · cases table.body? name with
            | none => rfl
            | some body => exact foldlM_append ih body out
      | _ => rfl

theorem put_append
    (out : List Token)
    (t : Token) :
    table.put (out ++ base) t =
      (table.put out t).map (· ++ base) := by
  unfold put
  rw [expand_append hBase]
  cases table.expand t.span AliasFault.maxDepth out t.kind
  · rfl
  · rfl

end Base

------------------------------------------------------------
-- The Pass Inside A Line
------------------------------------------------------------

namespace Pass

variable {p : Pass}
variable {tokens : List Token}

/- A pass that takes the next token as the first of a line. -/
structure Fresh (p : Pass) : Prop where
  start : p.atLineStart = true
  going : p.skipping = false

theorem Fresh.endsInNumber_out
    (h : p.Fresh) :
    endsInNumber p.out = false := by
  have hStart := h.start
  unfold atLineStart at hStart
  split at hStart
  · rename_i hOut
    rw [hOut]
    rfl
  · rename_i t out hOut
    rcases t with ⟨kind, span⟩
    cases kind with
    | number n => cases hStart
    | _ => rw [hOut]; rfl

/- A pass that is in a line, behind its first token. -/
def Inside (p : Pass) : Prop :=
  p.atLineStart = false ∧ p.skipping = false

theorem Inside.enter_eq
    (h : p.Inside)
    (t : Token) :
    p.enter t = p := by
  simp [enter, h.1]

theorem inside_of_cons
    {t : Token}
    {out : List Token}
    (hOut : p.out = t :: out)
    (ht : t.isNewline = false)
    (hGoing : p.skipping = false) :
    p.Inside := by
  refine ⟨?_, hGoing⟩
  rw [atLineStart, hOut]
  exact ht

/- The rest of a line is dropped behind a fault. -/
theorem foldl_of_skipping
    (hSkipping : p.skipping = true)
    (hTokens : ∀ t ∈ tokens, t.Inline) :
    tokens.foldl (step table) p = p := by
  induction tokens with
  | nil => rfl
  | cons t tokens ih =>
      rcases List.forall_mem_cons.mp hTokens
        with ⟨hFirst, hRest⟩
      have hStep : step table p t = p := by
        simp [step, enter, hSkipping, hFirst.1, hFirst.2]
      rw [List.foldl_cons, hStep, ih hRest]

/- Other lines are put out as they are. -/
theorem foldl_of_plain
    (hInside : p.Inside)
    (hPlain : p.splicing = false)
    (hTokens : ∀ t ∈ tokens, t.Inline) :
    tokens.foldl (step table) p =
      { p with out := tokens.reverse ++ p.out } := by
  induction tokens generalizing p with
  | nil => rfl
  | cons t tokens ih =>
      rcases List.forall_mem_cons.mp hTokens
        with ⟨hFirst, hRest⟩
      have hStep :
          step table p t = { p with out := t :: p.out } := by
        simp [step, hInside.enter_eq, hInside.2, hPlain,
          hFirst.1, hFirst.2]
      have hNext : Inside { p with out := t :: p.out } :=
        inside_of_cons rfl hFirst.1 hInside.2
      rw [List.foldl_cons, hStep, ih hNext hPlain hRest]
      simp

/-
  On a line that takes aliases the pass does what is done to
  the line alone, on top of what was put out before.
-/
theorem foldl_of_splicing
    (hTable : table.Inline)
    {base line : List Token}
    (hBase : endsInNumber base = false)
    (hLine : ∀ t ∈ line, t.Inline)
    (hNonempty : line ≠ [])
    (hOut : p.out = line ++ base)
    (hBefore : p.before = base)
    (hSplicing : p.splicing = true)
    (hGoing : p.skipping = false)
    (hTokens : ∀ t ∈ tokens, t.Inline) :
    tokens.foldl (step table) p =
      match tokens.foldlM (put table) line with
      | .ok out => { p with out := out ++ base }
      | .error fault =>
          { p with
            out := base
            skipping := true
            faults := fault :: p.faults } := by
  induction tokens generalizing p line with
  | nil =>
      cases p
      cases hOut
      rfl
  | cons t tokens ih =>
      rcases List.forall_mem_cons.mp hTokens
        with ⟨hFirst, hRest⟩
      have hInside : p.Inside := by
        cases line with
        | nil => exact absurd rfl hNonempty
        | cons u line =>
            exact inside_of_cons hOut
              (hLine u (List.mem_cons_self ..)).1 hGoing
      have hStep :
          step table p t =
            match put table line t with
            | .ok out => { p with out := out ++ base }
            | .error fault =>
                { p with
                  out := base
                  skipping := true
                  faults := fault :: p.faults } := by
        simp only [step, hInside.enter_eq, hFirst.1, hFirst.2,
          hGoing, hSplicing, hOut, put_append hBase]
        cases put table line t with
        | ok out => rfl
        | error fault => simp [Except.map, hBefore]
      rw [List.foldl_cons, List.foldlM_cons, hStep]
      cases hPut : put table line t with
      | error fault => exact foldl_of_skipping rfl hRest
      | ok out =>
          -- what is put out keeps the pass inside the line
          have hKind := Token.inline_iff.mp hFirst
          have hInline : ∀ u ∈ out, u.Inline :=
            Token.forall_inline_iff.mpr
              (forall_put hTable hKind hPut
                (Token.forall_inline_iff.mp hLine))
          have hMore : out ≠ [] := by
            rcases (extends_put hTable hKind hPut).exists_append
              with ⟨more, rfl, -⟩
            simp [hNonempty]
          exact ih hInline hMore rfl hBefore hSplicing hGoing
            hRest

------------------------------------------------------------
-- The Pass Over A Whole Line
------------------------------------------------------------

/- The first token of a line alone says if it takes aliases. -/
theorem takesAliases_singleton
    (t : Token)
    (tokens : List Token) :
    takesAliases (t :: tokens) = takesAliases [t] := by
  rcases t with ⟨kind, span⟩
  cases kind <;> rfl

/- The first word of a line that takes aliases stays. -/
theorem put_of_takesAliases
    {t : Token}
    (h : takesAliases [t] = true)
    (out : List Token) :
    put table out t = .ok (t :: out) := by
  rcases t with ⟨kind, span⟩
  cases kind with
  | keyword k => rfl
  | _ => cases h

/- What a pass puts out for a line, and what it reports. -/
theorem foldl_line
    (hTable : table.Inline)
    (hFresh : p.Fresh)
    (hTokens : ∀ t ∈ tokens, t.Inline) :
    (tokens.foldl (step table) p).out =
        (table.spliceLine tokens).1.reverse ++ p.out ∧
      (tokens.foldl (step table) p).faults =
        (table.spliceLine tokens).2.reverse ++ p.faults := by
  cases tokens with
  | nil => exact ⟨rfl, rfl⟩
  | cons t tokens =>
      rcases List.forall_mem_cons.mp hTokens
        with ⟨hFirst, hRest⟩
      have hEnter :
          p.enter t =
            { p with
              before := p.out
              splicing := takesAliases [t] } := by
        simp [enter, hFresh.start, hFresh.going]
      by_cases hTakes : takesAliases [t] = true
      · have hStep :
            step table p t =
              { p with
                out := t :: p.out
                before := p.out
                splicing := true } := by
          simp [step, hEnter, hFirst.1, hFirst.2,
            hFresh.going, hTakes, put_of_takesAliases]
        have hLine := foldl_of_splicing (p := { p with
            out := t :: p.out
            before := p.out
            splicing := true })
          hTable hFresh.endsInNumber_out
          (List.forall_mem_singleton.mpr hFirst)
          (List.cons_ne_nil t [])
          (show _ = [t] ++ p.out from rfl) rfl rfl
          hFresh.going hRest
        rw [List.foldl_cons, hStep, hLine, spliceLine,
          takesAliases_singleton, if_pos hTakes,
          List.foldlM_cons, put_of_takesAliases hTakes]
        simp only [bind, Except.bind]
        cases tokens.foldlM (put table) [t] with
        | ok out => exact ⟨by simp, rfl⟩
        | error fault => exact ⟨rfl, rfl⟩
      · have hPlain : takesAliases [t] = false :=
          Bool.eq_false_iff.mpr hTakes
        have hStep :
            step table p t =
              { p with
                out := t :: p.out
                before := p.out
                splicing := false } := by
          simp [step, hEnter, hFirst.1, hFirst.2,
            hFresh.going, hPlain]
        have hInside : Inside { p with
            out := t :: p.out
            before := p.out
            splicing := false } :=
          inside_of_cons rfl hFirst.1 hFresh.going
        rw [List.foldl_cons, hStep,
          foldl_of_plain hInside rfl hRest, spliceLine,
          takesAliases_singleton, if_neg hTakes]
        simp

/- The token that ends a line is put out behind it. -/
theorem step_stop
    {t : Token}
    (h : ¬t.Inline)
    (p : Pass) :
    (step table p t).out = t :: p.out ∧
      (step table p t).faults = p.faults ∧
      (step table p t).skipping = false := by
  have hStop : (t.isNewline || t.isEnd) = true := by
    rcases Token.kind_of_not_inline h with hKind | hKind
    · simp [Token.isNewline, hKind]
    · simp [Token.isEnd, hKind]
  have hEnter :
      (p.enter t).out = p.out ∧
        (p.enter t).faults = p.faults := by
    unfold enter
    split <;> exact ⟨rfl, rfl⟩
  simp [step, hStop, hEnter.1, hEnter.2]

theorem foldl_all
    (hTable : table.Inline)
    (hFresh : p.Fresh)
    {l : Line}
    (h : l.Whole) :
    (l.all.foldl (step table) p).out =
        l.stop :: ((table.spliceLine l.tokens).1.reverse ++
          p.out) ∧
      (l.all.foldl (step table) p).faults =
        (table.spliceLine l.tokens).2.reverse ++ p.faults ∧
      (l.all.foldl (step table) p).skipping = false := by
  rcases foldl_line hTable hFresh h.tokens
    with ⟨hOut, hFaults⟩
  rcases step_stop h.stop (l.tokens.foldl (step table) p)
    with ⟨hStop, hSame, hGoing⟩
  rw [Line.all, List.foldl_append, List.foldl_cons,
    List.foldl_nil, hStop, hSame, hOut, hFaults]
  exact ⟨rfl, rfl, hGoing⟩

end Pass

------------------------------------------------------------
-- The Pass Over All Lines
------------------------------------------------------------

/- What a pass puts out for lines, and what it reports. -/
theorem foldl_chain
    (hTable : table.Inline)
    {lines : List Line}
    (h : Line.Chain lines)
    {p : Pass}
    (hFresh : p.Fresh) :
    ((lines.flatMap Line.all).foldl (Pass.step table) p).out =
        ((lines.map (Line.spliced table)).flatMap
          Line.all).reverse ++ p.out ∧
      ((lines.flatMap Line.all).foldl (Pass.step table)
          p).faults =
        (lines.flatMap fun l =>
          (table.spliceLine l.tokens).2).reverse ++
            p.faults := by
  induction h generalizing p with
  | @last l hTokens hStop =>
      have hWhole := (Line.Chain.last hTokens hStop).whole l
        (List.mem_singleton_self l)
      rcases Pass.foldl_all hTable hFresh hWhole
        with ⟨hOut, hFaults, -⟩
      simp only [List.flatMap_cons, List.flatMap_nil,
        List.append_nil, List.map_cons, List.map_nil, hOut,
        hFaults]
      simp [Line.spliced, Line.all]
  | @cons l lines hTokens hStop hRest ih =>
      have hWhole := (Line.Chain.cons hTokens hStop hRest).whole
        l (List.mem_cons_self ..)
      rcases Pass.foldl_all hTable hFresh hWhole
        with ⟨hOut, hFaults, hGoing⟩
      have hNext :
          (l.all.foldl (Pass.step table) p).Fresh := {
        start := by rw [Pass.atLineStart, hOut]; exact hStop
        going := hGoing }
      rcases ih hNext with ⟨hOuts, hMore⟩
      rw [List.flatMap_cons, List.foldl_append, hOuts, hMore,
        hOut, hFaults]
      simp [Line.spliced, Line.all]

/- Each line is spliced on its own. -/
theorem splice_chain
    (hTable : table.Inline)
    {lines : List Line}
    (h : Line.Chain lines) :
    table.splice (lines.flatMap Line.all) =
      ((lines.map (Line.spliced table)).flatMap Line.all,
        lines.flatMap fun l =>
          (table.spliceLine l.tokens).2) := by
  have hFresh : Pass.Fresh {} := ⟨rfl, rfl⟩
  rcases foldl_chain hTable h hFresh with ⟨hOut, hFaults⟩
  simp [splice, hOut, hFaults]

/- Splicing keeps lines apart. -/
theorem chain_spliced
    (hTable : table.Inline)
    {lines : List Line}
    (h : Line.Chain lines) :
    Line.Chain (lines.map (Line.spliced table)) := by
  have hInline {l : Line} (hTokens : ∀ t ∈ l.tokens, t.Inline) :
      ∀ t ∈ (l.spliced table).tokens, t.Inline :=
    Token.forall_inline_iff.mpr (forall_spliceLine hTable
      (Token.forall_inline_iff.mp hTokens))
  induction h with
  | last hTokens hStop =>
      exact .last (hInline hTokens) hStop
  | cons hTokens hStop _ ih =>
      exact .cons (hInline hTokens) hStop ih

/- Lines without aliases are put out as they are. -/
theorem splice_of_unchanged
    {table : AliasTable}
    (hTable : table.Inline)
    {lines : List Line}
    (hChain : Line.Chain lines)
    (h : ∀ l ∈ lines,
      table.spliceLine l.tokens = (l.tokens, [])) :
    table.splice (lines.flatMap Line.all) =
      (lines.flatMap Line.all, []) := by
  have hSame : lines.map (Line.spliced table) = lines := by
    refine (List.map_congr_left fun l hl => ?_).trans
      (List.map_id lines)
    rw [Line.spliced, h l hl]
    rfl
  have hNone :
      (lines.flatMap fun l =>
        (table.spliceLine l.tokens).2) = [] := by
    refine List.flatMap_eq_nil_iff.mpr fun l hl => ?_
    rw [h l hl]
  rw [splice_chain hTable hChain, hSame, hNone]

end AliasTable

end LightShow
