import LightShow.Proofs.Success
import LightShow.Proofs.WrittenLines

/-
  What is written on a line is read off it.

  A reader looks at the kinds of tokens only; their places go
  into the places of what it finds. So it is enough to know
  the kinds that are left before and after.

  Key definitions include:
    * `Reader.Accepts`
    * `Entry.unplaced`

  Main statements:
    * `Reader.Accepts.bind`
    * `Reader.accepts_ledList`
    * `Reader.accepts_action`
    * `Line.read_of_kinds`
-/

namespace LightShow

namespace Reader

variable {α β : Type}

------------------------------------------------------------
-- Readers That Succeed
------------------------------------------------------------

/-
  A reader that reads from the kinds `before` down to the
  kinds `after` and finds something with a property.
-/
def Accepts
    (p : Reader α)
    (before after : List Token.Kind)
    (P : α → Prop) : Prop :=
  ∀ c : Cursor, c.rest.map Token.kind = before →
    ∃ a d,
      p c = .ok (a, d) ∧
        d.rest.map Token.kind = after ∧
        P a

/- Readers follow one another. -/
theorem Accepts.bind
    {p : Reader α}
    {f : α → Reader β}
    {before between after : List Token.Kind}
    {P : α → Prop}
    {Q : β → Prop}
    (hp : Accepts p before between P)
    (hf : ∀ a, P a → Accepts (f a) between after Q) :
    Accepts (p >>= f) before after Q := by
  intro c hc
  rcases hp c hc with ⟨a, d, hFirst, hd, ha⟩
  rcases hf a ha d hd with ⟨b, e, hSecond, he, hb⟩
  refine ⟨b, e, ?_, he, hb⟩
  simp [Bind.bind, StateT.bind, Except.bind, hFirst, hSecond]

theorem accepts_pure
    {a : α}
    {P : α → Prop}
    (h : P a)
    (ks : List Token.Kind) :
    Accepts (pure a) ks ks P :=
  fun c hc => ⟨a, c, rfl, hc, h⟩

theorem accepts_ofExcept
    {r : Except LineError α}
    {a : α}
    {P : α → Prop}
    (hr : r = .ok a)
    (h : P a)
    (ks : List Token.Kind) :
    Accepts (ofExcept r) ks ks P := by
  subst hr
  exact fun c hc => ⟨a, c, rfl, hc, h⟩

/- A token that is accepted, whatever its place. -/
theorem accepts_take
    {select : Token → Option α}
    {kind : Token.Kind}
    {P : α → Prop}
    (h : ∀ t, t.kind = kind → ∃ a, select t = some a ∧ P a)
    (wanted : Wanted)
    (ks : List Token.Kind) :
    Accepts (take wanted select) (kind :: ks) ks P := by
  intro c hc
  rcases List.map_eq_cons_iff.mp hc
    with ⟨t, rest, hRest, hKind, hKinds⟩
  rcases h t hKind with ⟨a, hSelect, ha⟩
  refine ⟨a, c.after t rest, ?_, hKinds, ha⟩
  simp [take, hRest, hSelect]

theorem accepts_token
    (kind : Token.Kind)
    (ks : List Token.Kind) :
    Accepts (token kind) (kind :: ks) ks fun _ => True :=
  accepts_take (fun t ht => ⟨(), by simp [ht], trivial⟩) _ ks

theorem accepts_eat
    (kind : Token.Kind)
    (ks : List Token.Kind) :
    Accepts (eat kind) (kind :: ks) ks (· = true) := by
  intro c hc
  rcases List.map_eq_cons_iff.mp hc
    with ⟨t, rest, hRest, hKind, hKinds⟩
  exact ⟨true, c.after t rest, by simp [eat, hRest, hKind],
    hKinds, rfl⟩

/- A token of another kind is left. -/
theorem accepts_eat_other
    {kind : Token.Kind}
    {ks : List Token.Kind}
    (h : ks.head? ≠ some kind) :
    Accepts (eat kind) ks ks (· = false) := by
  intro c hc
  refine ⟨false, c, ?_, hc, rfl⟩
  unfold eat
  split
  · rfl
  · rename_i t rest hRest
    have hKind : t.kind ≠ kind := by
      rintro rfl
      rw [← hc, hRest] at h
      exact h rfl
    rw [if_neg hKind]

theorem accepts_previous
    (ks : List Token.Kind) :
    Accepts previous ks ks fun _ => True :=
  fun c hc => ⟨c.previous, c, rfl, hc, trivial⟩

theorem accepts_upcoming
    (ks : List Token.Kind) :
    Accepts upcoming ks ks fun _ => True :=
  fun c hc => ⟨c.peek.span, c, rfl, hc, trivial⟩

theorem accepts_lineEnd :
    Accepts lineEnd [] [] fun _ => True := by
  intro c hc
  have hRest : c.rest = [] := List.map_eq_nil_iff.mp hc
  exact ⟨(), c, by simp [lineEnd, hRest], hc, trivial⟩

------------------------------------------------------------
-- Words And Numbers
------------------------------------------------------------

theorem accepts_identifier
    (name : Name)
    (ks : List Token.Kind) :
    Accepts identifier (.word name.text :: ks) ks
      (·.unplaced = name.unplaced) := by
  refine accepts_take ?_ _ ks
  intro t ht
  exact ⟨⟨name.text, t.span⟩, by rw [ht], rfl⟩

theorem accepts_functionName
    (name : Name)
    (ks : List Token.Kind) :
    Accepts functionName (.function name.text :: ks) ks
      (·.unplaced = name.unplaced) := by
  refine accepts_take ?_ _ ks
  intro t ht
  exact ⟨⟨name.text, t.span⟩, by rw [ht], rfl⟩

theorem accepts_number
    (n : Nat)
    (ks : List Token.Kind) :
    Accepts number (.number n :: ks) ks (·.1 = n) := by
  refine accepts_take ?_ _ ks
  intro t ht
  exact ⟨(n, t.span), by rw [ht], rfl⟩

theorem accepts_settingValue
    (s : String)
    (ks : List Token.Kind) :
    Accepts settingValue (.quoted s :: ks) ks (· = s) := by
  refine accepts_take ?_ _ ks
  intro t ht
  exact ⟨s, by rw [ht], rfl⟩

theorem accepts_aliasText
    (s : String)
    (ks : List Token.Kind) :
    Accepts aliasText (.quoted s :: ks) ks (· = s) := by
  refine accepts_take ?_ _ ks
  intro t ht
  exact ⟨s, by rw [ht], rfl⟩

theorem accepts_timeUnit
    (u : TimeUnit)
    (ks : List Token.Kind) :
    Accepts timeUnit (.word u.suffix :: ks) ks
      (·.1 = u) := by
  have hUnit : TimeUnit.ofSuffix? u.suffix = some u := by
    cases u <;> decide
  exact accepts_take
    (fun t ht => ⟨(u, t.span), by simp [ht, hUnit], rfl⟩) _ ks

------------------------------------------------------------
-- Colors And Durations
------------------------------------------------------------

theorem accepts_channel
    {ch : Channel}
    {b : UInt8}
    (h : b.toNat ≤ ch.maxValue)
    (ks : List Token.Kind) :
    Accepts (channel ch) (.number b.toNat :: ks) ks
      (· = b) := by
  refine (accepts_number _ ks).bind ?_
  rintro ⟨n, span⟩ rfl
  simp only
  rw [if_neg (Nat.not_lt.mpr h)]
  refine accepts_pure ?_ ks
  exact UInt8.ofNat_toNat

/- Every channel of a color in range is read back. -/
theorem accepts_color
    {c : Color}
    (h : c.outOfRange? = none)
    (ks : List Token.Kind) :
    Accepts color (c.inks.filterMap Ink.kind? ++ ks) ks
      (· = c) := by
  have hChannel : ∀ ch ∈ Channel.all,
      c.get ch ≤ ch.maxValue := by
    simpa [Color.outOfRange?] using h
  simp only [Channel.all, List.forall_mem_cons] at hChannel
  rcases hChannel with ⟨hRed, hGreen, hBlue, hBright, -⟩
  refine (accepts_token _ _).bind fun _ _ => ?_
  refine (accepts_channel hRed _).bind ?_
  rintro _ rfl
  refine (accepts_token _ _).bind fun _ _ => ?_
  refine (accepts_channel hGreen _).bind ?_
  rintro _ rfl
  refine (accepts_token _ _).bind fun _ _ => ?_
  refine (accepts_channel hBlue _).bind ?_
  rintro _ rfl
  refine (accepts_token _ _).bind fun _ _ => ?_
  refine (accepts_channel hBright _).bind ?_
  rintro _ rfl
  refine (accepts_token _ _).bind fun _ _ => ?_
  refine accepts_pure ?_ ks
  rfl

theorem accepts_duration
    (d : Duration)
    (ks : List Token.Kind) :
    Accepts duration (d.inks.filterMap Ink.kind? ++ ks) ks
      (·.unplaced = d.unplaced) := by
  refine (accepts_number d.amount _).bind ?_
  rintro ⟨amount, start⟩ rfl
  refine (accepts_timeUnit d.unit _).bind ?_
  rintro ⟨unit, stop⟩ rfl
  refine accepts_pure ?_ ks
  rfl

------------------------------------------------------------
-- LED Lists
------------------------------------------------------------

/- One item of a list that goes on with something else. -/
theorem accepts_ledRange
    {n : Nat}
    (hRange : 1 ≤ n ∧ n ≤ LineFault.maxLed)
    {ks : List Token.Kind}
    (hNext : ks.head? ≠ some (.mark .minus)) :
    Accepts ledRange (.number n :: ks) ks (· = ⟨n, n⟩) := by
  refine (accepts_number n ks).bind ?_
  rintro ⟨n, span⟩ rfl
  have hEnd :
      Accepts (rangeEnd (n, span)) ks ks (·.1 = n) := by
    refine (accepts_eat_other hNext).bind ?_
    rintro _ rfl
    refine accepts_pure ?_ ks
    rfl
  refine hEnd.bind ?_
  rintro ⟨last, stop⟩ rfl
  refine accepts_ofExcept (a := LedRange.mk last last) ?_ ?_
    ks
  · simp only at hRange ⊢
    rw [checkRange, if_neg (by omega), if_neg (by omega),
      if_neg (by omega)]
  · rfl

theorem accepts_ledRanges
    {n : Nat}
    {ns : List Nat}
    (hRange : ∀ m ∈ n :: ns, 1 ≤ m ∧ m ≤ LineFault.maxLed)
    (ks : List Token.Kind) :
    Accepts ledRanges
      ((Ink.ofNumbers (n :: ns)).filterMap Ink.kind? ++
        .mark .rightBracket :: ks)
      (.mark .rightBracket :: ks)
      (· = (n :: ns).map fun m => ⟨m, m⟩) := by
  rcases List.forall_mem_cons.mp hRange with ⟨hFirst, hRest⟩
  induction ns generalizing n with
  | nil =>
      rw [ledRanges_eq]
      refine (accepts_ledRange hFirst ?_).bind ?_
      · exact nofun
      rintro _ rfl
      refine (accepts_eat_other ?_).bind ?_
      · exact nofun
      rintro _ rfl
      refine accepts_pure ?_ _
      rfl
  | cons m ns ih =>
      rw [ledRanges_eq]
      refine (accepts_ledRange hFirst ?_).bind ?_
      · exact nofun
      rintro _ rfl
      refine (accepts_eat _ _).bind ?_
      rintro _ rfl
      rcases List.forall_mem_cons.mp hRest
        with ⟨hSecond, hOthers⟩
      refine (ih hRest hSecond hOthers).bind ?_
      rintro _ rfl
      refine accepts_pure ?_ _
      rfl

end Reader

namespace LedRange

/- Items of one number each give these numbers. -/
theorem numbersAfter_singles
    {seen ns : List Nat}
    (hNew : ∀ n ∈ ns, n ∉ seen)
    (hNodup : ns.Nodup) :
    numbersAfter (seen.map fun n => ⟨n, n⟩)
        (ns.map fun n => ⟨n, n⟩) = ns := by
  induction ns generalizing seen with
  | nil => rfl
  | cons n ns ih =>
      rcases List.nodup_cons.mp hNodup with ⟨hFirst, hRest⟩
      have hn := hNew n (List.mem_cons_self ..)
      have hLater : ∀ m ∈ ns, m ∉ n :: seen := by
        intro m hm hSeen
        rcases List.mem_cons.mp hSeen with rfl | hSeen
        · exact hFirst hm
        · exact hNew m (List.mem_cons_of_mem n hm) hSeen
      have hKept :
          ((LedRange.mk n n).toList.filter fun m =>
            !(seen.map fun k => LedRange.mk k k).any
              (·.covers m)) = [n] := by
        have hOne : (LedRange.mk n n).toList = [n] := by
          simp [toList]
        have hOther : ∀ k ∈ seen, k ≤ n → k < n := by
          intro k hk hLe
          refine Nat.lt_of_le_of_ne hLe ?_
          rintro rfl
          exact hn hk
        simpa [hOne, covers] using hOther
      have hTail := ih hLater hRest
      simp only [List.map_cons] at hTail ⊢
      rw [numbersAfter, hKept, hTail]
      rfl

end LedRange

namespace Reader

theorem accepts_ledList
    {l : LedList}
    (h : l.WellFormed)
    (ks : List Token.Kind) :
    Accepts ledList (l.inks.filterMap Ink.kind? ++ ks) ks
      (·.unplaced = l.unplaced) := by
  rcases List.exists_cons_of_ne_nil h.nonempty
    with ⟨n, ns, hNumbers⟩
  have hRanges := accepts_ledRanges (hNumbers ▸ h.range) ks
  have hKinds :
      l.inks.filterMap Ink.kind? ++ ks =
        .mark .leftBracket ::
          ((Ink.ofNumbers (n :: ns)).filterMap Ink.kind? ++
            .mark .rightBracket :: ks) := by
    simp [LedList.inks, hNumbers, Ink.kind?]
  rw [hKinds]
  refine (accepts_upcoming _).bind fun _ _ => ?_
  refine (accepts_token _ _).bind fun _ _ => ?_
  refine hRanges.bind ?_
  rintro _ rfl
  refine (accepts_token _ _).bind fun _ _ => ?_
  refine (accepts_previous _).bind fun _ _ => ?_
  refine accepts_pure ?_ ks
  have hSame :
      LedRange.numbersAfter []
        ((n :: ns).map fun n => ⟨n, n⟩) = n :: ns :=
    LedRange.numbersAfter_singles
      (fun _ _ => List.not_mem_nil) (hNumbers ▸ h.nodup)
  simp only [LedList.unplaced, LedRange.numbers, hNumbers]
  exact congrArg (LedList.mk · .origin) hSame

------------------------------------------------------------
-- Statements
------------------------------------------------------------

theorem accepts_option
    (k : Keyword)
    (n : Nat)
    (ks : List Token.Kind) :
    Accepts (option k)
      ((Ink.ofOption k n).filterMap Ink.kind? ++ ks) ks
      (fun o => ∃ span, o = some (n, span)) := by
  refine (accepts_eat _ _).bind ?_
  rintro _ rfl
  refine (accepts_token _ _).bind fun _ _ => ?_
  refine (accepts_token _ _).bind fun _ _ => ?_
  refine (accepts_number n _).bind ?_
  rintro ⟨n, span⟩ rfl
  refine (accepts_token _ _).bind fun _ _ => ?_
  exact accepts_pure ⟨span, rfl⟩ ks

theorem accepts_no_option
    (k : Keyword) :
    Accepts (option k) [] [] (· = none) := by
  have hNone : ([] : List Token.Kind).head? ≠
      some (.mark .leftParen) := nofun
  refine (accepts_eat_other hNone).bind ?_
  rintro _ rfl
  refine accepts_pure ?_ _
  rfl

/- What an action writes behind its colon is read back. -/
theorem accepts_action
    {a : Action}
    (h : a.WellFormed)
    {start : Token}
    (hStart : start.kind = .keyword a.keyword) :
    Accepts (action start)
      (a.operands.filterMap Ink.kind?) []
      (·.unplaced = a.unplaced) := by
  unfold action
  rw [hStart]
  cases a with
  | glow leds shade =>
      have hKinds :
          (Action.glow leds shade).operands.filterMap
              Ink.kind? =
            leds.inks.filterMap Ink.kind? ++
              (shade.inks.filterMap Ink.kind? ++ []) := by
        simp [Action.operands, List.filterMap_cons,
          Ink.kind?]
      rw [hKinds]
      refine (accepts_ledList h.1 _).bind fun found hFound => ?_
      refine (accepts_color h.2 []).bind ?_
      rintro _ rfl
      refine accepts_pure ?_ _
      exact congrArg (Action.glow · _) hFound
  | ramp leds first last time =>
      have hKinds :
          (Action.ramp leds first last time).operands.filterMap
              Ink.kind? =
            leds.inks.filterMap Ink.kind? ++
              (first.inks.filterMap Ink.kind? ++
                .keyword .toward ::
                  (last.inks.filterMap Ink.kind? ++
                    .keyword .within ::
                      (time.inks.filterMap Ink.kind? ++
                        []))) := by
        simp [Action.operands, List.filterMap_cons,
          Ink.kind?]
      rw [hKinds]
      refine (accepts_ledList h.1 _).bind fun found hFound => ?_
      refine (accepts_color h.2.1 _).bind ?_
      rintro _ rfl
      refine (accepts_token _ _).bind fun _ _ => ?_
      refine (accepts_color h.2.2.1 _).bind ?_
      rintro _ rfl
      refine (accepts_token _ _).bind fun _ _ => ?_
      refine (accepts_duration time []).bind fun span hSpan => ?_
      refine accepts_pure ?_ _
      simp only [Action.unplaced, hFound, hSpan]
  | pause time =>
      refine (accepts_duration time []).bind fun span hSpan => ?_
      refine accepts_pure ?_ _
      exact congrArg Action.pause hSpan
  | here label =>
      refine (accepts_identifier label []).bind
        fun found hFound => ?_
      refine accepts_pure ?_ _
      exact congrArg Action.here hFound
  | goto label =>
      refine (accepts_identifier label []).bind
        fun found hFound => ?_
      refine accepts_pure ?_ _
      exact congrArg Action.goto hFound
  | call function count =>
      refine (accepts_functionName function _).bind
        fun found hFound => ?_
      refine (accepts_option .repeats count []).bind ?_
      rintro _ ⟨span, rfl⟩
      refine (accepts_ofExcept (a := count) (P := (· = count))
        (if_pos h.2) rfl _).bind ?_
      rintro _ rfl
      refine accepts_pure ?_ _
      exact congrArg (Action.call · _) hFound
  | callAsync function zOrder =>
      cases zOrder with
      | none =>
          refine (accepts_functionName function _).bind
            fun found hFound => ?_
          refine (accepts_no_option .zOrder).bind ?_
          rintro _ rfl
          refine (accepts_ofExcept (a := none)
            (P := (· = none)) rfl rfl _).bind ?_
          rintro _ rfl
          refine accepts_pure ?_ _
          exact congrArg (Action.callAsync · _) hFound
      | some z =>
          refine (accepts_functionName function _).bind
            fun found hFound => ?_
          refine (accepts_option .zOrder z []).bind ?_
          rintro _ ⟨span, rfl⟩
          refine (accepts_ofExcept (a := some z)
            (P := (· = some z)) (if_pos (h.2 z rfl)) rfl
            _).bind ?_
          rintro _ rfl
          refine accepts_pure ?_ _
          exact congrArg (Action.callAsync · _) hFound

end Reader

------------------------------------------------------------
-- Entries
------------------------------------------------------------

/- A setting without places. -/
def Setting.unplaced (d : Setting) : Setting :=
  ⟨d.key.unplaced, d.value, .origin⟩

/- An alias without places. -/
def Alias.unplaced (a : Alias) : Alias :=
  ⟨a.name.unplaced, a.value, .origin⟩

/- An entry without places. -/
def Entry.unplaced : Entry → Entry
  | .setting d => .setting d.unplaced
  | .aliasing a => .aliasing a.unplaced
  | .header name => .header name.unplaced
  | .statement s => .statement s.unplaced

namespace Reader

theorem accepts_setting
    (d : Setting)
    (start : Span) :
    Accepts (setting start)
      [.mark .colon, .word d.key.text, .mark .equals,
       .quoted d.value] []
      (·.unplaced = (Entry.setting d).unplaced) := by
  refine (accepts_token _ _).bind fun _ _ => ?_
  refine (accepts_identifier d.key _).bind fun key hKey => ?_
  refine (accepts_token _ _).bind fun _ _ => ?_
  refine (accepts_settingValue d.value []).bind ?_
  rintro _ rfl
  refine (accepts_previous _).bind fun _ _ => ?_
  refine accepts_lineEnd.bind fun _ _ => ?_
  refine accepts_pure ?_ _
  simp only [Entry.unplaced, Setting.unplaced, hKey]

theorem accepts_aliasLine
    (a : Alias)
    (start : Span) :
    Accepts (aliasLine start)
      [.mark .colon, .word a.name.text, .mark .equals,
       .quoted a.value] []
      (·.unplaced = (Entry.aliasing a).unplaced) := by
  refine (accepts_token _ _).bind fun _ _ => ?_
  refine (accepts_identifier a.name _).bind fun name hName => ?_
  refine (accepts_token _ _).bind fun _ _ => ?_
  refine (accepts_aliasText a.value []).bind ?_
  rintro _ rfl
  refine (accepts_previous _).bind fun _ _ => ?_
  refine accepts_lineEnd.bind fun _ _ => ?_
  refine accepts_pure ?_ _
  simp only [Entry.unplaced, Alias.unplaced, hName]

theorem accepts_statement
    {s : Statement}
    (h : s.action.WellFormed)
    {start : Token}
    (hStart : start.kind = .keyword s.action.keyword) :
    Accepts (statement start)
      (.mark .colon :: s.action.operands.filterMap Ink.kind?)
      [] (·.unplaced = (Entry.statement s).unplaced) := by
  refine (accepts_token _ _).bind fun _ _ => ?_
  refine (accepts_action h hStart).bind fun deed hDeed => ?_
  refine (accepts_previous _).bind fun _ _ => ?_
  refine accepts_lineEnd.bind fun _ _ => ?_
  refine accepts_pure ?_ _
  simp only [Entry.unplaced, Statement.unplaced, hDeed]

theorem accepts_header
    (name : Name) :
    Accepts (header name) [] []
      (·.unplaced = (Entry.header name).unplaced) := by
  refine accepts_lineEnd.bind fun _ _ => ?_
  refine accepts_pure ?_ _
  rfl

end Reader

namespace Entry

/- Whether an entry has to stand in a function. -/
def needsFunction : Entry → Bool
  | .statement _ => true
  | _ => false

/- The first token of an entry, and what it starts. -/
theorem exists_kinds
    (e : Entry) :
    ∃ first rest, e.kinds = first :: rest ∧
      ∀ (t : Token) (inFunction : Bool),
        t.kind = first → e.WellFormed →
          (e.needsFunction = true → inFunction = true) →
            Reader.Accepts (read inFunction t) rest []
              (·.unplaced = e.unplaced) := by
  cases e with
  | setting d =>
      refine ⟨_, _, rfl, ?_⟩
      intro t inFunction hKind _ _
      unfold read
      rw [hKind]
      exact Reader.accepts_setting d t.span
  | aliasing a =>
      refine ⟨_, _, rfl, ?_⟩
      intro t inFunction hKind _ _
      unfold read
      rw [hKind]
      exact Reader.accepts_aliasLine a t.span
  | header name =>
      refine ⟨_, _, rfl, ?_⟩
      intro t inFunction hKind _ _
      unfold read
      rw [hKind]
      exact Reader.accepts_header ⟨name.text, t.span⟩
  | statement s =>
      refine ⟨_, _, rfl, ?_⟩
      intro t inFunction hKind hWell hIn
      have hRead :
          read inFunction t = Reader.statement t := by
        unfold read
        rw [hKind, hIn rfl]
        cases s.action <;> rfl
      rw [hRead]
      exact Reader.accepts_statement hWell hKind

end Entry

/- A line that shows an entry is read as that entry. -/
theorem Line.read_of_kinds
    {line : Line}
    {e : Entry}
    (hKinds : line.tokens.map Token.kind = e.kinds)
    (hWell : e.WellFormed)
    {inFunction : Bool}
    (hIn : e.needsFunction = true → inFunction = true) :
    ∃ found,
      line.read inFunction = .ok (some found) ∧
        found.unplaced = e.unplaced := by
  rcases e.exists_kinds with ⟨first, rest, hSplit, hRead⟩
  rw [hSplit] at hKinds
  rcases List.map_eq_cons_iff.mp hKinds
    with ⟨t, ts, hTokens, hKind, hRest⟩
  rcases hRead t inFunction hKind hWell hIn
    ⟨ts, line.stop, t.span⟩ hRest
    with ⟨found, d, hFound, -, hSame⟩
  refine ⟨found, ?_, hSame⟩
  simp [Line.read, hTokens, hFound]

end LightShow
