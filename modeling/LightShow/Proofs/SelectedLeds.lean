import LightShow.Proofs.Admission
import LightShow.Proofs.InRange
import LightShow.Proofs.LineReaders

/-
  The LEDs that a line selects, from the line to the wire.

  A line mentions LEDs by number, from one, alone or in
  ranges that may overlap. Its list has each of them once.
  Whatever the line is expanded to selects the same LEDs,
  counted from zero, and sends one bit for each LED of the
  device, the first LED first.

  Key definitions include:
    * `LedItem`
    * `LedItem.Lists`
    * `Record.Selects`
    * `Reader.Passes`
    * `Op.EndsInBitmap`
    * `Expansion.Emits`

  Main statements:
    * `LedRange.mem_numbersAfter`
    * `LedRange.pairwise_idxOf_numbersAfter`
    * `Reader.passes_ledList`
    * `Op.Shows.endsInBitmap`
    * `Op.Shows.exists_record`
    * `Line.selected_leds_reach_the_wire`
-/

namespace LightShow

------------------------------------------------------------
-- Items
------------------------------------------------------------

/- One item of an LED list: a number, or two with a minus. -/
inductive LedItem where
  | one (number : Nat)
  | span (first last : Nat)
deriving DecidableEq, Repr

namespace LedItem

/- The LEDs from the first to the last one of an item. -/
def range : LedItem → LedRange
  | .one n => ⟨n, n⟩
  | .span first last => ⟨first, last⟩

/- An item covers its two ends and all between. -/
def Covers (item : LedItem) (n : Nat) : Prop :=
  item.range.first ≤ n ∧ n ≤ item.range.last

/- The tokens of an item. -/
def kinds : LedItem → List Token.Kind
  | .one n => [.number n]
  | .span first last =>
      [.number first, .mark .minus, .number last]

/- The tokens of some items, commas between them. -/
def listKinds : List LedItem → List Token.Kind
  | [] => []
  | [item] => item.kinds
  | item :: other :: rest =>
      item.kinds ++
        .mark .comma :: listKinds (other :: rest)

/- Every number that some items mention, in this order. -/
def mentions (items : List LedItem) : List Nat :=
  items.flatMap fun item => item.range.toList

/-
  The numbers that some items cover, each one once, in the
  order in which they are mentioned first.
-/
structure Lists
    (items : List LedItem)
    (numbers : List Nat) : Prop where
  once : numbers.Nodup
  covered : ∀ n,
    n ∈ numbers ↔ ∃ item ∈ items, item.Covers n
  ordered : numbers.Pairwise fun m n =>
    (mentions items).idxOf m < (mentions items).idxOf n

end LedItem

/-
  A record whose bitmap, sent last, has one bit for each LED
  of the device: the first bit tells of LED one.
-/
def Record.Selects
    (ledCount : Nat)
    (items : List LedItem)
    (r : Record) : Prop :=
  ∃ front f,
    r.fields = front ++ [f] ∧
      f.name = "led bitmap" ∧
      (∀ g ∈ front, g.name ≠ "led bitmap") ∧
      f.width = ledCount ∧
      ∀ k < ledCount,
        f.bits[k]? = some true ↔
          ∃ item ∈ items, item.Covers (k + 1)

/- The LED list of an action that selects LEDs. -/
def Action.ledList? : Action → Option LedList
  | .glow list _ => some list
  | .ramp list _ _ _ => some list
  | _ => none

------------------------------------------------------------
-- Numbers In Order Of Mention
------------------------------------------------------------

/- Without repetitions, items stand in order. -/
theorem pairwise_idxOf_of_nodup
    {ns : List Nat}
    (h : ns.Nodup) :
    ns.Pairwise fun m n => ns.idxOf m < ns.idxOf n := by
  rw [List.pairwise_iff_getElem]
  intro i j hi hj hLt
  rw [h.idxOf_getElem, h.idxOf_getElem]
  exact hLt

namespace LedRange

theorem nodup_toList
    (r : LedRange) :
    r.toList.Nodup :=
  List.nodup_range' ..

theorem mem_toList
    {r : LedRange}
    {n : Nat} :
    n ∈ r.toList ↔ r.covers n = true := by
  rw [toList, List.mem_range'_1]
  simp only [covers, Bool.and_eq_true, decide_eq_true_eq]
  omega

/- What items cover is listed, unless it was before. -/
theorem mem_numbersAfter
    {earlier rs : List LedRange}
    {n : Nat} :
    n ∈ numbersAfter earlier rs ↔
      (∃ r ∈ rs, r.covers n = true) ∧
        ∀ r ∈ earlier, r.covers n = false := by
  constructor
  · intro h
    exact ⟨covers_of_mem_numbersAfter h,
      not_covers_of_mem_numbersAfter h⟩
  · rintro ⟨⟨r, hr, hCovers⟩, hNew⟩
    induction rs generalizing earlier with
    | nil => cases hr
    | cons s rs ih =>
        rw [numbersAfter, List.mem_append]
        by_cases hHere : s.covers n = true
        · refine .inl (List.mem_filter.mpr
            ⟨mem_toList.mpr hHere, ?_⟩)
          simpa using hNew
        · right
          rcases List.mem_cons.mp hr with rfl | hr
          · exact absurd hCovers hHere
          · have hNot := Bool.eq_false_iff.mpr hHere
            exact ih (List.forall_mem_cons.mpr ⟨hNot, hNew⟩)
              hr

/-
  Numbers are listed in the order in which they are first
  mentioned; `seen` are the numbers of the items before.
-/
theorem pairwise_idxOf_numbersAfter
    {earlier : List LedRange}
    {seen : List Nat}
    (hSeen : ∀ n,
      n ∈ seen ↔ ∃ r ∈ earlier, r.covers n = true)
    (rs : List LedRange) :
    (numbersAfter earlier rs).Pairwise fun m n =>
      (seen ++ rs.flatMap toList).idxOf m <
        (seen ++ rs.flatMap toList).idxOf n := by
  induction rs generalizing earlier seen with
  | nil => exact .nil
  | cons r rs ih =>
      have hMore :
          ∀ n, n ∈ seen ++ r.toList ↔
            ∃ s ∈ r :: earlier, s.covers n = true := by
        intro n
        rw [List.mem_append, hSeen, mem_toList,
          List.exists_mem_cons_iff, or_comm]
      have hRest := ih hMore
      rw [List.append_assoc] at hRest
      rw [List.flatMap_cons]
      have hHere :
          ∀ m ∈ r.toList.filter
              (fun n => !earlier.any (·.covers n)),
            (seen ++ (r.toList ++ rs.flatMap toList)).idxOf
                m =
              r.toList.idxOf m + seen.length := by
        intro m hm
        rcases List.mem_filter.mp hm with ⟨hItem, hNew⟩
        have hNot : m ∉ seen := by
          rw [hSeen]
          simpa using hNew
        rw [List.idxOf_append, if_neg hNot,
          List.idxOf_append, if_pos hItem]
      rw [numbersAfter, List.pairwise_append]
      refine ⟨?_, hRest, ?_⟩
      · have hOrder :=
          (pairwise_idxOf_of_nodup (nodup_toList r)).filter
            (fun n => !earlier.any (·.covers n))
        refine hOrder.imp_of_mem ?_
        intro m n hm hn hLt
        rw [hHere m hm, hHere n hn]
        omega
      · intro m hm n hn
        have hItem := List.idxOf_lt_length_of_mem
          (List.mem_of_mem_filter hm)
        have hLater : n ∉ seen ++ r.toList := by
          rw [hMore]
          have hNew := (mem_numbersAfter.mp hn).2
          rintro ⟨s, hs, hCovers⟩
          rw [hNew s hs] at hCovers
          cases hCovers
        rw [hHere m hm, ← List.append_assoc,
          List.idxOf_append, if_neg hLater,
          List.length_append]
        omega

/- The numbers of a list are those that its items cover. -/
theorem lists_numbers
    (items : List LedItem) :
    LedItem.Lists items
      (numbers (items.map LedItem.range)) where
  once := nodup_numbersAfter [] _
  covered := by
    intro n
    rw [numbers, mem_numbersAfter]
    simp [covers, LedItem.Covers]
  ordered := by
    have hNone :
        ∀ n, n ∈ ([] : List Nat) ↔
          ∃ r ∈ ([] : List LedRange), r.covers n = true := by
      simp
    have hOrder := pairwise_idxOf_numbersAfter hNone
      (items.map LedItem.range)
    rw [List.nil_append, List.flatMap_map] at hOrder
    exact hOrder

end LedRange

------------------------------------------------------------
-- Reading Items
------------------------------------------------------------

namespace Reader

variable {α β : Type}

/-
  A reader that, if it gets past the kinds `before`, leaves
  the kinds `after` and finds something with a property.
-/
def Passes
    (p : Reader α)
    (before after : List Token.Kind)
    (P : α → Prop) : Prop :=
  ∀ c a d, c.rest.map Token.kind = before →
    p c = .ok (a, d) →
      d.rest.map Token.kind = after ∧ P a

/- What is accepted is what it passes. -/
theorem Accepts.passes
    {p : Reader α}
    {before after : List Token.Kind}
    {P : α → Prop}
    (h : Accepts p before after P) :
    Passes p before after P := by
  intro c a d hc hRead
  rcases h c hc with ⟨b, e, hOther, hLeft, hb⟩
  rw [hRead] at hOther
  cases hOther
  exact ⟨hLeft, hb⟩

theorem Passes.bind
    {p : Reader α}
    {f : α → Reader β}
    {before between after : List Token.Kind}
    {P : α → Prop}
    {Q : β → Prop}
    (hp : Passes p before between P)
    (hf : ∀ a, P a → Passes (f a) between after Q) :
    Passes (p >>= f) before after Q := by
  intro c b e hc h
  rcases bind_eq_ok h with ⟨a, d, hFirst, hSecond⟩
  rcases hp c a d hc hFirst with ⟨hd, ha⟩
  exact hf a ha d b e hd hSecond

theorem passes_pure
    {a : α}
    {P : α → Prop}
    (h : P a)
    (ks : List Token.Kind) :
    Passes (pure a) ks ks P :=
  (accepts_pure h ks).passes

theorem passes_ofExcept
    {r : Except LineError α}
    {P : α → Prop}
    (h : ∀ a, r = .ok a → P a)
    (ks : List Token.Kind) :
    Passes (ofExcept r) ks ks P := by
  intro c a d hc hRead
  cases r with
  | error e => cases hRead
  | ok b =>
      cases hRead
      exact ⟨hc, h a rfl⟩

/- An item that is checked is the one that is written. -/
theorem checkRange_eq_ok
    {first last : Nat}
    {firstSpan lastSpan : Span}
    {r : LedRange}
    (h : checkRange first last firstSpan lastSpan = .ok r) :
    r = ⟨first, last⟩ := by
  unfold checkRange at h
  split at h
  · cases h
  split at h
  · cases h
  split at h
  · cases h
  exact (Except.ok.inj h).symm

/- An item is read up to what is behind it. -/
theorem passes_ledRange
    (item : LedItem)
    {ks : List Token.Kind}
    (hNext : ks.head? ≠ some (.mark .minus)) :
    Passes ledRange (item.kinds ++ ks) ks (· = item.range) := by
  cases item with
  | one n =>
      refine (accepts_number n ks).passes.bind ?_
      rintro ⟨m, span⟩ rfl
      have hEnd :
          Passes (rangeEnd (m, span)) ks ks (·.1 = m) := by
        refine (accepts_eat_other hNext).passes.bind ?_
        rintro _ rfl
        apply passes_pure
        rfl
      refine hEnd.bind ?_
      rintro ⟨last, stop⟩ rfl
      exact passes_ofExcept (fun _ => checkRange_eq_ok) ks
  | span first last =>
      refine (accepts_number first _).passes.bind ?_
      rintro ⟨m, span⟩ rfl
      have hEnd :
          Passes (rangeEnd (m, span))
            (.mark .minus :: .number last :: ks) ks
            (·.1 = last) := by
        refine (accepts_eat _ _).passes.bind ?_
        rintro _ rfl
        exact (accepts_number last ks).passes
      refine hEnd.bind ?_
      rintro ⟨_, stop⟩ rfl
      exact passes_ofExcept (fun _ => checkRange_eq_ok) ks

/- No item starts with a bracket. -/
theorem passes_nothing
    (ks : List Token.Kind) :
    Passes ledRanges (.mark .rightBracket :: ks) ks
      fun _ => False := by
  rw [ledRanges_eq]
  intro c a d hc h
  rcases bind_eq_ok h with ⟨r, e, hItem, -⟩
  rcases bind_eq_ok hItem with ⟨first, e, hNumber, -⟩
  rcases List.map_eq_cons_iff.mp hc
    with ⟨t, rest, hRest, hKind, -⟩
  simp [number, take, hRest, hKind] at hNumber

/- Items are read up to the bracket behind them. -/
theorem passes_ledRanges
    (items : List LedItem)
    (ks : List Token.Kind) :
    Passes ledRanges
      (LedItem.listKinds items ++ .mark .rightBracket :: ks)
      (.mark .rightBracket :: ks)
      (· = items.map LedItem.range) := by
  induction items using LedItem.listKinds.induct with
  | case1 =>
      intro c a d hc h
      exact ((passes_nothing ks c a d hc h).2).elim
  | case2 item =>
      rw [ledRanges_eq, LedItem.listKinds]
      refine (passes_ledRange item ?_).bind ?_
      · exact nofun
      rintro _ rfl
      refine (accepts_eat_other ?_).passes.bind ?_
      · exact nofun
      rintro _ rfl
      apply passes_pure
      rfl
  | case3 item other rest ih =>
      rw [ledRanges_eq, LedItem.listKinds,
        List.append_assoc]
      refine (passes_ledRange item ?_).bind ?_
      · exact nofun
      rintro _ rfl
      refine (accepts_eat _ _).passes.bind ?_
      rintro _ rfl
      refine ih.bind ?_
      rintro _ rfl
      apply passes_pure
      rfl

/- A list in brackets has the numbers of its items. -/
theorem passes_ledList
    (items : List LedItem)
    (ks : List Token.Kind) :
    Passes ledList
      (.mark .leftBracket :: LedItem.listKinds items ++
        .mark .rightBracket :: ks)
      ks
      (fun list => LedItem.Lists items list.numbers) := by
  refine (accepts_upcoming _).passes.bind fun _ _ => ?_
  refine (accepts_token _ _).passes.bind fun _ _ => ?_
  refine (passes_ledRanges items ks).bind ?_
  rintro _ rfl
  refine (accepts_token _ _).passes.bind fun _ _ => ?_
  refine (accepts_previous _).passes.bind fun _ _ => ?_
  apply passes_pure
  exact LedRange.lists_numbers items

/-
  An action of glowing or ramping that is read behind its
  colon has the list that stands there.
-/
theorem exists_ledList_of_action
    {items : List LedItem}
    {keyword : Keyword}
    {tail : List Token.Kind}
    {t : Token}
    {c d : Cursor}
    {deed : Action}
    (hKeyword :
      keyword = .glowImmediate ∨ keyword = .glowRamp)
    (hKind : t.kind = .keyword keyword)
    (hBehind :
      c.rest.map Token.kind =
        .mark .leftBracket :: LedItem.listKinds items ++
          .mark .rightBracket :: tail)
    (h : action t c = .ok (deed, d)) :
    ∃ list,
      deed.ledList? = some list ∧
        list.WellFormed ∧
        LedItem.Lists items list.numbers := by
  have hList :
      ∀ list e, ledList c = .ok (list, e) →
        list.WellFormed ∧ LedItem.Lists items list.numbers :=
    fun list e hLeds =>
      ⟨gives_ledList c list e hLeds,
        (passes_ledList items tail c list e hBehind hLeds).2⟩
  unfold action at h
  rw [hKind] at h
  rcases hKeyword with rfl | rfl
  · rcases bind_eq_ok h with ⟨list, e, hLeds, h⟩
    rcases bind_eq_ok h with ⟨color, _, -, h⟩
    cases h
    exact ⟨list, rfl, hList list e hLeds⟩
  · rcases bind_eq_ok h with ⟨list, e, hLeds, h⟩
    rcases bind_eq_ok h with ⟨start, _, -, h⟩
    rcases bind_eq_ok h with ⟨_, _, -, h⟩
    rcases bind_eq_ok h with ⟨stop, _, -, h⟩
    rcases bind_eq_ok h with ⟨_, _, -, h⟩
    rcases bind_eq_ok h with ⟨duration, _, -, h⟩
    cases h
    exact ⟨list, rfl, hList list e hLeds⟩

/- A statement that is read has its action behind a colon. -/
theorem exists_action_of_statement
    {t : Token}
    {c d : Cursor}
    {ks : List Token.Kind}
    {entry : Entry}
    (hColon : c.rest.map Token.kind = .mark .colon :: ks)
    (h : statement t c = .ok (entry, d)) :
    ∃ st e e',
      entry = .statement st ∧
        e.rest.map Token.kind = ks ∧
        action t e = .ok (st.action, e') := by
  rcases bind_eq_ok h with ⟨⟨⟩, e, hMark, h⟩
  rcases bind_eq_ok h with ⟨deed, e', hDeed, h⟩
  rcases bind_eq_ok h with ⟨span, _, -, h⟩
  rcases bind_eq_ok h with ⟨_, _, -, h⟩
  cases h
  have hBehind :=
    (accepts_token (.mark .colon) ks).passes c () e hColon
      hMark
  exact ⟨_, e, e', rfl, hBehind.1, hDeed⟩

end Reader

/- An instruction is read inside a function only. -/
theorem Entry.read_instruction
    {keyword : Keyword}
    {inFunction : Bool}
    {t : Token}
    {c d : Cursor}
    {entry : Entry}
    (hKind : t.kind = .keyword keyword)
    (hKeyword : keyword.isInstruction = true)
    (h : read inFunction t c = .ok (entry, d)) :
    Reader.statement t c = .ok (entry, d) := by
  unfold read at h
  rw [hKind] at h
  cases keyword with
  | device | define | toward | within | repeats | zOrder =>
      cases hKeyword
  | _ =>
      cases inFunction with
      | false => cases h
      | true => exact h

/-
  A line with an LED list that is read: a statement whose
  list has the numbers of the items.
-/
theorem Line.exists_ledList
    {items : List LedItem}
    {keyword : Keyword}
    {tail : List Token.Kind}
    {line : Line}
    {inFunction : Bool}
    {entry : Entry}
    (hKeyword :
      keyword = .glowImmediate ∨ keyword = .glowRamp)
    (hLine :
      line.tokens.map Token.kind =
        .keyword keyword :: .mark .colon ::
          .mark .leftBracket :: LedItem.listKinds items ++
            .mark .rightBracket :: tail)
    (hRead : line.read inFunction = .ok (some entry)) :
    ∃ st list,
      entry = .statement st ∧
        st.action.ledList? = some list ∧
        st.action.Dim ∧
        list.WellFormed ∧
        LedItem.Lists items list.numbers := by
  rcases List.map_eq_cons_iff.mp hLine
    with ⟨t, rest, hTokens, hKind, hRest⟩
  have hInstruction : keyword.isInstruction = true := by
    rcases hKeyword with rfl | rfl
    · rfl
    · rfl
  unfold Line.read at hRead
  rw [hTokens] at hRead
  simp only at hRead
  split at hRead
  · rename_i found d hFound
    cases hRead
    rcases Reader.exists_action_of_statement hRest
      (Entry.read_instruction hKind hInstruction hFound)
      with ⟨st, e, e', hEntry, hBehind, hDeed⟩
    rcases Reader.exists_ledList_of_action hKeyword hKind
      hBehind hDeed with ⟨list, hList, hFormed, hLists⟩
    exact ⟨st, list, hEntry, hList,
      Reader.gives_dim t e st.action e' hDeed, hFormed,
      hLists⟩
  · cases hRead

------------------------------------------------------------
-- Records
------------------------------------------------------------

namespace WidthCode

theorem names_sized2
    {name : String}
    {value : Nat}
    {fields : List Field}
    (h : sized2 name value = .ok fields) :
    ∀ f ∈ fields, f.name = fieldName ∨ f.name = name := by
  rcases Success.bind_eq_ok h with ⟨f, hf, h⟩
  cases Success.pure_eq_ok h
  rcases Field.ofValue_eq_ok hf with ⟨-, rfl⟩
  intro g hg
  rcases List.mem_cons.mp hg with rfl | hg
  · exact .inl rfl
  · cases List.mem_singleton.mp hg
    exact .inr rfl

end WidthCode

/- The name of the bitmap that ends a record. -/
theorem name_ledBitmap
    {leds : List Nat}
    {count : Nat}
    {f : Field}
    (h : ledBitmap leds count = .ok f) :
    f.name = "led bitmap" := by
  unfold ledBitmap at h
  split at h
  · cases h
  · cases h
    rfl

namespace Op

/- The values of a color are no LED bitmaps. -/
theorem name_ne_of_mem_colorFields
    {color : Color}
    {fields : List Field}
    (h : colorFields color = .ok fields) :
    ∀ f ∈ fields, f.name ≠ "led bitmap" := by
  intro f hf
  rcases Success.exists_of_forall₂ (Success.mapM_eq_ok h) f hf
    with ⟨ch, -, hField⟩
  rcases Field.ofValue_eq_ok hField with ⟨-, rfl⟩
  have hName : s!"{ch.text} value" ≠ "led bitmap" := by
    cases ch <;> decide
  exact hName

/- Nor is what a ramp says about a channel. -/
theorem name_ne_of_mem_rampChannel
    {start stop : Color}
    {ticks : Nat}
    {ch : Channel}
    {fields : List Field}
    (h : rampChannel start stop ticks ch = .ok fields) :
    ∀ f ∈ fields, f.name ≠ "led bitmap" := by
  have hInit : s!"{ch.text} init value" ≠ "led bitmap" := by
    cases ch <;> decide
  have hDirection :
      s!"{ch.text} inc/dec opcode" ≠ "led bitmap" := by
    cases ch <;> decide
  have hPace : s!"{ch.text} tick step" ≠ "led bitmap" := by
    cases ch <;> decide
  have hSize : s!"{ch.text} color step" ≠ "led bitmap" := by
    cases ch <;> decide
  have hCode : WidthCode.fieldName ≠ "led bitmap" := by
    decide
  unfold rampChannel at h
  by_cases hDelta : start.delta stop ch = 0
  · rw [if_pos hDelta] at h
    cases Success.pure_eq_ok h
    intro f hf
    rcases List.mem_cons.mp hf with rfl | hf
    · exact hInit
    · cases List.mem_singleton.mp hf
      exact hDirection
  · rw [if_neg hDelta] at h
    rcases Success.bind_eq_ok h with ⟨pace, hTicks, h⟩
    rcases Success.bind_eq_ok h with ⟨size, hColor, h⟩
    cases Success.pure_eq_ok h
    rcases Field.ofValue_eq_ok hColor with ⟨-, rfl⟩
    intro f hf
    rcases List.mem_append.mp hf with hf | hf
    · rcases List.mem_append.mp hf with hf | hf
      · rcases List.mem_cons.mp hf with rfl | hf
        · exact hInit
        · cases List.mem_singleton.mp hf
          exact hDirection
      · rcases WidthCode.names_sized2 hTicks f hf
          with hName | hName
        · rw [hName]
          exact hCode
        · rw [hName]
          exact hPace
    · cases List.mem_singleton.mp hf
      exact hSize

/- Fields that end with the one bitmap of some LEDs. -/
def EndsInBitmap
    (count : Nat)
    (leds : List Nat)
    (fields : List Field) : Prop :=
  ∃ front f,
    fields = front ++ [f] ∧
      (∀ g ∈ front, g.name ≠ "led bitmap") ∧
      ledBitmap leds count = .ok f

theorem EndsInBitmap.cons
    {count : Nat}
    {leds : List Nat}
    {f : Field}
    {fields : List Field}
    (h : EndsInBitmap count leds fields)
    (hName : f.name ≠ "led bitmap") :
    EndsInBitmap count leds (f :: fields) := by
  rcases h with ⟨front, bitmap, rfl, hOthers, hBitmap⟩
  exact ⟨f :: front, bitmap, rfl,
    List.forall_mem_cons.mpr ⟨hName, hOthers⟩, hBitmap⟩

theorem name_channelBitmap_ne
    (channels : List Channel) :
    (channelBitmap channels).name ≠ "led bitmap" := by
  have hName : "color bitmap" ≠ "led bitmap" := by
    decide
  exact hName

theorem endsInBitmap_encodeGlow
    {count : Nat}
    {leds : List Nat}
    {color : Color}
    {fields : List Field}
    (h : encodeGlow count leds color = .ok fields) :
    EndsInBitmap count leds fields := by
  rcases Success.bind_eq_ok h with ⟨values, hValues, h⟩
  rcases Success.bind_eq_ok h with ⟨bitmap, hBitmap, h⟩
  cases Success.pure_eq_ok h
  have hAction :
      (fixed "action opcode" 2 0).name ≠ "led bitmap" := by
    decide
  have hOthers :
      EndsInBitmap count leds (values ++ [bitmap]) :=
    ⟨values, bitmap, rfl, name_ne_of_mem_colorFields hValues,
      hBitmap⟩
  exact (hOthers.cons hAction).cons (name_channelBitmap_ne _)

theorem endsInBitmap_encodeRamp
    {count : Nat}
    {leds : List Nat}
    {start stop : Color}
    {ticks : Nat}
    {forced : Bool}
    {fields : List Field}
    (h : encodeRamp count leds start stop ticks forced =
      .ok fields) :
    EndsInBitmap count leds fields := by
  rcases Success.bind_eq_ok h with ⟨time, hTime, h⟩
  rcases Success.bind_eq_ok h with ⟨moves, hMoves, h⟩
  rcases Success.bind_eq_ok h with ⟨bitmap, hBitmap, h⟩
  cases Success.pure_eq_ok h
  refine ⟨_, bitmap, rfl, ?_, hBitmap⟩
  have hTicks : "ramp tick value" ≠ "led bitmap" := by
    decide
  have hCode : WidthCode.fieldName ≠ "led bitmap" := by
    decide
  intro g hg
  simp only [List.mem_append, List.mem_singleton,
    List.mem_flatten] at hg
  rcases hg with (hg | rfl) | ⟨fields, hFields, hg⟩
  · rcases WidthCode.names_sized2 hTime g hg
      with hName | hName
    · rw [hName]
      exact hCode
    · rw [hName]
      exact hTicks
  · exact name_channelBitmap_ne _
  · rcases Success.exists_of_forall₂
      (Success.mapM_eq_ok hMoves) fields hFields
      with ⟨ch, -, hChannel⟩
    exact name_ne_of_mem_rampChannel hChannel g hg

/-
  An operation that selects some LEDs and whose record can
  be made.
-/
structure Shows
    (device : Device)
    (leds : List Nat)
    (op : Op) : Prop where
  selects :
    (∃ color, op = .glow leds color) ∨
      ∃ start stop millis, op = .ramp leds start stop millis
  encodable : op.Encodable device

/- Its record ends with the one bitmap of these LEDs. -/
theorem Shows.endsInBitmap
    {device : Device}
    {shared : Std.HashSet Nat}
    {leds : List Nat}
    {op : Op}
    (h : op.Shows device leds)
    {r : Record}
    (hRecord : op.encode device shared = .ok r) :
    EndsInBitmap device.ledCount leds r.fields := by
  have hType : (tagField 0).name ≠ "led bitmap" := by
    decide
  rcases Op.encode_eq_ok hRecord
    with ⟨tag, body, -, hBody, rfl⟩
  rcases h.selects
    with ⟨color, rfl⟩ | ⟨start, stop, millis, rfl⟩
  · exact (endsInBitmap_encodeGlow hBody).cons hType
  · exact (endsInBitmap_encodeRamp hBody).cons hType

end Op

/- A bit for each LED that the items of a list cover. -/
theorem LedItem.Lists.getElem?_ledSet
    {items : List LedItem}
    {list : LedList}
    (h : Lists items list.numbers)
    (hFirst : ∀ n ∈ list.numbers, 1 ≤ n)
    {count k : Nat}
    (hk : k < count) :
    (Message.ledSet (Meaning.ledsOf list) count)[k]? =
        some true ↔
      ∃ item ∈ items, item.Covers (k + 1) := by
  have hSelected :
      k ∈ Meaning.ledsOf list ↔ k + 1 ∈ list.numbers := by
    rw [Meaning.ledsOf, List.mem_map]
    constructor
    · rintro ⟨n, hn, rfl⟩
      have hPositive := hFirst n hn
      rwa [Nat.sub_add_cancel hPositive]
    · intro hMem
      exact ⟨k + 1, hMem, rfl⟩
  rw [← h.covered, ← hSelected, Message.ledSet,
    List.getElem?_map, List.getElem?_range hk]
  simp

/- Whatever LEDs paths share, the record selects the items. -/
theorem Op.Shows.exists_record
    {device : Device}
    {items : List LedItem}
    {list : LedList}
    {op : Op}
    (h : op.Shows device (Meaning.ledsOf list))
    (hLists : LedItem.Lists items list.numbers)
    (hFirst : ∀ n ∈ list.numbers, 1 ≤ n)
    (shared : Std.HashSet Nat) :
    ∃ r,
      op.encode device shared = .ok r ∧
        r.Selects device.ledCount items := by
  rcases Op.delivers_encode h.encodable shared
    with ⟨r, hRecord, -⟩
  rcases h.endsInBitmap hRecord
    with ⟨front, f, hFields, hOthers, hBitmap⟩
  have hBits := ledBitmap_eq_ok hBitmap
  refine ⟨r, hRecord, front, f, hFields,
    name_ledBitmap hBitmap, hOthers, ?_, ?_⟩
  · rw [Field.width, hBits, Message.length_ledSet]
  · intro k hk
    rw [hBits]
    exact hLists.getElem?_ledSet hFirst hk

------------------------------------------------------------
-- Expansion
------------------------------------------------------------

namespace Expansion

/- Between two states, operations of one kind were emitted. -/
def Emits (P : Op → Prop) (s t : Expansion) : Prop :=
  ∃ added,
    t.emitted.toList = s.emitted.toList ++ added ∧
      ∀ i ∈ added, P i.op

theorem emits_of_emitted_eq
    {P : Op → Prop}
    {s t : Expansion}
    (h : t.emitted = s.emitted) :
    Emits P s t :=
  ⟨[], by rw [h, List.append_nil], List.forall_mem_nil _⟩

theorem Emits.trans
    {P : Op → Prop}
    {s t u : Expansion}
    (hFirst : Emits P s t)
    (hSecond : Emits P t u) :
    Emits P s u := by
  rcases hFirst with ⟨first, hFirst, hKinds⟩
  rcases hSecond with ⟨second, hSecond, hOthers⟩
  refine ⟨first ++ second, ?_,
    List.forall_mem_append.mpr ⟨hKinds, hOthers⟩⟩
  rw [hSecond, hFirst, List.append_assoc]

theorem emitted_report
    (source : SourceText)
    (fault : ExpandFault)
    (span : Span)
    (s : Expansion) :
    (s.report source fault span).emitted = s.emitted := by
  unfold report
  split
  · rfl
  · rfl

theorem emitted_charge
    (source : SourceText)
    (span : Span)
    (s : Expansion) :
    (s.charge source span).emitted = s.emitted := by
  unfold charge
  split
  · rfl
  split
  · rfl
  · exact emitted_report source .tooLarge span _

theorem emits_emit
    {P : Op → Prop}
    {op : Op}
    (h : P op)
    (source : SourceText)
    (path : Option Nat)
    (zOrder : Nat)
    (span : Span)
    (s : Expansion) :
    Emits P s (s.emit source op path zOrder span) := by
  have hCharge := emitted_charge source span s
  unfold emit
  simp only
  split
  · exact emits_of_emitted_eq hCharge
  · refine ⟨[⟨op, path, some zOrder, some span⟩], ?_,
      List.forall_mem_singleton.mpr h⟩
    simp [hCharge]

end Expansion

namespace Expander

/- A statement with an LED list emits what shows its LEDs. -/
theorem emits_statement
    {e : Expander}
    {st : Statement}
    {list : LedList}
    (hList : st.action.ledList? = some list)
    (hDim : st.action.Dim)
    (hOn : list.On e.device)
    (inline : Inline)
    (frame : Frame)
    (scope : Nat)
    (labels : List String)
    (s : Expansion) :
    Expansion.Emits
      (Op.Shows e.device (Meaning.ledsOf list)) s
      (e.statement inline frame scope labels st s) := by
  have hLeds := Meaning.lt_of_mem_ledsOf hOn
  have hGlow :
      ∀ color : Color, color.Dim →
        Op.Shows e.device (Meaning.ledsOf list)
          (.glow (Meaning.ledsOf list) color) :=
    fun color hColor => ⟨.inl ⟨color, rfl⟩, hLeds, hColor⟩
  rcases exists_leds_iff.mpr hOn with ⟨leds, hOk⟩
  cases leds_eq_ok hOk
  rcases st with ⟨action, span⟩
  cases action with
  | glow other color =>
      cases hList
      simp only [statement, hOk, attempt]
      exact Expansion.emits_emit (hGlow color hDim) ..
  | ramp other start stop duration =>
      cases hList
      cases hMillis : e.millis duration with
      | error x =>
          simp only [statement, hOk, hMillis, note, attempt]
          exact Expansion.emits_of_emitted_eq
            (Expansion.emitted_report ..)
      | ok ms =>
          have hRamp :
              Op.Shows e.device (Meaning.ledsOf list)
                (.ramp (Meaning.ledsOf list) start stop
                  ms) := by
            refine ⟨.inr ⟨start, stop, ms, rfl⟩, hLeds, ?_⟩
            rw [millis_eq_ok hMillis]
            exact Meaning.ticks_lt
              (exists_millis_iff.mp ⟨ms, hMillis⟩)
          simp only [statement, hOk, hMillis]
          exact ((Expansion.emits_emit
            (hGlow start hDim.1) ..).trans
              (Expansion.emits_emit hRamp ..)).trans
                (Expansion.emits_emit (hGlow stop hDim.2) ..)
  | _ => cases hList

end Expander

------------------------------------------------------------
-- From The Line To The Wire
------------------------------------------------------------

/-
  Whatever line with an LED list is read: its list has the
  numbers of the items in the order of mention, and on every
  device that has these LEDs, whatever was expanded before,
  all that the statement emits has a record that selects
  them.
-/
theorem Line.selected_leds_reach_the_wire
    {items : List LedItem}
    {keyword : Keyword}
    {tail : List Token.Kind}
    {line : Line}
    {inFunction : Bool}
    {entry : Entry}
    (hKeyword :
      keyword = .glowImmediate ∨ keyword = .glowRamp)
    (hLine :
      line.tokens.map Token.kind =
        .keyword keyword :: .mark .colon ::
          .mark .leftBracket :: LedItem.listKinds items ++
            .mark .rightBracket :: tail)
    (hRead : line.read inFunction = .ok (some entry)) :
    ∃ st list,
      entry = .statement st ∧
        st.action.ledList? = some list ∧
        LedItem.Lists items list.numbers ∧
        ∀ e : Expander,
          (∀ item ∈ items,
            item.range.last ≤ e.device.ledCount) →
          e.leds list = .ok (list.numbers.map (· - 1)) ∧
            ∀ inline frame scope labels s,
              ∃ added,
                (e.statement inline frame scope labels st
                    s).emitted.toList =
                  s.emitted.toList ++ added ∧
                ∀ i ∈ added, ∀ shared, ∃ r,
                  i.op.encode e.device shared = .ok r ∧
                    r.Selects e.device.ledCount items := by
  rcases exists_ledList hKeyword hLine hRead
    with ⟨st, list, hEntry, hList, hDim, hFormed, hLists⟩
  refine ⟨st, list, hEntry, hList, hLists, ?_⟩
  intro e hCount
  have hFirst : ∀ n ∈ list.numbers, 1 ≤ n :=
    fun n hn => (hFormed.range n hn).1
  have hOn : list.On e.device := by
    intro n hn
    rcases (hLists.covered n).mp hn with ⟨item, hItem, hn'⟩
    exact ⟨hFirst n hn,
      Nat.le_trans hn'.2 (hCount item hItem)⟩
  constructor
  · rcases Expander.exists_leds_iff.mpr hOn with ⟨leds, hOk⟩
    rw [hOk, Expander.leds_eq_ok hOk]
    rfl
  · intro inline frame scope labels s
    rcases Expander.emits_statement hList hDim hOn inline
      frame scope labels s with ⟨added, hEmitted, hShows⟩
    refine ⟨added, hEmitted, ?_⟩
    intro i hi shared
    exact (hShows i hi).exists_record hLists hFirst shared

namespace Line

/- The tokens behind the color of a line. -/
def mixedTail : List Token.Kind :=
  [.mark .leftParen, .number 9, .mark .comma, .number 0,
   .mark .comma, .number 0, .mark .comma, .number 31,
   .mark .rightParen]

/- Items that overlap. -/
def mixedItems : List LedItem :=
  [.one 3, .span 1 2, .one 2]

/- A line that lights their LEDs. -/
def mixed : Line where
  tokens :=
    (Token.Kind.keyword .glowImmediate :: .mark .colon ::
      .mark .leftBracket :: LedItem.listKinds mixedItems ++
        .mark .rightBracket :: mixedTail).map fun kind =>
          ⟨kind, .origin⟩
  stop := ⟨.newline, .origin⟩

/- The statement on the line. -/
def mixedStatement : Statement :=
  ⟨.glow ⟨[3, 1, 2], .origin⟩ ⟨9, 0, 0, 31⟩, .origin⟩

theorem read_mixed :
    mixed.read true =
      .ok (some (.statement mixedStatement)) := by
  decide +kernel

/- An expansion for a device with one LED more. -/
def mixedExpander : Expander :=
  ⟨{}, ⟨"show", ""⟩, { tickMillis := 10, ledCount := 4 }⟩

theorem selected_leds_reach_the_wire_mixed :
    mixed.read true =
        .ok (some (.statement mixedStatement)) ∧
      LedItem.Lists mixedItems [3, 1, 2] ∧
      ∃ i,
        (mixedExpander.statement (fun _ _ s => s) ⟨0, 0, []⟩
            0 [] mixedStatement {}).emitted.toList = [i] ∧
          ∃ r,
            i.op.encode mixedExpander.device ∅ = .ok r ∧
              r.Selects 4 mixedItems := by
  have hLine :
      mixed.tokens.map Token.kind =
        .keyword .glowImmediate :: .mark .colon ::
          .mark .leftBracket :: LedItem.listKinds mixedItems ++
            .mark .rightBracket :: mixedTail := by
    decide
  rcases selected_leds_reach_the_wire (.inl rfl) hLine
    read_mixed with ⟨st, list, hEntry, hList, hLists, hAll⟩
  cases hEntry
  cases hList
  rcases hAll mixedExpander (by decide) with ⟨-, hEmits⟩
  rcases hEmits (fun _ _ s => s) ⟨0, 0, []⟩ 0 [] {}
    with ⟨added, hAdded, hRecords⟩
  have hOne :
      (mixedExpander.statement (fun _ _ s => s) ⟨0, 0, []⟩ 0
          [] mixedStatement {}).emitted.toList =
        [⟨.glow [2, 0, 1] ⟨9, 0, 0, 31⟩, some 0, some 0,
          some .origin⟩] := by
    decide +kernel
  rw [hOne] at hAdded
  cases hAdded
  exact ⟨read_mixed, hLists, _, hOne,
    hRecords _ (List.mem_singleton.mpr rfl) ∅⟩

end Line

end LightShow
