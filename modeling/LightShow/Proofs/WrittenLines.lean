import LightShow.Proofs.Cutting

/-
  Scripts as inks.

  A script is a list of entries, one for each line that it is
  written on. The inks of an entry spell its line, and they
  are apart from one another whatever the entry says.

  Key definitions include:
    * `Action.inks`
    * `Entry.inks`
    * `Script.entries`
    * `Script.inks`

  Main statements:
    * `Script.toList_render`
    * `Script.valid_inks`
    * `Script.apart_inks`
-/

namespace LightShow

------------------------------------------------------------
-- Inks Of A Line
------------------------------------------------------------

/- Numbers with commas between them. -/
def Ink.ofNumbers : List Nat → List Ink
  | [] => []
  | [n] => [.number n]
  | n :: m :: ns =>
      .number n :: .mark .comma :: .blanks 0 ::
        ofNumbers (m :: ns)

/- An option in brackets. -/
def Ink.ofOption (k : Keyword) (n : Nat) : List Ink :=
  [.mark .leftParen, .keyword k, .mark .equals, .number n,
   .mark .rightParen]

def LedList.inks (l : LedList) : List Ink :=
  .mark .leftBracket ::
    (Ink.ofNumbers l.numbers ++ [.mark .rightBracket])

def Color.inks (c : Color) : List Ink :=
  [.mark .leftParen, .number c.red.toNat,
   .mark .comma, .number c.green.toNat,
   .mark .comma, .number c.blue.toNat,
   .mark .comma, .number c.bright.toNat,
   .mark .rightParen]

def Duration.inks (d : Duration) : List Ink :=
  [.number d.amount, .word d.unit.suffix]

/- The reserved word of an action. -/
def Action.keyword : Action → Keyword
  | .glow _ _ => .glowImmediate
  | .ramp _ _ _ _ => .glowRamp
  | .pause _ => .pause
  | .here _ => .here
  | .goto _ => .goto
  | .call _ _ => .call
  | .callAsync _ _ => .callAsync

/- What stands behind the colon and the blank. -/
def Action.operands : Action → List Ink
  | .glow leds color => leds.inks ++ .blanks 0 :: color.inks
  | .ramp leds start stop duration =>
      leds.inks ++ .blanks 0 :: (start.inks ++
        .blanks 0 :: .keyword .toward :: .blanks 0 ::
          (stop.inks ++
            .blanks 0 :: .keyword .within :: .blanks 0 ::
              duration.inks))
  | .pause duration => duration.inks
  | .here label => [.word label.text]
  | .goto label => [.word label.text]
  | .call function count =>
      .function function.text :: .blanks 0 ::
        Ink.ofOption .repeats count
  | .callAsync function none => [.function function.text]
  | .callAsync function (some z) =>
      .function function.text :: .blanks 0 ::
        Ink.ofOption .zOrder z

/- A statement without its line end. -/
def Action.inks (a : Action) : List Ink :=
  .keyword a.keyword :: .mark .colon :: .blanks 0 ::
    a.operands

/- A named text without its line end. -/
def Ink.ofTable
    (k : Keyword)
    (name value : String) : List Ink :=
  [.keyword k, .mark .colon, .blanks 0, .word name,
   .blanks 0, .mark .equals, .blanks 0, .text value]

namespace Entry

/- An entry without its line end. -/
def inks : Entry → List Ink
  | .setting d => Ink.ofTable .device d.key.text d.value
  | .aliasing a => Ink.ofTable .define a.name.text a.value
  | .header name => [.function name.text]
  | .statement s => .blanks 1 :: s.action.inks

/- The text of an entry without its line end. -/
def text : Entry → String
  | .setting d => d.text
  | .aliasing a => a.text
  | .header name => name.text
  | .statement s => "  " ++ s.action.text

/- The tokens of an entry without its line end. -/
def kinds (e : Entry) : List Token.Kind :=
  e.inks.filterMap Ink.kind?

/- An entry that a line can state. -/
def WellFormed : Entry → Prop
  | .setting d =>
      Text.isIdentifier d.key.text ∧ Text.isQuotable d.value
  | .aliasing a =>
      Text.isIdentifier a.name.text ∧ Text.isQuotable a.value
  | .header name => Text.isFunctionName name.text
  | .statement s => s.action.WellFormed

end Entry

namespace Function

/- The header and the statements of a function. -/
def entries (f : Function) : List Entry :=
  .header f.name :: f.body.map .statement

end Function

namespace Script

/- One entry for each line of a script. -/
def entries (s : Script) : List Entry :=
  s.settings.map .setting ++ s.aliases.map .aliasing ++
    s.functions.flatMap Function.entries

/- A script, each line ended. -/
def inks (s : Script) : List Ink :=
  s.entries.flatMap fun e => e.inks ++ [.newline]

end Script

------------------------------------------------------------
-- The Text Of The Inks
------------------------------------------------------------

attribute [simp] Text.toString_eq_self

theorem Ink.chars_ofNumbers
    (ns : List Nat) :
    (ofNumbers ns).flatMap chars =
      [',', ' '].intercalate
        (ns.map fun n => Nat.toDigits 10 n) := by
  induction ns with
  | nil => rfl
  | cons n ns ih =>
      cases ns with
      | nil => simp [ofNumbers, chars]
      | cons m ns =>
          simp only [List.map_cons] at ih ⊢
          rw [List.intercalate_cons_cons, ← ih]
          simp [ofNumbers, chars, Mark.char]

@[simp] theorem LedList.toList_text
    (l : LedList) :
    l.text.toList = l.inks.flatMap Ink.chars := by
  simp [LedList.text, LedList.inks, Ink.chars_ofNumbers,
    Ink.chars, Mark.char, Function.comp_def]

@[simp] theorem Color.toList_text
    (c : Color) :
    c.text.toList = c.inks.flatMap Ink.chars := by
  simp [Color.text, Color.inks, Ink.chars, Mark.char]

@[simp] theorem Duration.toList_text
    (d : Duration) :
    d.text.toList = d.inks.flatMap Ink.chars := by
  simp [Duration.text, Duration.inks, Ink.chars]

@[simp] theorem Action.toList_text
    (a : Action) :
    a.text.toList = a.inks.flatMap Ink.chars := by
  cases a with
  | callAsync function zOrder =>
      cases zOrder <;>
        (dsimp only [Action.text]
         simp [Action.inks, Action.keyword, Action.operands,
          Ink.ofOption, Ink.chars, Keyword.spelling,
          Keyword.text, Mark.char])
  | _ =>
      dsimp only [Action.text]
      simp [Action.inks, Action.keyword, Action.operands,
        Ink.ofOption, Ink.chars, Keyword.spelling,
        Keyword.text, Mark.char]

theorem Entry.toList_text
    (e : Entry) :
    e.text.toList = e.inks.flatMap Ink.chars := by
  cases e <;>
    simp [Entry.text, Setting.text, Alias.text, Entry.inks,
      Ink.ofTable, Ink.chars, Keyword.spelling, Keyword.text,
      Mark.char]

namespace Script

theorem lines_eq_entries
    (s : Script) :
    s.lines = s.entries.map Entry.text := by
  have hFunction :
      Function.lines = fun f => f.entries.map Entry.text := by
    funext f
    simp [Function.lines, Function.entries, Entry.text,
      Function.comp_def]
  simp [lines, entries, List.map_flatMap, Entry.text,
    Function.comp_def, hFunction]

/- The text of a script is that of its inks. -/
theorem toList_render
    (s : Script) :
    s.render.toList = s.inks.flatMap Ink.chars := by
  rw [render, String.toList_join, lines_eq_entries, inks,
    List.flatMap_assoc, List.map_map, List.flatMap_map]
  refine List.flatMap_congr fun e _ => ?_
  simp [Entry.toList_text, Ink.chars]

end Script

------------------------------------------------------------
-- Inks That Are Apart
------------------------------------------------------------

namespace Ink

theorem apart_newline
    {is : List Ink}
    (h : Apart is) :
    Apart (.newline :: is) := by
  cases is with
  | nil => exact apart_singleton _
  | cons i is => exact apart_cons_cons.mpr ⟨rfl, h⟩

/- Between numbers there are commas. -/
theorem apart_ofNumbers
    {m : Mark}
    {is : List Ink}
    (h : Apart (.mark m :: is))
    {i : Ink}
    (hMark : i.joins (.mark m) = false)
    (hNumber : ∀ n, i.joins (.number n) = false)
    (ns : List Nat) :
    Apart (i :: (ofNumbers ns ++ .mark m :: is)) := by
  induction ns generalizing i with
  | nil => exact apart_cons_cons.mpr ⟨hMark, h⟩
  | cons n ns ih =>
      cases ns with
      | nil =>
          exact apart_cons_cons.mpr
            ⟨hNumber n, apart_cons_cons.mpr ⟨rfl, h⟩⟩
      | cons k ns =>
          have hRest := ih (i := .blanks 0) rfl fun _ => rfl
          exact apart_cons_cons.mpr ⟨hNumber n,
            apart_cons_cons.mpr ⟨rfl,
              apart_cons_cons.mpr ⟨rfl, hRest⟩⟩⟩

end Ink

theorem LedList.apart_inks
    (l : LedList)
    {is : List Ink}
    (h : Ink.Apart (.mark .rightBracket :: is)) :
    Ink.Apart (.blanks 0 :: (l.inks ++ is)) := by
  have hNumbers := Ink.apart_ofNumbers h
    (i := .mark .leftBracket) rfl (fun _ => rfl) l.numbers
  simpa [LedList.inks, Ink.joins] using hNumbers

/- Blanks and marks keep the words of an action apart. -/
theorem Action.apart_inks
    (a : Action)
    {is : List Ink}
    (h : Ink.Apart (.newline :: is)) :
    Ink.Apart (a.inks ++ .newline :: is) := by
  cases a with
  | glow leds color =>
      have hColor : Ink.Apart (.mark .rightBracket ::
          (.blanks 0 :: color.inks ++ .newline :: is)) := by
        simp [Color.inks, Ink.joins, h]
      have hLeds := leds.apart_inks hColor
      simpa [Action.inks, Action.operands, Ink.joins,
        Ink.startsWord] using hLeds
  | ramp leds start stop duration =>
      have hRest : Ink.Apart (.mark .rightBracket ::
          (.blanks 0 :: (start.inks ++
            .blanks 0 :: .keyword .toward :: .blanks 0 ::
              (stop.inks ++ .blanks 0 :: .keyword .within ::
                .blanks 0 :: duration.inks)) ++
            .newline :: is)) := by
        simp [Color.inks, Duration.inks, Ink.joins,
          Ink.startsWord, h]
      have hLeds := leds.apart_inks hRest
      simpa [Action.inks, Action.operands, Ink.joins,
        Ink.startsWord] using hLeds
  | callAsync function zOrder =>
      cases zOrder <;>
        simp [Action.inks, Action.operands, Ink.ofOption,
          Ink.joins, Ink.startsWord, h]
  | _ =>
      simp [Action.inks, Action.operands, Ink.ofOption,
        Duration.inks, Ink.joins, Ink.startsWord, h]

theorem Entry.apart_inks
    (e : Entry)
    {is : List Ink}
    (h : Ink.Apart is) :
    Ink.Apart (e.inks ++ .newline :: is) := by
  have hLine := Ink.apart_newline h
  cases e with
  | statement s =>
      exact Ink.apart_cons_cons.mpr
        ⟨rfl, s.action.apart_inks hLine⟩
  | _ =>
      simp [Entry.inks, Ink.ofTable, Ink.joins,
        Ink.startsWord, hLine]

theorem Script.apart_inks
    (s : Script) :
    Ink.Apart s.inks := by
  unfold inks
  induction s.entries with
  | nil => exact Ink.apart_nil
  | cons e es ih =>
      rw [List.flatMap_cons, List.append_assoc]
      exact e.apart_inks ih

------------------------------------------------------------
-- Inks That Are Valid
------------------------------------------------------------

/- Counts are far below the bound of numbers. -/
theorem Piece.lt_numberBound
    {n : Nat}
    (h : n ≤ LineFault.maxRepeat) :
    n < numberBound :=
  Nat.lt_of_le_of_lt h (by decide)

theorem Ink.valid_ofNumbers
    {ns : List Nat}
    (h : ∀ n ∈ ns, n < Piece.numberBound) :
    ∀ i ∈ ofNumbers ns, i.Valid := by
  induction ns with
  | nil => simp [ofNumbers]
  | cons n ns ih =>
      rcases List.forall_mem_cons.mp h with ⟨hFirst, hRest⟩
      cases ns with
      | nil => simpa [ofNumbers, Valid] using hFirst
      | cons m ns =>
          simpa [ofNumbers, Valid, hFirst] using ih hRest

theorem Ink.valid_ofOption
    {n : Nat}
    (h : n ≤ LineFault.maxRepeat)
    (k : Keyword) :
    ∀ i ∈ ofOption k n, i.Valid := by
  simpa [ofOption, Valid] using Piece.lt_numberBound h

theorem LedList.valid_inks
    {l : LedList}
    (h : l.WellFormed) :
    ∀ i ∈ l.inks, i.Valid := by
  have hNumbers : ∀ n ∈ l.numbers,
      n < Piece.numberBound := by
    intro n hn
    exact Piece.lt_numberBound
      (Nat.le_trans (h.range n hn).2 (by decide))
  simpa [LedList.inks, Ink.Valid, or_imp, forall_and]
    using Ink.valid_ofNumbers hNumbers

theorem Color.valid_inks
    (c : Color) :
    ∀ i ∈ c.inks, i.Valid := by
  have hByte (b : UInt8) : b.toNat < Piece.numberBound :=
    Piece.lt_numberBound
      (Nat.le_trans (Nat.le_of_lt b.toNat_lt) (by decide))
  simp [Color.inks, Ink.Valid, hByte]

theorem Duration.valid_inks
    {d : Duration}
    (h : d.WellFormed) :
    ∀ i ∈ d.inks, i.Valid := by
  have hUnit : Text.isIdentifier d.unit.suffix = true := by
    cases d.unit <;> decide
  simp only [Duration.inks, List.forall_mem_cons]
  exact ⟨h, hUnit, List.forall_mem_nil _⟩

theorem Action.valid_operands
    {a : Action}
    (h : a.WellFormed) :
    ∀ i ∈ a.operands, i.Valid := by
  cases a with
  | glow leds color =>
      simp only [operands, List.forall_mem_append,
        List.forall_mem_cons]
      exact ⟨LedList.valid_inks h.1, trivial,
        color.valid_inks⟩
  | ramp leds start stop duration =>
      simp only [operands, List.forall_mem_append,
        List.forall_mem_cons]
      exact ⟨LedList.valid_inks h.1, trivial,
        start.valid_inks, trivial, trivial, trivial,
        stop.valid_inks, trivial, trivial, trivial,
        Duration.valid_inks h.2.2.2⟩
  | pause duration => exact Duration.valid_inks h
  | here label =>
      simp only [operands, List.forall_mem_singleton]
      exact h
  | goto label =>
      simp only [operands, List.forall_mem_singleton]
      exact h
  | call function count =>
      simp only [operands, List.forall_mem_cons]
      exact ⟨h.1, trivial, Ink.valid_ofOption h.2.2 _⟩
  | callAsync function zOrder =>
      cases zOrder with
      | none =>
          simp only [operands, List.forall_mem_singleton]
          exact h.1
      | some z =>
          simp only [operands, List.forall_mem_cons]
          exact ⟨h.1, trivial, Ink.valid_ofOption
            (Nat.le_trans (h.2 z rfl) (by decide)) _⟩

theorem Entry.valid_inks
    {e : Entry}
    (h : e.WellFormed) :
    ∀ i ∈ e.inks, i.Valid := by
  cases e with
  | header name =>
      simp only [inks, List.forall_mem_singleton]
      exact h
  | statement s =>
      simpa [inks, Action.inks, Ink.Valid]
        using Action.valid_operands h
  | _ =>
      simp only [inks, Ink.ofTable, List.forall_mem_cons]
      exact ⟨trivial, trivial, trivial, h.1, trivial, trivial,
        trivial, h.2, List.forall_mem_nil _⟩

theorem Script.wellFormed_of_mem_entries
    {s : Script}
    (h : s.WellFormed) :
    ∀ e ∈ s.entries, e.WellFormed := by
  intro e he
  simp only [entries, List.mem_append, List.mem_map,
    List.mem_flatMap, Function.entries, List.mem_cons] at he
  rcases he with (⟨d, hd, rfl⟩ | ⟨a, ha, rfl⟩) | hFunction
  · exact h.settings d hd
  · exact h.aliases a ha
  · rcases hFunction with ⟨f, hf, rfl | ⟨st, hst, rfl⟩⟩
    · exact h.functions f hf
    · exact h.statements f hf st hst

theorem Script.valid_inks
    {s : Script}
    (h : s.WellFormed) :
    ∀ i ∈ s.inks, i.Valid := by
  intro i hi
  rcases List.mem_flatMap.mp hi with ⟨e, he, hi⟩
  rcases List.mem_append.mp hi with hi | hi
  · exact Entry.valid_inks
      (wellFormed_of_mem_entries h e he) i hi
  · rw [List.mem_singleton.mp hi]
    trivial

end LightShow
