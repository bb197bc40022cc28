import LightShow.Proofs.FrontEnd
import LightShow.Proofs.LexicalTokens

/-
  Everything that is read is in range.

  Each entry of a script was read from tokens that hold only
  names and numbers of the language, through readers that
  check the numbers they narrow. The entries of lines that
  were read stay, whatever is wrong with other lines.

  Key definitions include:
    * `LedRange.Valid`
    * `Reader.Finds`
    * `Entry.InRange`
    * `Script.InRange`

  Main statements:
    * `LedRange.wellFormed_numbers`
    * `Reader.finds_action`
    * `Entry.finds_read`
    * `Script.inRange_ofSource`
-/

namespace LightShow

------------------------------------------------------------
-- Numbers Of LED Lists
------------------------------------------------------------

namespace LedRange

/- An item that names at least one LED. -/
structure Valid (r : LedRange) : Prop where
  first : 1 ≤ r.first
  ordered : r.first ≤ r.last
  last : r.last ≤ LineFault.maxLed

theorem covers_of_mem_toList
    {r : LedRange}
    {n : Nat}
    (h : n ∈ r.toList) :
    r.covers n = true := by
  rcases List.mem_range'_1.mp h with ⟨hFirst, hLast⟩
  simp only [covers, Bool.and_eq_true, decide_eq_true_eq]
  omega

/- Every number is named by some item. -/
theorem covers_of_mem_numbersAfter
    {earlier rs : List LedRange}
    {n : Nat}
    (h : n ∈ numbersAfter earlier rs) :
    ∃ r ∈ rs, r.covers n = true := by
  induction rs generalizing earlier with
  | nil => cases h
  | cons r rs ih =>
      rcases List.mem_append.mp h with hHere | hLater
      · exact ⟨r, List.mem_cons_self ..,
          covers_of_mem_toList (List.mem_of_mem_filter hHere)⟩
      · rcases ih hLater with ⟨s, hs, hCovers⟩
        exact ⟨s, List.mem_cons_of_mem r hs, hCovers⟩

/- No number is named that an earlier item names. -/
theorem not_covers_of_mem_numbersAfter
    {earlier rs : List LedRange}
    {n : Nat}
    (h : n ∈ numbersAfter earlier rs) :
    ∀ r ∈ earlier, r.covers n = false := by
  induction rs generalizing earlier with
  | nil => cases h
  | cons r rs ih =>
      rcases List.mem_append.mp h with hHere | hLater
      · have hNew := List.of_mem_filter hHere
        simpa using hNew
      · intro s hs
        exact ih hLater s (List.mem_cons_of_mem r hs)

theorem nodup_numbersAfter
    (earlier rs : List LedRange) :
    (numbersAfter earlier rs).Nodup := by
  induction rs generalizing earlier with
  | nil => exact List.nodup_nil
  | cons r rs ih =>
      refine List.Nodup.append ?_ (ih (r :: earlier)) ?_
      · exact (List.nodup_range' ..).filter _
      · intro n hHere hLater
        have hCovers :=
          covers_of_mem_toList (List.mem_of_mem_filter hHere)
        have hNot := not_covers_of_mem_numbersAfter hLater r
          (List.mem_cons_self ..)
        rw [hCovers] at hNot
        cases hNot

/- The numbers of valid items make up a list of LEDs. -/
theorem wellFormed_numbers
    {r : LedRange}
    {rs : List LedRange}
    (h : ∀ s ∈ r :: rs, s.Valid)
    (span : Span) :
    LedList.WellFormed ⟨numbers (r :: rs), span⟩ where
  nonempty := by
    have hFirst := (h r (List.mem_cons_self ..)).ordered
    have hMem : r.first ∈ r.toList :=
      List.mem_range'_1.mpr ⟨Nat.le_refl _, by omega⟩
    have hHere :
        r.first ∈ r.toList.filter fun n =>
          !([] : List LedRange).any (·.covers n) :=
      List.mem_filter.mpr ⟨hMem, rfl⟩
    exact List.ne_nil_of_mem
      (List.mem_append_left (numbersAfter [r] rs) hHere)
  nodup := nodup_numbersAfter [] (r :: rs)
  range := by
    intro n hn
    rcases covers_of_mem_numbersAfter hn with ⟨s, hs, hCovers⟩
    have hValid := h s hs
    have hFirst := hValid.first
    have hLast := hValid.last
    simp only [covers, Bool.and_eq_true,
      decide_eq_true_eq] at hCovers
    omega

end LedRange

namespace Reader

theorem valid_checkRange
    {first last : Nat}
    {firstSpan lastSpan : Span}
    {r : LedRange}
    (h : checkRange first last firstSpan lastSpan = .ok r) :
    r.Valid := by
  unfold checkRange at h
  split at h
  · cases h
  split at h
  · cases h
  split at h
  · cases h
  cases h
  exact ⟨by simp only; omega, by simp only; omega,
    by simp only; omega⟩

theorem gives_ledRange : Gives LedRange.Valid ledRange :=
  .after fun _ => .after fun _ =>
    gives_ofExcept fun _ hCheck => valid_checkRange hCheck

theorem gives_ledRanges :
    Gives (fun rs => rs ≠ [] ∧ ∀ r ∈ rs, r.Valid)
      (ledRanges : Reader (List LedRange)) := by
  intro c rs last h
  -- each item is read behind a comma, on a shorter rest
  induction hLength : c.rest.length using Nat.strongRecOn
    generalizing c rs with
  | ind n ih =>
      rw [ledRanges_eq] at h
      rcases bind_eq_ok h with ⟨r, d, hItem, h⟩
      rcases bind_eq_ok h with ⟨b, e, hComma, h⟩
      have hValid := gives_ledRange c r d hItem
      cases b with
      | false =>
          cases h
          exact ⟨List.cons_ne_nil r [],
            List.forall_mem_singleton.mpr hValid⟩
      | true =>
          rcases bind_eq_ok h with ⟨rest, f, hRest, h⟩
          cases h
          have hItemLess := consumes_ledRange _ _ _ hItem
          have hCommaLe := inline_comma.keeps.length_le hComma
          have hOthers :=
            ih e.rest.length (by omega) e rest hRest rfl
          exact ⟨List.cons_ne_nil r rest,
            List.forall_mem_cons.mpr ⟨hValid, hOthers.2⟩⟩

/- LED lists name LEDs, each once, and at least one. -/
theorem gives_ledList :
    Gives LedList.WellFormed ledList := by
  refine .after fun _ => .after fun _ => ?_
  refine gives_ledRanges.bind fun rs hRanges => ?_
  refine .after fun _ => .after fun _ => gives_pure ?_
  cases rs with
  | nil => exact absurd rfl hRanges.1
  | cons r rs =>
      exact LedRange.wellFormed_numbers hRanges.2 _

end Reader

/- Only the brightness of a color can be out of range. -/
theorem Color.outOfRange?_of_dim
    {c : Color}
    (h : c.Dim) :
    c.outOfRange? = none := by
  have hRed := c.red.toNat_lt
  have hGreen := c.green.toNat_lt
  have hBlue := c.blue.toNat_lt
  have hBright : c.bright.toNat ≤ 31 := h
  have hAll (ch : Channel) : c.get ch ≤ ch.maxValue := by
    cases ch <;> simp only [get, Channel.maxValue] <;> omega
  simp [outOfRange?, hAll]

------------------------------------------------------------
-- Reading Tokens That Can Be
------------------------------------------------------------

/- All tokens still to be read are ones that can be. -/
def Cursor.Lexical (c : Cursor) : Prop :=
  ∀ t ∈ c.rest, t.kind.Lexical

namespace Reader

section Finds

variable {α β : Type} {P : α → Prop} {Q : β → Prop}
variable {p : Reader α} {f : α → Reader β}

/- What is read off such tokens has a property. -/
def Finds (P : α → Prop) (p : Reader α) : Prop :=
  ∀ c a d, c.Lexical → p c = .ok (a, d) → P a ∧ d.Lexical

theorem Gives.finds
    (hp : Gives P p)
    (hKeeps : Keeps p) :
    Finds P p := by
  intro c a d hCursor h
  have hSuffix := hKeeps c
  rw [h] at hSuffix
  exact ⟨hp c a d h,
    fun t ht => hCursor t (hSuffix.subset ht)⟩

theorem Finds.bind
    (hp : Finds P p)
    (hf : ∀ a, P a → Finds Q (f a)) :
    Finds Q (p >>= f) := by
  intro c b e hCursor h
  rcases bind_eq_ok h with ⟨a, d, hFirst, hSecond⟩
  rcases hp c a d hCursor hFirst with ⟨ha, hNext⟩
  exact hf a ha d b e hNext hSecond

/- What is read first need not matter. -/
theorem Keeps.finds_after
    (hKeeps : Keeps p)
    (hf : ∀ a, Finds Q (f a)) :
    Finds Q (p >>= f) :=
  ((gives_anything p).finds hKeeps).bind fun a _ => hf a

theorem finds_pure
    {a : α}
    (h : P a) :
    Finds P (pure a : Reader α) :=
  (gives_pure h).finds (inline_pure a).keeps

theorem finds_ofExcept
    {r : Except LineError α}
    (h : ∀ a, r = .ok a → P a) :
    Finds P (ofExcept r) :=
  (gives_ofExcept h).finds (inline_ofExcept r).keeps

theorem finds_refusal
    (e : LineError) :
    Finds P (ofExcept (.error e)) :=
  finds_ofExcept fun _ h => by cases h

theorem finds_take
    {wanted : Wanted}
    {select : Token → Option α}
    (h : ∀ t a, t.kind.Lexical → select t = some a → P a) :
    Finds P (take wanted select) := by
  intro c a d hCursor hRead
  unfold take at hRead
  split at hRead
  · cases hRead
  · rename_i t rest hRest
    unfold Cursor.Lexical at hCursor
    rw [hRest] at hCursor
    rcases List.forall_mem_cons.mp hCursor
      with ⟨hFirst, hOthers⟩
    split at hRead
    · cases hRead
    · rename_i hSelect
      cases hRead
      exact ⟨h t _ hFirst hSelect, hOthers⟩

end Finds

theorem finds_identifier :
    Finds (fun name => Text.isIdentifier name.text)
      identifier := by
  refine finds_take ?_
  rintro ⟨kind, span⟩ name hLexical hSelect
  cases kind <;> cases hSelect
  exact hLexical

theorem finds_functionName :
    Finds (fun name => Text.isFunctionName name.text)
      functionName := by
  refine finds_take ?_
  rintro ⟨kind, span⟩ name hLexical hSelect
  cases kind <;> cases hSelect
  exact hLexical

theorem finds_number :
    Finds (fun x => x.1 < Piece.numberBound) number := by
  refine finds_take ?_
  rintro ⟨kind, span⟩ x hLexical hSelect
  cases kind <;> cases hSelect
  exact hLexical

theorem finds_duration :
    Finds Duration.WellFormed duration := by
  refine finds_number.bind fun x hAmount => ?_
  exact inline_timeUnit.keeps.finds_after fun _ =>
    finds_pure hAmount

theorem finds_ledList : Finds LedList.WellFormed ledList :=
  gives_ledList.finds inline_ledList.keeps

theorem finds_color :
    Finds (fun c => c.outOfRange? = none) color := by
  refine Gives.finds ?_ inline_color.keeps
  exact fun c a d h =>
    Color.outOfRange?_of_dim (gives_color c a d h)

theorem range_repeatCount
    {option : Option (Nat × Span)}
    {count : Nat}
    (h : repeatCount option = .ok count) :
    1 ≤ count ∧ count ≤ LineFault.maxRepeat := by
  unfold repeatCount at h
  split at h
  · cases h
    decide
  · split at h
    · rename_i hRange
      cases h
      exact hRange
    · cases h

theorem range_zOrder
    {option : Option (Nat × Span)}
    {order : Option Nat}
    (h : zOrder option = .ok order) :
    ∀ z ∈ order, z ≤ LineFault.maxZOrder := by
  unfold zOrder at h
  split at h
  · cases h
    rintro _ ⟨⟩
  · split at h
    · rename_i hRange
      cases h
      rintro _ ⟨⟩
      exact hRange
    · cases h

/- Whatever action is read, a line can state it. -/
theorem finds_action
    (start : Token) :
    Finds Action.WellFormed (action start) := by
  unfold action
  split
  · refine finds_ledList.bind fun leds hLeds => ?_
    refine finds_color.bind fun shade hShade => ?_
    exact finds_pure ⟨hLeds, hShade⟩
  · refine finds_ledList.bind fun leds hLeds => ?_
    refine finds_color.bind fun first hFirst => ?_
    refine (inline_token (by decide)).keeps.finds_after ?_
    refine fun _ => finds_color.bind fun last hLast => ?_
    refine (inline_token (by decide)).keeps.finds_after ?_
    refine fun _ => finds_duration.bind fun time hTime => ?_
    exact finds_pure ⟨hLeds, hFirst, hLast, hTime⟩
  · refine finds_duration.bind fun time hTime => ?_
    exact finds_pure hTime
  · refine finds_identifier.bind fun label hLabel => ?_
    exact finds_pure hLabel
  · refine finds_identifier.bind fun label hLabel => ?_
    exact finds_pure hLabel
  · refine finds_functionName.bind fun name hName => ?_
    refine (inline_option _).keeps.finds_after fun _ => ?_
    refine (finds_ofExcept fun _ => range_repeatCount).bind ?_
    exact fun count hCount => finds_pure ⟨hName, hCount⟩
  · refine finds_functionName.bind fun name hName => ?_
    refine (inline_option _).keeps.finds_after fun _ => ?_
    refine (finds_ofExcept fun _ => range_zOrder).bind ?_
    exact fun order hOrder => finds_pure ⟨hName, hOrder⟩
  · exact finds_refusal _

end Reader

------------------------------------------------------------
-- Entries
------------------------------------------------------------

/- An entry with names of the language and numbers in range. -/
def Entry.InRange : Entry → Prop
  | .setting d => Text.isIdentifier d.key.text = true
  | .aliasing a => Text.isIdentifier a.name.text = true
  | .header name => Text.isFunctionName name.text = true
  | .statement st => st.action.WellFormed

namespace Reader

theorem finds_setting
    (start : Span) :
    Finds Entry.InRange (setting start) := by
  refine (inline_token (by decide)).keeps.finds_after ?_
  refine fun _ => finds_identifier.bind fun key hKey => ?_
  refine (inline_token (by decide)).keeps.finds_after ?_
  refine fun _ => inline_settingValue.keeps.finds_after ?_
  refine fun _ => inline_previous.keeps.finds_after ?_
  refine fun _ => closes_lineEnd.keeps.finds_after ?_
  exact fun _ => finds_pure hKey

theorem finds_aliasLine
    (start : Span) :
    Finds Entry.InRange (aliasLine start) := by
  refine (inline_token (by decide)).keeps.finds_after ?_
  refine fun _ => finds_identifier.bind fun name hName => ?_
  refine (inline_token (by decide)).keeps.finds_after ?_
  refine fun _ => inline_aliasText.keeps.finds_after ?_
  refine fun _ => inline_previous.keeps.finds_after ?_
  refine fun _ => closes_lineEnd.keeps.finds_after ?_
  exact fun _ => finds_pure hName

theorem finds_statement
    (start : Token) :
    Finds Entry.InRange (statement start) := by
  refine (inline_token (by decide)).keeps.finds_after ?_
  refine fun _ => (finds_action start).bind ?_
  refine fun deed hDeed => ?_
  refine inline_previous.keeps.finds_after fun _ => ?_
  refine closes_lineEnd.keeps.finds_after fun _ => ?_
  exact finds_pure hDeed

end Reader

/- Every entry that is read is in range. -/
theorem Entry.finds_read
    (inFunction : Bool)
    {t : Token}
    (h : t.kind.Lexical) :
    Reader.Finds Entry.InRange (Entry.read inFunction t) := by
  unfold Entry.read
  split
  · exact Reader.finds_setting _
  · exact Reader.finds_aliasLine _
  · rename_i name hName
    rw [hName] at h
    exact Reader.closes_lineEnd.keeps.finds_after fun _ =>
      Reader.finds_pure h
  · split
    · split
      · exact Reader.finds_statement t
      · exact Reader.finds_refusal _
    · exact Reader.finds_refusal _
  · exact Reader.finds_refusal _

------------------------------------------------------------
-- Scripts
------------------------------------------------------------

/- A script of entries that are all in range. -/
structure Script.InRange (s : Script) : Prop where
  settings : ∀ d ∈ s.settings, Text.isIdentifier d.key.text
  aliases : ∀ a ∈ s.aliases, Text.isIdentifier a.name.text
  functions : ∀ f ∈ s.functions,
    Text.isFunctionName f.name.text
  statements : ∀ f ∈ s.functions, ∀ st ∈ f.body,
    st.action.WellFormed

theorem Function.map_name_pushLast
    (st : Statement)
    (fs : List Function) :
    (pushLast st fs).map Function.name =
      fs.map Function.name := by
  induction fs using pushLast.induct with
  | case1 => rfl
  | case2 f => rfl
  | case3 f g fs ih =>
      rw [pushLast, List.map_cons, ih, ← List.map_cons]

namespace Script

/- One more entry in range keeps a script in range. -/
theorem InRange.add
    {script : Script}
    (h : script.InRange)
    {entry : Entry}
    (hEntry : entry.InRange) :
    (script.add entry).InRange := by
  have hStatements :
      (script.add entry).AllStatements fun st =>
        st.action.WellFormed := by
    refine AllStatements.add h.statements ?_
    rintro st rfl
    exact hEntry
  cases entry with
  | setting d =>
      refine ⟨?_, h.aliases, h.functions, hStatements⟩
      exact List.forall_mem_append.mpr
        ⟨h.settings, List.forall_mem_singleton.mpr hEntry⟩
  | aliasing a =>
      refine ⟨h.settings, ?_, h.functions, hStatements⟩
      exact List.forall_mem_append.mpr
        ⟨h.aliases, List.forall_mem_singleton.mpr hEntry⟩
  | header name =>
      refine ⟨h.settings, h.aliases, ?_, hStatements⟩
      exact List.forall_mem_append.mpr
        ⟨h.functions, List.forall_mem_singleton.mpr hEntry⟩
  | statement st =>
      refine ⟨h.settings, h.aliases, ?_, hStatements⟩
      intro f hf
      have hName := List.mem_map_of_mem
        (f := Function.name) hf
      rw [Script.add, Function.map_name_pushLast] at hName
      rcases List.mem_map.mp hName with ⟨g, hg, hSame⟩
      exact hSame ▸ h.functions g hg

/- Taking in tokens that can be keeps a script in range. -/
theorem InRange.turn
    {source : SourceText}
    {last : Token}
    {d : Draft}
    (h : d.script.InRange)
    {t : Token}
    {rest : List Token}
    (hTokens : ∀ u ∈ t :: rest, u.kind.Lexical) :
    (d.turn source last t rest).1.script.InRange := by
  rcases List.forall_mem_cons.mp hTokens with ⟨hFirst, hRest⟩
  have hCursor :
      Cursor.Lexical ⟨rest, last, t.span⟩ := hRest
  unfold Draft.turn
  split
  · rename_i entry c hRead
    have hEntry :=
      (Entry.finds_read _ hFirst _ _ _ hCursor hRead).1
    unfold Draft.accept
    simp only
    split <;> exact h.add hEntry
  · exact h

/- Whatever a text says, what is read of it is in range. -/
theorem inRange_ofSource
    (source : SourceText) :
    (ofSource source).script.InRange := by
  let tokens := (Token.ofSource source).tokens
  let table := (AliasTable.ofTokens source tokens).1
  have hTable : table.Holds Token.Kind.Lexical :=
    AliasTable.lexical_ofTokens source tokens
  have hTokens :
      ∀ t ∈ (table.splice tokens).1, t.kind.Lexical :=
    AliasTable.forall_splice hTable
      (Token.lexical_ofSource source)
  unfold ofSource ofTokens readTokens
  refine Draft.run_induction
    (P := fun d => d.script.InRange) ?_ ?_
  · intro d t rest hSuffix hScript
    refine hScript.turn fun u hu => hTokens u ?_
    exact (Token.skipNewlines_suffix _).subset
      (hSuffix.subset hu)
  · exact ⟨List.forall_mem_nil _, List.forall_mem_nil _,
      List.forall_mem_nil _, List.forall_mem_nil _⟩

end Script

end LightShow
