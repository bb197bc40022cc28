import Mathlib
import LightShow.Proofs.Scanning
import LightShow.Script.Rendering
import LightShow.Script.WellFormed

/-
  What is written is cut into the same pieces again.

  A line is written as a list of inks: blanks, and tokens in
  the one spelling that is used for them. A piece of a text
  goes on as long as characters of its class follow, so inks
  come back as long as no ink runs into the next one, which
  the kinds of the two decide.

  Key definitions include:
    * `Ink`
    * `Ink.chars`
    * `Ink.Valid`
    * `Ink.joins`
    * `Ink.Apart`

  Main statements:
    * `Ink.next_chars`
    * `Ink.ofChars_chars`
    * `Token.collect_clean`
-/

namespace LightShow

------------------------------------------------------------
-- Inks
------------------------------------------------------------

/- A reserved word as it is written. -/
def Keyword.spelling : Keyword → String
  | .glowImmediate => "glowImmediate"
  | .glowRamp => "glowRamp"
  | .callAsync => "callAsync"
  | k => k.text

/- What stands at one place of a line. -/
inductive Ink where
  | blanks (more : Nat)
  | mark (mark : Mark)
  | keyword (word : Keyword)
  | word (name : String)
  | function (name : String)
  | number (value : Nat)
  | text (text : String)
  | newline
deriving DecidableEq, Repr

namespace Ink

/- The characters of an ink. -/
def chars : Ink → List Char
  | .blanks more => ' ' :: List.replicate more ' '
  | .mark m => [m.char]
  | .keyword k => k.spelling.toList
  | .word name => name.toList
  | .function name => name.toList
  | .number n => Nat.toDigits 10 n
  | .text s => (quoted s).toList
  | .newline => ['\n']

/- The token that an ink is; blanks are none. -/
def kind? : Ink → Option Token.Kind
  | .blanks _ => none
  | .mark m => some (.mark m)
  | .keyword k => some (.keyword k)
  | .word name => some (.word name)
  | .function name => some (.function name)
  | .number n => some (.number n)
  | .text s => some (.quoted s)
  | .newline => some .newline

/- The piece that an ink is cut into. -/
def piece (i : Ink) : Piece :=
  ⟨i.kind?.elim .gap (.token · none), i.chars⟩

/- An ink whose characters are those of its token. -/
def Valid : Ink → Prop
  | .word name => Text.isIdentifier name
  | .function name => Text.isFunctionName name
  | .number n => n < Piece.numberBound
  | .text s => Text.isQuotable s
  | _ => True

/- The characters that would continue an ink. -/
def continues : Ink → Char → Bool
  | .blanks _ => Text.isGap
  | .keyword _ => Text.isWordChar
  | .word _ => Text.isWordChar
  | .function _ => Text.isWordChar
  | .number _ => Char.isDigit
  | _ => fun _ => false

/- Whether an ink starts with a word character. -/
def startsWord : Ink → Bool
  | .keyword _ => true
  | .word _ => true
  | .number _ => true
  | _ => false

/- Whether an ink would run into the one behind it. -/
def joins : Ink → Ink → Bool
  | .blanks _, .blanks _ => true
  | .number _, .number _ => true
  | .keyword _, j => j.startsWord
  | .word _, j => j.startsWord
  | .function _, j => j.startsWord
  | _, _ => false

/- Inks of which none runs into the next. -/
def Apart (is : List Ink) : Prop :=
  is.IsChain fun i j => i.joins j = false

@[simp] theorem apart_nil : Apart [] :=
  List.isChain_nil

@[simp] theorem apart_singleton
    (i : Ink) :
    Apart [i] :=
  List.isChain_singleton i

@[simp] theorem apart_cons_cons
    {i j : Ink}
    {is : List Ink} :
    Apart (i :: j :: is) ↔
      i.joins j = false ∧ Apart (j :: is) :=
  List.isChain_cons_cons

end Ink

------------------------------------------------------------
-- Characters
------------------------------------------------------------

namespace Text

theorem toLower_of_isSmall
    {c : Char}
    (h : isSmall c = true) :
    c.toLower = c := by
  have hSmall : c.isUpper = false := by
    simp only [isSmall, Bool.and_eq_true,
      Bool.not_eq_true'] at h
    exact h.2
  exact Char.toLower_eq_of_not_isUpper
    (Bool.eq_false_iff.mp hSmall)

/- Lowering leaves small letters alone. -/
theorem lower_eq_self
    {s : String}
    (h : ∀ c ∈ s.toList, c.toLower = c) :
    lower s = s := by
  have hChars : s.toList.map Char.toLower = s.toList :=
    (List.map_congr_left h).trans (List.map_id' _)
  rw [lower, hChars, String.ofList_toList]

/- A character is none that its class leaves out. -/
theorem ne_of_class
    {p : Char → Bool}
    {c d : Char}
    (hc : p c = true)
    (hd : p d = false) :
    c ≠ d := by
  rintro rfl
  rw [hc] at hd
  cases hd

theorem isGap_eq_false
    {p : Char → Bool}
    {c : Char}
    (hc : p c = true)
    (hBlank : p ' ' = false)
    (hTab : p '\t' = false)
    (hReturn : p '\r' = false) :
    isGap c = false := by
  simp [isGap, ne_of_class hc hBlank, ne_of_class hc hTab,
    ne_of_class hc hReturn]

theorem isDigit_of_isWordStart
    {c : Char}
    (h : isWordStart c = true) :
    c.isDigit = false := by
  simp only [isWordStart, Char.isAlpha, Char.isUpper,
    Char.isLower, Bool.or_eq_true, decide_eq_true_eq,
    beq_iff_eq] at h
  unfold Char.isDigit
  rcases h with (hUpper | hLower) | rfl
  · simp [UInt32.le_iff_toNat_le] at hUpper ⊢
    omega
  · simp [UInt32.le_iff_toNat_le] at hLower ⊢
    omega
  · decide

end Text

namespace Piece

/- A run ends where its class ends. -/
theorem run_append
    {p : Char → Bool}
    {cs rest : List Char}
    (hRun : ∀ c ∈ cs, p c = true)
    (hStop : ∀ c ∈ rest.head?, p c = false)
    (lexeme : List Char → Lexeme)
    (c : Char) :
    run p lexeme c (cs ++ rest) =
      (⟨lexeme (c :: cs), c :: cs⟩, rest) := by
  have hRest :
      rest.takeWhile p = [] ∧ rest.dropWhile p = rest := by
    cases rest with
    | nil => exact ⟨rfl, rfl⟩
    | cons d rest =>
        have hFirst := hStop d rfl
        simp [hFirst]
  rw [run, List.takeWhile_append_of_pos hRun,
    List.dropWhile_append_of_pos hRun, hRest.1, hRest.2,
    List.append_nil]

/- A string ends with its quote. -/
theorem string_append
    {quote : Char}
    {cs rest : List Char}
    (h : ∀ c ∈ cs, continuesString quote c = true) :
    string quote (cs ++ quote :: rest) =
      (⟨.token (.quoted (String.ofList cs)) none,
        quote :: cs ++ [quote]⟩, rest) := by
  have hStop : continuesString quote quote = false := by
    simp [continuesString]
  simp [string, List.takeWhile_append_of_pos h,
    List.dropWhile_append_of_pos h, hStop]

theorem next_of_isGap
    {c : Char}
    (h : Text.isGap c = true)
    (cs : List Char) :
    next c cs = run Text.isGap (fun _ => .gap) c cs := by
  rw [next, if_pos h]

theorem next_of_isDigit
    {c : Char}
    (h : c.isDigit = true)
    (cs : List Char) :
    next c cs = run Char.isDigit number c cs := by
  have hGap := Text.isGap_eq_false h rfl rfl rfl
  have hSlash : c ≠ '/' := Text.ne_of_class h rfl
  have hNewline : c ≠ '\n' := Text.ne_of_class h rfl
  have hDouble : c ≠ '"' := Text.ne_of_class h rfl
  have hSingle : c ≠ '\'' := Text.ne_of_class h rfl
  simp [next, hGap, hSlash, hNewline, hDouble, hSingle, h]

theorem next_of_isWordStart
    {c : Char}
    (h : Text.isWordStart c = true)
    (cs : List Char) :
    next c cs =
      run Text.isWordChar
        (fun w => .token (.ofWord (wordText w)) none) c
        cs := by
  have hGap := Text.isGap_eq_false h rfl rfl rfl
  have hSlash : c ≠ '/' := Text.ne_of_class h rfl
  have hNewline : c ≠ '\n' := Text.ne_of_class h rfl
  have hDouble : c ≠ '"' := Text.ne_of_class h rfl
  have hSingle : c ≠ '\'' := Text.ne_of_class h rfl
  have hDigit := Text.isDigit_of_isWordStart h
  simp [next, hGap, hSlash, hNewline, hDouble, hSingle,
    hDigit, h]

theorem next_at
    {c : Char}
    (h : Text.isWordChar c = true)
    (cs : List Char) :
    next '@' (c :: cs) =
      run Text.isWordChar
        (fun w => .token (.function (wordText w)) none) '@'
        (c :: cs) := by
  have hGap : Text.isGap '@' = false := by decide
  have hStart : Text.isWordStart '@' = false := by decide
  simp [next, hGap, hStart, h]

theorem next_quote
    {quote : Char}
    (h : quote = '"' ∨ quote = '\'')
    (cs : List Char) :
    next quote cs = string quote cs := by
  rcases h with rfl | rfl <;> rfl

theorem next_mark
    (m : Mark)
    (cs : List Char) :
    next m.char cs =
      (⟨.token (.mark m) none, [m.char]⟩, cs) := by
  cases m <;> rfl

/- A number is read back from its digits. -/
theorem number_toDigits
    {n : Nat}
    (h : n < numberBound) :
    number (Nat.toDigits 10 n) = .token (.number n) none := by
  have hValue :
      Text.digitsValue (Nat.toDigits 10 n) = n :=
    Nat.ofDigitChars_toDigits (by decide) (by decide)
  simp [number, hValue, h]

end Piece

------------------------------------------------------------
-- Inks Come Back
------------------------------------------------------------

namespace Ink

/- A reserved word is written as a word. -/
theorem exists_spelling
    (k : Keyword) :
    ∃ c cs,
      k.spelling.toList = c :: cs ∧
        Text.isWordStart c = true ∧
        cs.all Text.isWordChar = true ∧
        Token.Kind.ofWord (Piece.wordText (c :: cs)) =
          .keyword k := by
  cases k <;>
    exact ⟨_, _, rfl, by decide, by decide, by decide⟩

theorem isWordChar_of_isSmall
    {c : Char}
    (h : Text.isSmall c = true) :
    Text.isWordChar c = true :=
  (Bool.and_eq_true_iff.mp h).1

/- An identifier is a word that is not reserved. -/
theorem exists_identifier
    {name : String}
    (h : Text.isIdentifier name = true) :
    ∃ c cs,
      name.toList = c :: cs ∧
        Text.isWordStart c = true ∧
        (∀ d ∈ cs, Text.isWordChar d = true) ∧
        Token.Kind.ofWord (Piece.wordText (c :: cs)) =
          .word name := by
  simp only [Text.isIdentifier, Bool.and_eq_true,
    Option.isNone_iff_eq_none] at h
  rcases h with ⟨⟨hFirst, hSmall⟩, hFree⟩
  cases hChars : name.toList with
  | nil =>
      rw [hChars] at hFirst
      cases hFirst
  | cons c cs =>
      have hText : Piece.wordText (c :: cs) = name := by
        rw [Piece.wordText, ← hChars, String.ofList_toList]
        exact Text.lower_eq_self fun d hd =>
          Text.toLower_of_isSmall
            (List.all_eq_true.mp hSmall d hd)
      rw [hChars] at hFirst hSmall
      refine ⟨c, cs, rfl, hFirst, ?_, ?_⟩
      · intro d hd
        exact isWordChar_of_isSmall (List.all_eq_true.mp hSmall
          d (List.mem_cons_of_mem c hd))
      · rw [hText, Token.Kind.ofWord, hFree]

theorem exists_functionName
    {name : String}
    (h : Text.isFunctionName name = true) :
    ∃ c cs,
      name.toList = '@' :: c :: cs ∧
        (∀ d ∈ c :: cs, Text.isWordChar d = true) ∧
        Piece.wordText ('@' :: c :: cs) = name := by
  unfold Text.isFunctionName at h
  split at h
  · rename_i c cs hChars
    have hSmall := List.all_eq_true.mp h
    refine ⟨c, cs, hChars, ?_, ?_⟩
    · exact fun d hd => isWordChar_of_isSmall (hSmall d hd)
    · rw [Piece.wordText, ← hChars, String.ofList_toList]
      apply Text.lower_eq_self
      rw [hChars]
      intro d hd
      rcases List.mem_cons.mp hd with rfl | hd
      · decide
      · exact Text.toLower_of_isSmall (hSmall d hd)
  · cases h

/- The quotes around a text are not in it. -/
theorem exists_quote
    {s : String}
    (h : Text.isQuotable s = true) :
    ∃ quote,
      (quote = '"' ∨ quote = '\'') ∧
        (quoted s).toList =
          quote :: (s.toList ++ [quote]) ∧
        ∀ c ∈ s.toList,
          Piece.continuesString quote c = true := by
  simp only [Text.isQuotable, Bool.and_eq_true,
    Bool.not_eq_true', List.contains_eq_mem,
    decide_eq_false_iff_not] at h
  rcases h with ⟨hLine, hOne⟩
  have hContinues {quote : Char} (hFree : quote ∉ s.toList) :
      ∀ c ∈ s.toList,
        Piece.continuesString quote c = true := by
    intro c hc
    have hQuote : c ≠ quote := by
      rintro rfl
      exact hFree hc
    have hNewline : c ≠ '\n' := by
      rintro rfl
      exact hLine hc
    simp [Piece.continuesString, hQuote, hNewline]
  by_cases hDouble : '"' ∈ s.toList
  · refine ⟨'\'', .inr rfl, ?_, hContinues ?_⟩
    · simp [quoted, hDouble]
    · simpa [hDouble] using hOne
  · refine ⟨'"', .inl rfl, ?_, hContinues hDouble⟩
    simp [quoted, hDouble]

/-
  An ink is cut off what is written, up to a character that
  does not continue it.
-/
theorem next_chars
    {i : Ink}
    (hValid : i.Valid)
    {rest : List Char}
    (hStop : ∀ c ∈ rest.head?, i.continues c = false) :
    ∃ c cs,
      i.chars = c :: cs ∧
        Piece.next c (cs ++ rest) = (i.piece, rest) := by
  cases i with
  | blanks more =>
      refine ⟨_, _, rfl, ?_⟩
      have hBlank : Text.isGap ' ' = true := by decide
      rw [Piece.next_of_isGap hBlank]
      refine Piece.run_append ?_ hStop _ _
      intro c hc
      rw [List.eq_of_mem_replicate hc]
      exact hBlank
  | mark m => exact ⟨_, _, rfl, Piece.next_mark m rest⟩
  | keyword k =>
      rcases exists_spelling k
        with ⟨c, cs, hChars, hStart, hAll, hKind⟩
      refine ⟨c, cs, hChars, ?_⟩
      rw [Piece.next_of_isWordStart hStart,
        Piece.run_append (List.all_eq_true.mp hAll) hStop,
        hKind, ← hChars]
      rfl
  | word name =>
      rcases exists_identifier hValid
        with ⟨c, cs, hChars, hStart, hAll, hKind⟩
      refine ⟨c, cs, hChars, ?_⟩
      rw [Piece.next_of_isWordStart hStart,
        Piece.run_append hAll hStop, hKind, ← hChars]
      rfl
  | function name =>
      rcases exists_functionName hValid
        with ⟨c, cs, hChars, hAll, hText⟩
      refine ⟨'@', c :: cs, hChars, ?_⟩
      rw [List.cons_append, Piece.next_at
        (hAll c (List.mem_cons_self ..)), ← List.cons_append,
        Piece.run_append hAll hStop, hText, ← hChars]
      rfl
  | number n =>
      cases hDigits : Nat.toDigits 10 n with
      | nil => exact absurd hDigits Nat.toDigits_ne_nil
      | cons c cs =>
          have hAll : ∀ d ∈ c :: cs, d.isDigit = true := by
            intro d hd
            rw [← hDigits] at hd
            exact Nat.isDigit_of_mem_toDigits (by decide)
              (by decide) hd
          rcases List.forall_mem_cons.mp hAll
            with ⟨hFirst, hRest⟩
          refine ⟨c, cs, hDigits, ?_⟩
          rw [Piece.next_of_isDigit hFirst,
            Piece.run_append hRest hStop, ← hDigits,
            Piece.number_toDigits hValid]
          rfl
  | text s =>
      rcases exists_quote hValid
        with ⟨quote, hQuote, hChars, hAll⟩
      refine ⟨quote, s.toList ++ [quote], hChars, ?_⟩
      rw [List.append_assoc, List.singleton_append,
        Piece.next_quote hQuote, Piece.string_append hAll,
        String.ofList_toList, piece, chars, hChars]
      rfl
  | newline => exact ⟨_, _, rfl, rfl⟩

/- The class of the first character of an ink. -/
def Starts : Ink → Char → Prop
  | .blanks _, c => c = ' '
  | .mark m, c => c = m.char
  | .keyword _, c => Text.isWordStart c = true
  | .word _, c => Text.isWordStart c = true
  | .function _, c => c = '@'
  | .number _, c => c.isDigit = true
  | .text _, c => c = '"' ∨ c = '\''
  | .newline, c => c = '\n'

theorem exists_first
    {i : Ink}
    (hValid : i.Valid) :
    ∃ c cs, i.chars = c :: cs ∧ i.Starts c := by
  cases i with
  | blanks more => exact ⟨_, _, rfl, rfl⟩
  | mark m => exact ⟨_, _, rfl, rfl⟩
  | keyword k =>
      rcases exists_spelling k with ⟨c, cs, hChars, hStart, -⟩
      exact ⟨c, cs, hChars, hStart⟩
  | word name =>
      rcases exists_identifier hValid
        with ⟨c, cs, hChars, hStart, -⟩
      exact ⟨c, cs, hChars, hStart⟩
  | function name =>
      rcases exists_functionName hValid
        with ⟨c, cs, hChars, -⟩
      exact ⟨_, _, hChars, rfl⟩
  | number n =>
      rcases List.exists_cons_of_ne_nil
        (Nat.toDigits_ne_nil (n := n) (b := 10))
        with ⟨c, cs, hDigits⟩
      refine ⟨c, cs, hDigits, ?_⟩
      apply Nat.isDigit_of_mem_toDigits (b := 10) (n := n)
        (by decide) (by decide)
      rw [hDigits]
      exact List.mem_cons_self ..
  | text s =>
      rcases exists_quote hValid
        with ⟨quote, hQuote, hChars, -⟩
      exact ⟨quote, _, hChars, hQuote⟩
  | newline => exact ⟨_, _, rfl, rfl⟩

/- An ink that does not join another does not continue it. -/
theorem continues_of_starts
    {i j : Ink}
    {c : Char}
    (hFirst : j.Starts c)
    (hApart : i.joins j = false) :
    i.continues c = false := by
  cases j with
  | blanks more =>
      cases hFirst
      cases i <;> first | rfl | cases hApart
  | mark m =>
      cases hFirst
      cases i <;> cases m <;> rfl
  | keyword k =>
      cases i with
      | blanks more =>
          exact Text.isGap_eq_false hFirst rfl rfl rfl
      | number n => exact Text.isDigit_of_isWordStart hFirst
      | _ => first | rfl | cases hApart
  | word name =>
      cases i with
      | blanks more =>
          exact Text.isGap_eq_false hFirst rfl rfl rfl
      | number n => exact Text.isDigit_of_isWordStart hFirst
      | _ => first | rfl | cases hApart
  | function name =>
      cases hFirst
      cases i <;> rfl
  | number n =>
      cases i with
      | blanks more =>
          exact Text.isGap_eq_false hFirst rfl rfl rfl
      | _ => first | rfl | cases hApart
  | text s =>
      rcases hFirst with rfl | rfl <;> cases i <;> rfl
  | newline =>
      cases hFirst
      cases i <;> rfl

/-
  Inks of which none joins the next are cut into themselves.
-/
theorem ofChars_chars
    {is : List Ink}
    (hValid : ∀ i ∈ is, i.Valid)
    (hApart : Apart is) :
    Piece.ofChars (is.flatMap chars) = is.map piece := by
  induction is with
  | nil => simp [Piece.ofChars]
  | cons i is ih =>
      rcases List.forall_mem_cons.mp hValid
        with ⟨hFirst, hRest⟩
      have hStop : ∀ c ∈ (is.flatMap chars).head?,
          i.continues c = false := by
        cases is with
        | nil =>
            intro c hc
            cases hc
        | cons j js =>
            rcases exists_first
              (hRest j (List.mem_cons_self ..))
              with ⟨d, ds, hChars, hStarts⟩
            intro c hc
            rw [List.flatMap_cons, hChars] at hc
            cases hc
            exact continues_of_starts hStarts
              (apart_cons_cons.mp hApart).1
      rcases next_chars hFirst hStop
        with ⟨c, cs, hChars, hNext⟩
      rw [List.flatMap_cons, hChars, List.cons_append,
        Piece.ofChars, hNext, ih hRest (List.IsChain.tail hApart),
        List.map_cons]

end Ink

------------------------------------------------------------
-- Tokens Of Clean Pieces
------------------------------------------------------------

namespace Piece

/- A piece without a fault. -/
def Clean (q : Piece) : Prop :=
  q.lexeme = .gap ∨ ∃ kind, q.lexeme = .token kind none

/- The token that a piece is. -/
def kind? (q : Piece) : Option Token.Kind :=
  match q.lexeme with
  | .token kind _ => some kind
  | _ => none

end Piece

theorem Ink.clean_piece
    (i : Ink) :
    i.piece.Clean := by
  cases i with
  | blanks more => exact .inl rfl
  | _ => exact .inr ⟨_, rfl⟩

theorem Ink.kind?_piece
    (i : Ink) :
    i.piece.kind? = i.kind? := by
  cases i <;> rfl

namespace Token

/- Clean pieces leave the log alone. -/
theorem collect_clean
    (source : SourceText)
    {pieces : List Piece}
    (h : ∀ q ∈ pieces, q.Clean)
    (p : Position)
    (log : Log) :
    (collect source pieces p log).log = log ∧
      (collect source pieces p log).tokens.map Token.kind =
        pieces.filterMap Piece.kind? ++ [.endOfFile] := by
  induction pieces generalizing p with
  | nil => exact ⟨rfl, rfl⟩
  | cons q pieces ih =>
      rcases List.forall_mem_cons.mp h with ⟨hFirst, hRest⟩
      have hTail := ih hRest (p.advanceAll q.chars)
      rcases hFirst with hGap | ⟨kind, hToken⟩
      · simpa [collect, hGap, Piece.kind?] using hTail
      · simpa [collect, hToken, Piece.kind?, Lexed.cons]
          using hTail

/- No error is taken back. -/
theorem totalErrors_le_collect
    (source : SourceText)
    (pieces : List Piece)
    (p : Position)
    (log : Log) :
    log.totalErrors ≤
      (collect source pieces p log).log.totalErrors := by
  induction pieces generalizing p log with
  | nil => exact Nat.le_refl _
  | cons q pieces ih =>
      simp only [collect]
      split
      · exact ih _ _
      · split
        · exact Nat.le_succ _
        · exact Nat.le_of_succ_le (ih _ (log.pushError _))
      · exact ih _ _
      · split
        · exact Nat.le_succ _
        · exact Nat.le_of_succ_le (ih _ (log.pushError _))

/- Without errors in the log, all pieces are clean. -/
theorem clean_of_collect
    {source : SourceText}
    {pieces : List Piece}
    {p : Position}
    {log : Log}
    (h : (collect source pieces p log).log.totalErrors = 0) :
    ∀ q ∈ pieces, q.Clean := by
  induction pieces generalizing p log with
  | nil =>
      intro q hq
      cases hq
  | cons q pieces ih =>
      simp only [collect] at h
      have hLate (d : Diagnostic) (p : Position) :
          (collect source pieces p
            (log.pushError d)).log.totalErrors ≠ 0 := by
        have hLe := totalErrors_le_collect source pieces p
          (log.pushError d)
        have hPushed :
            (log.pushError d).totalErrors =
              log.totalErrors + 1 := rfl
        omega
      refine (List.forall_mem_cons (p := Piece.Clean)).mpr ?_
      split at h
      · rename_i hGap
        exact ⟨.inl hGap, ih h⟩
      · split at h
        · cases h
        · exact absurd h (hLate _ _)
      · rename_i kind hToken
        exact ⟨.inr ⟨kind, hToken⟩, ih h⟩
      · split at h
        · cases h
        · exact absurd h (hLate _ _)

/- A text that has no faults has none under any name. -/
theorem ofSource_of_clean
    {text : String}
    (h : (ofSource ⟨"", text⟩).log.hasErrors = false)
    (name : String) :
    (ofSource ⟨name, text⟩).log = .empty := by
  have hNone : (ofSource ⟨"", text⟩).log.totalErrors = 0 := by
    simpa [Log.hasErrors] using h
  rw [ofSource_eq_collect] at hNone ⊢
  exact (collect_clean _ (clean_of_collect hNone) _ _).1

/- The tokens of what is written are those of the inks. -/
theorem ofSource_chars
    (is : List Ink)
    (hValid : ∀ i ∈ is, i.Valid)
    (hApart : Ink.Apart is)
    {source : SourceText}
    (hText : source.text.toList = is.flatMap Ink.chars) :
    (ofSource source).log = .empty ∧
      (ofSource source).tokens.map Token.kind =
        is.filterMap Ink.kind? ++ [.endOfFile] := by
  have hClean : ∀ q ∈ is.map Ink.piece, q.Clean := by
    intro q hq
    rcases List.mem_map.mp hq with ⟨i, -, rfl⟩
    exact i.clean_piece
  have hKinds :
      (is.map Ink.piece).filterMap Piece.kind? =
        is.filterMap Ink.kind? := by
    rw [List.filterMap_map]
    exact List.filterMap_congr fun i _ => i.kind?_piece
  rw [ofSource_eq_collect, hText,
    Ink.ofChars_chars hValid hApart, ← hKinds]
  exact collect_clean _ hClean _ _

end Token

end LightShow
