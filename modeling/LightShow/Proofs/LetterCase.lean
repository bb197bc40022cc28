import LightShow.Proofs.LexicalTokens
import LightShow.Proofs.QuotedLines
import LightShow.Proofs.Scanning

/-
  Letters are the same large and small, outside strings.

  No class of characters that cuts a text into pieces tells
  a capital from its small letter, so a text in small letters
  is cut at the same places. The tokens of words are in small
  letters already; those of strings keep their letters. If
  strings agree as well, so does all that is compiled, except
  for the lines that diagnostics quote.

  Key definitions include:
    * `Text.literals`
    * `Text.CaseBlind`
    * `Piece.lowered`
    * `Compilation.unquoted`

  Main statements:
    * `Piece.ofChars_toLower`
    * `Piece.filterMap_literal?`
    * `Token.ofSource_congr`
    * `compilation_ignores_case`
-/

namespace LightShow

------------------------------------------------------------
-- String Literals
------------------------------------------------------------

namespace Text

/- Whether a character opens a string, and may close it. -/
def isQuote (c : Char) : Bool :=
  c == '"' || c == '\''

/-
  What stands in the string literals of a text, in order. A
  literal goes up to the next quote of its kind, or to the
  end of its line; there are none in comments.
-/
def literalsOf : List Char → List String
  | [] => []
  | c :: cs =>
      if c = '/' ∧ cs.head? = some '/' then
        literalsOf (cs.dropWhile (· != '\n'))
      else if isQuote c then
        let inside := fun d => d != c && d != '\n'
        String.ofList (cs.takeWhile inside) ::
          literalsOf ((cs.dropWhile inside).drop 1)
      else literalsOf cs
termination_by cs => cs.length
decreasing_by
  · exact Nat.lt_succ_of_le (List.dropWhile_suffix _).length_le
  · rw [List.length_drop]
    have hLe := (List.dropWhile_suffix (l := cs)
      fun d => d != c && d != '\n').length_le
    exact Nat.lt_succ_of_le (Nat.le_trans (Nat.sub_le _ _) hLe)
  · exact Nat.lt_succ_self _

/- What stands in the string literals of a text. -/
def literals (s : String) : List String :=
  literalsOf s.toList

------------------------------------------------------------
-- Classes That Ignore Case
------------------------------------------------------------

/- A function that tells no letter from its small one. -/
def CaseBlind {α : Type} (f : Char → α) : Prop :=
  ∀ c, f c.toLower = f c

/- Only letters have small letters. -/
theorem toLower_eq_or_isAlpha
    (c : Char) :
    c.toLower = c ∨
      (c.isAlpha = true ∧ c.toLower.isAlpha = true) := by
  by_cases hUpper : c.isUpper = true
  · have hAlpha : c.isAlpha = true := by
      simp [Char.isAlpha, hUpper]
    exact .inr ⟨hAlpha,
      (Char.isAlpha_toLower_eq_isAlpha c).trans hAlpha⟩
  · exact .inl (Char.toLower_eq_of_not_isUpper hUpper)

/- So it is enough that all letters are treated alike. -/
theorem caseBlind_of_isAlpha
    {α : Type}
    {f : Char → α}
    {a : α}
    (h : ∀ c, c.isAlpha = true → f c = a) :
    CaseBlind f := by
  intro c
  rcases toLower_eq_or_isAlpha c with hSame | ⟨hAlpha, hLower⟩
  · rw [hSame]
  · rw [h c hAlpha, h _ hLower]

theorem ne_of_isAlpha
    {c d : Char}
    (h : c.isAlpha = true)
    (hd : d.isAlpha = false) :
    c ≠ d := by
  rintro rfl
  rw [h] at hd
  cases hd

theorem isDigit_of_isAlpha
    {c : Char}
    (h : c.isAlpha = true) :
    c.isDigit = false := by
  simp only [Char.isAlpha, Char.isUpper, Char.isLower,
    Bool.or_eq_true, Bool.and_eq_true, decide_eq_true_eq,
    ge_iff_le, UInt32.le_iff_toNat_le] at h
  simp only [Char.isDigit, Bool.and_eq_false_iff,
    decide_eq_false_iff_not, ge_iff_le,
    UInt32.le_iff_toNat_le]
  simp at h ⊢
  omega

theorem toLower_of_isDigit
    {c : Char}
    (h : c.isDigit = true) :
    c.toLower = c := by
  rcases toLower_eq_or_isAlpha c with hSame | ⟨hAlpha, -⟩
  · exact hSame
  · rw [isDigit_of_isAlpha hAlpha] at h
    cases h

theorem caseBlind_isGap : CaseBlind isGap :=
  caseBlind_of_isAlpha (a := false) fun c h => by
    simp [isGap, ne_of_isAlpha h]

theorem caseBlind_isDigit : CaseBlind Char.isDigit :=
  caseBlind_of_isAlpha fun _ => isDigit_of_isAlpha

theorem caseBlind_isWordStart : CaseBlind isWordStart :=
  caseBlind_of_isAlpha (a := true) fun c h => by
    simp [isWordStart, h]

theorem caseBlind_isWordChar : CaseBlind isWordChar :=
  caseBlind_of_isAlpha (a := true) fun c h => by
    simp [isWordChar, Char.isAlphanum, h]

theorem caseBlind_ne_newline :
    CaseBlind (· != '\n') :=
  caseBlind_of_isAlpha (a := true) fun c h => by
    simp [ne_of_isAlpha h]

theorem caseBlind_continuesString
    {quote : Char}
    (hQuote : quote.isAlpha = false) :
    CaseBlind (Piece.continuesString quote) :=
  caseBlind_of_isAlpha (a := true) fun c h => by
    simp [Piece.continuesString, ne_of_isAlpha h, hQuote]

theorem caseBlind_mark : CaseBlind Mark.ofChar? :=
  caseBlind_of_isAlpha (a := none) fun c h => by
    refine List.find?_eq_none.mpr fun m _ => ?_
    have hMark : m.char.isAlpha = false := by
      cases m <;> decide
    rw [beq_iff_eq]
    exact (ne_of_isAlpha h hMark).symm

/- No letter becomes, or is, a character of another kind. -/
theorem toLower_eq_iff
    {c d : Char}
    (hd : d.isAlpha = false) :
    c.toLower = d ↔ c = d := by
  have hBlind : CaseBlind (· == d) :=
    caseBlind_of_isAlpha (a := false) fun c h => by
      simp [ne_of_isAlpha h hd]
  rw [← beq_iff_eq, ← beq_iff_eq (a := c)]
  exact iff_of_eq (congrArg (· = true) (hBlind c))

theorem head?_toLower
    {cs : List Char}
    {d : Char}
    (hd : d.isAlpha = false) :
    (cs.map Char.toLower).head? = some d ↔
      cs.head? = some d := by
  cases cs with
  | nil => exact Iff.rfl
  | cons c cs => simp [toLower_eq_iff hd]

section Runs

variable {p : Char → Bool}

theorem takeWhile_toLower
    (h : CaseBlind p)
    (cs : List Char) :
    (cs.map Char.toLower).takeWhile p =
      (cs.takeWhile p).map Char.toLower := by
  rw [List.takeWhile_map]
  congr 2
  exact funext h

theorem dropWhile_toLower
    (h : CaseBlind p)
    (cs : List Char) :
    (cs.map Char.toLower).dropWhile p =
      (cs.dropWhile p).map Char.toLower := by
  rw [List.dropWhile_map]
  congr 2
  exact funext h

end Runs

end Text

------------------------------------------------------------
-- Pieces In Small Letters
------------------------------------------------------------

/- A lexeme with its string in small letters. -/
def Lexeme.lowered : Lexeme → Lexeme
  | .token (.quoted s) fault =>
      .token (.quoted (Text.lower s)) fault
  | lexeme => lexeme

namespace Piece

/- A piece in small letters, strings included. -/
def lowered (q : Piece) : Piece :=
  ⟨q.lexeme.lowered, q.chars.map Char.toLower⟩

/- What is cut off in small letters, and what is left. -/
def cutLowered (r : Piece × List Char) : Piece × List Char :=
  (r.1.lowered, r.2.map Char.toLower)

section Cuts

variable {c : Char}
variable {cs : List Char}

theorem run_toLower
    {p : Char → Bool}
    {lexeme : List Char → Lexeme}
    (hBlind : Text.CaseBlind p)
    (hLexeme :
      lexeme ((c :: cs.takeWhile p).map Char.toLower) =
        (lexeme (c :: cs.takeWhile p)).lowered) :
    run p lexeme c.toLower (cs.map Char.toLower) =
      cutLowered (run p lexeme c cs) := by
  simp only [run, Text.takeWhile_toLower hBlind,
    Text.dropWhile_toLower hBlind, ← List.map_cons, hLexeme]
  rfl

theorem one_toLower
    {lexeme lexeme' : Lexeme}
    (hLexeme : lexeme' = lexeme.lowered) :
    one lexeme' c.toLower (cs.map Char.toLower) =
      cutLowered (one lexeme c cs) := by
  rw [hLexeme]
  rfl

theorem string_toLower
    {quote : Char}
    (hQuote : quote.isAlpha = false)
    (hSmall : quote.toLower = quote) :
    string quote (cs.map Char.toLower) =
      cutLowered (string quote cs) := by
  have hBlind := Text.caseBlind_continuesString hQuote
  have hText (body : List Char) :
      String.ofList (body.map Char.toLower) =
        Text.lower (String.ofList body) := by
    simp [Text.lower]
  unfold string
  rw [Text.takeWhile_toLower hBlind,
    Text.dropWhile_toLower hBlind]
  cases cs.dropWhile (continuesString quote) with
  | nil =>
      simp [cutLowered, lowered, Lexeme.lowered, hText, hSmall]
  | cons d rest =>
      have hSame := Text.toLower_eq_iff (c := d) hQuote
      by_cases hEnd : d = quote
      · simp [cutLowered, lowered, Lexeme.lowered, hText,
          hSmall, hEnd]
      · simp [cutLowered, lowered, Lexeme.lowered, hText,
          hSmall, hEnd, hSame]

/- Digits are no letters. -/
theorem number_toLower
    {digits : List Char}
    (h : ∀ d ∈ digits, d.isDigit = true) :
    number (digits.map Char.toLower) =
      (number digits).lowered := by
  have hSame : digits.map Char.toLower = digits :=
    (List.map_congr_left fun d hd =>
      Text.toLower_of_isDigit (h d hd)).trans (List.map_id _)
  rw [hSame]
  unfold number
  dsimp only
  split <;> rfl

/- Words are in small letters anyway. -/
theorem wordText_toLower
    (cs : List Char) :
    wordText (cs.map Char.toLower) = wordText cs := by
  simp [wordText, Text.lower, Function.comp_def]

theorem lowered_ofWord
    (name : String) :
    Lexeme.lowered (.token (.ofWord name) none) =
      .token (.ofWord name) none := by
  unfold Token.Kind.ofWord
  split <;> rfl

/- A choice that ignores case between cuts that do. -/
theorem ite_toLower
    {P P' : Prop}
    [Decidable P]
    [Decidable P']
    {a b a' b' : Piece × List Char}
    (hSame : P' ↔ P)
    (hThen : P → a' = cutLowered a)
    (hElse : ¬P → b' = cutLowered b) :
    (if P' then a' else b') =
      cutLowered (if P then a else b) := by
  by_cases h : P
  · rw [if_pos h, if_pos (hSame.mpr h), hThen h]
  · rw [if_neg h, if_neg (mt hSame.mp h), hElse h]

/- A text in small letters is cut like the text itself. -/
theorem next_toLower
    (c : Char)
    (cs : List Char) :
    next c.toLower (cs.map Char.toLower) =
      cutLowered (next c cs) := by
  unfold next
  refine ite_toLower ?_ (fun _ => ?gap) fun _ => ?_
  · rw [Text.caseBlind_isGap c]
  case gap => exact run_toLower Text.caseBlind_isGap rfl
  refine ite_toLower ?_ (fun _ => ?comment) fun _ => ?_
  · rw [Text.toLower_eq_iff (by decide), Text.head?_toLower
      (by decide)]
  case comment =>
    exact run_toLower Text.caseBlind_ne_newline rfl
  refine ite_toLower ?_ (fun _ => ?newline) fun _ => ?_
  · exact Text.toLower_eq_iff (by decide)
  case newline => exact one_toLower rfl
  refine ite_toLower ?_ (fun hQuote => ?string) fun _ => ?_
  · rw [Text.toLower_eq_iff (by decide),
      Text.toLower_eq_iff (by decide)]
  case string =>
    rcases hQuote with rfl | rfl
    · exact string_toLower (by decide) (by decide)
    · exact string_toLower (by decide) (by decide)
  refine ite_toLower ?_ (fun hDigit => ?number) fun _ => ?_
  · rw [Text.caseBlind_isDigit c]
  case number =>
    refine run_toLower Text.caseBlind_isDigit
      (number_toLower fun d hd => ?_)
    rcases List.mem_cons.mp hd with rfl | hd
    · exact hDigit
    · exact List.mem_takeWhile_imp hd
  refine ite_toLower ?_ (fun _ => ?word) fun hWord => ?_
  · rw [Text.caseBlind_isWordStart c]
  case word =>
    refine run_toLower Text.caseBlind_isWordChar ?_
    rw [wordText_toLower, lowered_ofWord]
  refine ite_toLower ?_ (fun _ => ?function) fun _ => ?_
  · exact Text.toLower_eq_iff (by decide)
  case function =>
    refine ite_toLower ?_ (fun _ => ?_) fun _ => one_toLower rfl
    · have hBlind (d : Char) :
          Text.isWordChar d.toLower = Text.isWordChar d :=
        Text.caseBlind_isWordChar d
      simp only [List.head?_map, Option.any_map, hBlind]
    · refine run_toLower Text.caseBlind_isWordChar ?_
      rw [wordText_toLower]
      rfl
  rw [Text.caseBlind_mark c]
  cases Mark.ofChar? c with
  | some m => exact one_toLower rfl
  | none =>
      have hSame : c.toLower = c := by
        refine (Text.toLower_eq_or_isAlpha c).resolve_right ?_
        rintro ⟨hAlpha, -⟩
        exact hWord (by simp [Text.isWordStart, hAlpha])
      simp only
      refine one_toLower ?_
      rw [hSame]
      rfl

theorem ofChars_toLower
    (cs : List Char) :
    ofChars (cs.map Char.toLower) =
      (ofChars cs).map lowered := by
  fun_induction ofChars cs with
  | case1 => rw [List.map_nil, ofChars]; rfl
  | case2 c cs ih =>
      rw [List.map_cons, ofChars, next_toLower, cutLowered, ih]
      rfl

end Cuts

------------------------------------------------------------
-- Literals Among Pieces
------------------------------------------------------------

/- What stands in a piece that is a string literal. -/
def literal? (q : Piece) : Option String :=
  match q.lexeme with
  | .token (.quoted s) _ => some s
  | _ => none

theorem literal?_ofWord
    {name : String}
    {chars : List Char} :
    literal? ⟨.token (.ofWord name) none, chars⟩ = none := by
  unfold literal? Token.Kind.ofWord
  split
  · rename_i h
    split at h <;> cases h
  · rfl

end Piece

namespace Text

/- A character without a part in literals and comments. -/
def isPlain (c : Char) : Bool :=
  c != '/' && !isQuote c

theorem literalsOf_plain
    {front : List Char}
    (h : ∀ c ∈ front, isPlain c = true)
    (cs : List Char) :
    literalsOf (front ++ cs) = literalsOf cs := by
  induction front with
  | nil => rfl
  | cons c front ih =>
      rcases List.forall_mem_cons.mp h with ⟨hc, hFront⟩
      simp only [isPlain, Bool.and_eq_true, bne_iff_ne,
        Bool.not_eq_true'] at hc
      rw [List.cons_append, literalsOf,
        if_neg fun hComment => hc.1 hComment.1, if_neg (by
          rw [hc.2]; exact nofun), ih hFront]

theorem literalsOf_newline
    (cs : List Char) :
    literalsOf ('\n' :: cs) = literalsOf cs := by
  have hNoComment : ¬('\n' = '/' ∧ cs.head? = some '/') :=
    fun h => absurd h.1 (by decide)
  rw [literalsOf, if_neg hNoComment, if_neg (by decide)]

/- Runs of a class without quotes and slashes are plain. -/
theorem literalsOf_run
    {p : Char → Bool}
    (hPlain : ∀ c, p c = true → isPlain c = true)
    {c : Char}
    (hc : isPlain c = true)
    (cs : List Char) :
    literalsOf (c :: cs) = literalsOf (cs.dropWhile p) := by
  have hFront : ∀ d ∈ c :: cs.takeWhile p,
      isPlain d = true :=
    List.forall_mem_cons.mpr
      ⟨hc, fun d hd => hPlain d (List.mem_takeWhile_imp hd)⟩
  have hSplit := literalsOf_plain hFront (cs.dropWhile p)
  rwa [List.cons_append, List.takeWhile_append_dropWhile]
    at hSplit

theorem isPlain_of_isGap
    (c : Char)
    (h : isGap c = true) :
    isPlain c = true := by
  simp only [isGap, Bool.or_eq_true, beq_iff_eq] at h
  rcases h with (rfl | rfl) | rfl <;> decide

theorem isPlain_of_isWordChar
    (c : Char)
    (h : isWordChar c = true) :
    isPlain c = true := by
  have hNe (d : Char) (hd : isWordChar d = false) : c ≠ d := by
    rintro rfl
    rw [h] at hd
    cases hd
  simp [isPlain, isQuote, hNe '/' (by decide),
    hNe '"' (by decide), hNe '\'' (by decide)]

theorem isPlain_of_isDigit
    (c : Char)
    (h : c.isDigit = true) :
    isPlain c = true :=
  isPlain_of_isWordChar c (by
    simp [isWordChar, Char.isAlphanum, h])

end Text

namespace Piece

/- A cut without a literal that leaves all literals. -/
theorem literalsOf_cut
    {r : Piece × List Char}
    {cs : List Char}
    (hNone : r.1.literal? = none)
    (hRest : Text.literalsOf cs = Text.literalsOf r.2) :
    Text.literalsOf cs =
      r.1.literal?.toList ++ Text.literalsOf r.2 := by
  rw [hNone, hRest]
  rfl

theorem literalsOf_string
    {quote : Char}
    (hQuote : quote = '"' ∨ quote = '\'')
    (cs : List Char) :
    Text.literalsOf (quote :: cs) =
      (string quote cs).1.literal?.toList ++
        Text.literalsOf (string quote cs).2 := by
  have hOpens : Text.isQuote quote = true := by
    simpa [Text.isQuote] using hQuote
  have hNoComment :
      ¬(quote = '/' ∧ cs.head? = some '/') := by
    rintro ⟨rfl, -⟩
    exact absurd hQuote (by decide)
  have hInside :
      (fun d => d != quote && d != '\n') =
        continuesString quote :=
    rfl
  rw [Text.literalsOf, if_neg hNoComment, if_pos hOpens]
  simp only [hInside]
  unfold string
  cases hRest : cs.dropWhile (continuesString quote) with
  | nil => rfl
  | cons d rest =>
      have hStop := List.head?_dropWhile_not
        (continuesString quote) cs
      rw [hRest] at hStop
      by_cases hEnd : d = quote
      · simp [hEnd, literal?]
      · have hNewline : d = '\n' := by
          simpa [continuesString, hEnd] using hStop
        subst hNewline
        simp only [if_neg hEnd, Text.literalsOf_newline,
          List.drop_one, List.tail_cons, literal?,
          Option.toList_some, List.singleton_append]

theorem literalsOf_next
    (c : Char)
    (cs : List Char) :
    Text.literalsOf (c :: cs) =
      (next c cs).1.literal?.toList ++
        Text.literalsOf (next c cs).2 := by
  unfold next
  split
  · rename_i hGap
    exact literalsOf_cut rfl
      (Text.literalsOf_run Text.isPlain_of_isGap
        (Text.isPlain_of_isGap c hGap) cs)
  rename_i hGap
  split
  · rename_i hComment
    refine literalsOf_cut rfl ?_
    rw [Text.literalsOf, if_pos hComment]
    rfl
  rename_i hComment
  split
  · rename_i hNewline
    subst hNewline
    exact literalsOf_cut rfl (Text.literalsOf_newline cs)
  split
  · rename_i hQuote
    exact literalsOf_string hQuote cs
  rename_i hQuote
  have hOne :
      Text.literalsOf (c :: cs) = Text.literalsOf cs := by
    rw [Text.literalsOf, if_neg hComment, if_neg (by
      simpa [Text.isQuote] using hQuote)]
  split
  · rename_i hDigit
    refine literalsOf_cut ?_
      (Text.literalsOf_run Text.isPlain_of_isDigit
        (Text.isPlain_of_isDigit c hDigit) cs)
    unfold run number
    dsimp only
    split <;> rfl
  split
  · rename_i hWord
    exact literalsOf_cut literal?_ofWord
      (Text.literalsOf_run Text.isPlain_of_isWordChar
        (Text.isPlain_of_isWordChar c
          (Text.isWordChar_of_isWordStart hWord)) cs)
  split
  · rename_i hAt
    split
    · subst hAt
      exact literalsOf_cut rfl
        (Text.literalsOf_run Text.isPlain_of_isWordChar
          (by decide) cs)
    · exact literalsOf_cut rfl hOne
  · split <;> exact literalsOf_cut rfl hOne

/- The literals of a text are those among its pieces. -/
theorem filterMap_literal?
    (cs : List Char) :
    (ofChars cs).filterMap literal? = Text.literalsOf cs := by
  fun_induction ofChars cs with
  | case1 => rw [Text.literalsOf]; rfl
  | case2 c cs ih =>
      rw [literalsOf_next, ← ih, List.filterMap_cons]
      cases (next c cs).1.literal? <;> rfl

/- A piece that keeps the letters of strings only. -/
def folded (q : Piece) : Piece :=
  ⟨q.lexeme, q.chars.map Char.toLower⟩

/- Pieces are told apart by what stands in strings only. -/
theorem folded_eq_of_literal?
    {q r : Piece}
    (hLowered : q.lowered = r.lowered)
    (hLiteral : q.literal? = r.literal?) :
    q.folded = r.folded := by
  rcases Piece.mk.inj hLowered with ⟨hLexeme, hChars⟩
  have hSame : q.lexeme = r.lexeme := by
    unfold literal? at hLiteral
    unfold Lexeme.lowered at hLexeme
    split at hLexeme <;> split at hLexeme <;> grind
  rw [folded, folded, hSame, hChars]

/- Alike in small letters, pieces agree on being strings. -/
theorem isSome_literal?
    {q r : Piece}
    (hLowered : q.lowered = r.lowered) :
    q.literal?.isSome = r.literal?.isSome := by
  have hSome (q : Piece) :
      q.literal?.isSome = q.lowered.literal?.isSome := by
    unfold literal? lowered Lexeme.lowered
    grind
  rw [hSome q, hSome r, hLowered]

theorem map_folded_eq
    {qs rs : List Piece}
    (hLowered : qs.map lowered = rs.map lowered)
    (hLiterals :
      qs.filterMap literal? = rs.filterMap literal?) :
    qs.map folded = rs.map folded := by
  induction qs generalizing rs with
  | nil =>
      rw [List.map_nil] at hLowered
      rw [List.map_eq_nil_iff.mp hLowered.symm]
  | cons q qs ih =>
      cases rs with
      | nil => cases hLowered
      | cons r rs =>
          rcases List.cons.inj hLowered with ⟨hHead, hTail⟩
          have hSome := isSome_literal? hHead
          simp only [List.filterMap_cons] at hLiterals
          cases hq : q.literal? with
          | none =>
              rw [hq] at hLiterals hSome
              rw [Option.isSome_none, eq_comm,
                Option.isSome_eq_false_iff,
                Option.isNone_iff_eq_none] at hSome
              rw [hSome] at hLiterals
              have hFolded := folded_eq_of_literal? hHead
                (hq.trans hSome.symm)
              rw [List.map_cons, List.map_cons, hFolded,
                ih hTail hLiterals]
          | some s =>
              rw [hq] at hLiterals hSome
              rcases Option.isSome_iff_exists.mp hSome.symm
                with ⟨t, hr⟩
              rw [hr] at hLiterals
              rcases List.cons.inj hLiterals with ⟨rfl, hRest⟩
              have hFolded := folded_eq_of_literal? hHead
                (hq.trans hr.symm)
              rw [List.map_cons, List.map_cons, hFolded,
                ih hTail hRest]

end Piece

------------------------------------------------------------
-- Tokens
------------------------------------------------------------

/- Letters of both sizes take one place. -/
theorem Position.advanceAll_toLower
    (p : Position)
    (cs : List Char) :
    p.advanceAll (cs.map Char.toLower) = p.advanceAll cs := by
  have hOne (p : Position) (c : Char) :
      p.advance c.toLower = p.advance c := by
    simp only [advance, Text.toLower_eq_iff (d := '\n') rfl]
  simp only [advanceAll, List.foldl_map, hOne]

/- What was read of a text, without quoted lines. -/
def Lexed.unquoted (lexed : Lexed) : Lexed :=
  { lexed with log := lexed.log.unquoted }

namespace Token

theorem skipGaps_folded
    (p : Position)
    (pieces : List Piece) :
    skipGaps p (pieces.map Piece.folded) =
      skipGaps p pieces := by
  unfold skipGaps
  rw [List.takeWhile_map, List.foldl_map]
  simp only [Piece.folded, Position.advanceAll_toLower]
  rfl

theorem unquoted_faultAt
    (source : SourceText)
    (fault : LexFault)
    (span : Span) :
    (faultAt source fault span).unquoted =
      faultAt source.blank fault span :=
  Diagnostic.unquoted_error ..

/- Tokens depend on lexemes, and on places, only. -/
theorem collect_folded
    (source : SourceText)
    (pieces : List Piece)
    (p : Position)
    (log : Log) :
    collect source.blank (pieces.map Piece.folded) p
        log.unquoted =
      (collect source pieces p log).unquoted := by
  induction pieces generalizing p log with
  | nil => rfl
  | cons q qs ih =>
      rcases q with ⟨lexeme, chars⟩
      simp only [List.map_cons, Piece.folded, collect,
        Position.advanceAll_toLower, ← unquoted_faultAt,
        ← Log.unquoted_pushError, Log.isFull_unquoted,
        skipGaps_folded]
      cases lexeme with
      | gap => exact ih _ log
      | stray fault =>
          dsimp only
          split
          · rfl
          · exact ih _ _
      | token kind fault =>
          cases fault with
          | none =>
              dsimp only
              rw [ih]
              rfl
          | some fault =>
              dsimp only
              split
              · rfl
              · rw [ih]
                rfl

/- Texts that differ in case only have the same tokens. -/
theorem ofSource_congr
    (file : String)
    {a b : String}
    (hLower : Text.lower a = Text.lower b)
    (hLiterals : Text.literals a = Text.literals b) :
    (ofSource ⟨file, a⟩).unquoted =
      (ofSource ⟨file, b⟩).unquoted := by
  have hChars :
      a.toList.map Char.toLower =
        b.toList.map Char.toLower := by
    simpa [Text.lower] using congrArg String.toList hLower
  have hCut := congrArg Piece.ofChars hChars
  rw [Piece.ofChars_toLower, Piece.ofChars_toLower] at hCut
  unfold Text.literals at hLiterals
  rw [← Piece.filterMap_literal?, ← Piece.filterMap_literal?]
    at hLiterals
  have hPieces := Piece.map_folded_eq hCut hLiterals
  rw [ofSource_eq_collect, ofSource_eq_collect,
    ← collect_folded, ← collect_folded, hPieces]
  rfl

end Token

------------------------------------------------------------
-- Compilations
------------------------------------------------------------

/- What was read of a script, from its tokens. -/
theorem Script.unquoted_ofSource
    (source : SourceText) :
    (ofSource source).unquoted =
      { ofTokens source.blank
          (Token.ofSource source).tokens with
        log := (Token.ofSource source).unquoted.log.extend
          (ofTokens source.blank
            (Token.ofSource source).tokens).log } := by
  simp only [ofTokens_blank, Draft.unquoted, ofSource,
    Log.unquoted_extend, Lexed.unquoted]

/- A compilation without the lines its diagnostics quote. -/
def Compilation.unquoted (out : Compilation) : Compilation :=
  { out with log := out.log.unquoted }

theorem unquoted_compilation
    (source : SourceText)
    (options : Options) :
    (compilation source options).unquoted =
      .ofResult ((Script.ofSource source).unquoted.compile
        source.blank options) := by
  rw [Draft.compile_blank, compilation, compile]
  cases (Script.ofSource source).compile source options with
  | error log => rfl
  | ok c => rfl

/-
  Scripts that are the same in small letters, with the same
  string literals, are compiled to the same in every respect
  but the lines that diagnostics quote.
-/
theorem compilation_ignores_case
    (file : String)
    (options : Options)
    {a b : String}
    (hLower : Text.lower a = Text.lower b)
    (hLiterals : Text.literals a = Text.literals b) :
    (compilation ⟨file, a⟩ options).unquoted =
      (compilation ⟨file, b⟩ options).unquoted := by
  have hLexed := Token.ofSource_congr file hLower hLiterals
  have hTokens := congrArg Lexed.tokens hLexed
  simp only [Lexed.unquoted] at hTokens
  rw [unquoted_compilation, unquoted_compilation,
    Script.unquoted_ofSource, Script.unquoted_ofSource, hLexed,
    hTokens]
  rfl

/- A script in small letters, and one that shouts. -/
def quietText : String :=
  "device: ledcount = \"2\"\n@start\npause: 5t // \"a\"\n"

def loudText : String :=
  "DEVICE: LEDCOUNT = \"2\"\n@START\nPAUSE: 5T // \"A\"\n"

theorem compilation_ignores_case_loud :
    Text.literals loudText = ["2"] ∧
      Text.lower loudText = Text.lower quietText ∧
      Text.literals loudText = Text.literals quietText ∧
      (compilation ⟨"show", loudText⟩ {}).unquoted =
        (compilation ⟨"show", quietText⟩ {}).unquoted := by
  have hLower :
      Text.lower loudText = Text.lower quietText := by
    decide
  have hLoud : Text.literals loudText = ["2"] := by
    decide +kernel
  have hQuiet : Text.literals quietText = ["2"] := by
    decide +kernel
  have hLiterals := hLoud.trans hQuiet.symm
  exact ⟨hLoud, hLower, hLiterals,
    compilation_ignores_case "show" {} hLower hLiterals⟩

end LightShow
