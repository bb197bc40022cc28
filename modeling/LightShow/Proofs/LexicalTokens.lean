import Mathlib
import LightShow.Proofs.Scanning
import LightShow.Script.WellFormed

/-
  What tokens can hold, whatever the source text.

  A number token is below the bound of numbers, a word is an
  identifier and a function name one that can be written.
  Replacing aliases puts out only kinds that lines or alias
  texts have, so it keeps every property of kinds that both
  have.

  Key definitions include:
    * `Token.Kind.Lexical`
    * `AliasTable.Holds`

  Main statements:
    * `Piece.lexical_ofChars`
    * `Token.lexical_ofSource`
    * `AliasTable.extends_expand`
    * `AliasTable.forall_splice`
-/

namespace LightShow

------------------------------------------------------------
-- Words In Small Letters
------------------------------------------------------------

namespace Text

theorem isSmall_toLower
    {c : Char}
    (h : isWordChar c = true) :
    isSmall c.toLower = true := by
  have hSmall := Char.isUpper_toLower_eq_false c
  have hWord : isWordChar c.toLower = true := by
    by_cases hAlpha : c.isAlpha
    · have hLower : c.toLower.isAlpha = true := by
        rw [Char.isAlpha_toLower_eq_isAlpha, hAlpha]
      simp [isWordChar, Char.isAlphanum, hLower]
    · have hUpper : ¬c.isUpper := by
        intro hUpper
        exact hAlpha (by simp [Char.isAlpha, hUpper])
      rwa [Char.toLower_eq_of_not_isUpper hUpper]
  simp [isSmall, hWord, hSmall]

theorem isWordStart_toLower
    {c : Char}
    (h : isWordStart c = true) :
    isWordStart c.toLower = true := by
  rcases Bool.or_eq_true _ _ ▸ h with hAlpha | hUnderscore
  · simp [isWordStart, Char.isAlpha_toLower_eq_isAlpha,
      hAlpha]
  · rw [beq_iff_eq.mp hUnderscore]
    decide

theorem isWordChar_of_isWordStart
    {c : Char}
    (h : isWordStart c = true) :
    isWordChar c = true := by
  rcases Bool.or_eq_true _ _ ▸ h with hAlpha | hUnderscore
  · simp [isWordChar, Char.isAlphanum, hAlpha]
  · simp [isWordChar, hUnderscore]

theorem all_isSmall_toLower
    {cs : List Char}
    (h : ∀ c ∈ cs, isWordChar c = true) :
    (cs.map Char.toLower).all isSmall = true := by
  rw [List.all_eq_true]
  intro c hc
  rcases List.mem_map.mp hc with ⟨d, hd, rfl⟩
  exact isSmall_toLower (h d hd)

end Text

------------------------------------------------------------
-- Pieces
------------------------------------------------------------

/- What a token may hold. -/
def Token.Kind.Lexical : Token.Kind → Prop
  | .number n => n < Piece.numberBound
  | .word name => Text.isIdentifier name = true
  | .function name => Text.isFunctionName name = true
  | _ => True

namespace Piece

theorem toList_wordText
    (cs : List Char) :
    (wordText cs).toList = cs.map Char.toLower := by
  simp [wordText, Text.lower]

theorem lexical_ofWord
    {c : Char}
    {cs : List Char}
    (hFirst : Text.isWordStart c = true)
    (hRest : ∀ d ∈ cs, Text.isWordChar d = true) :
    (Token.Kind.ofWord (wordText (c :: cs))).Lexical ∧
      Token.Kind.ofWord (wordText (c :: cs)) ≠
        .endOfFile := by
  unfold Token.Kind.ofWord
  cases hKeyword : Keyword.ofText? (wordText (c :: cs)) with
  | some k => exact ⟨trivial, Token.Kind.noConfusion⟩
  | none =>
      refine ⟨?_, Token.Kind.noConfusion⟩
      have hWord : ∀ d ∈ c :: cs, Text.isWordChar d = true :=
        List.forall_mem_cons.mpr
          ⟨Text.isWordChar_of_isWordStart hFirst, hRest⟩
      have hAll := Text.all_isSmall_toLower hWord
      have hHead := Text.isWordStart_toLower hFirst
      show Text.isIdentifier (wordText (c :: cs)) = true
      simp only [Text.isIdentifier, toList_wordText, hAll,
        hKeyword]
      simp [hHead]

theorem lexical_function
    {cs : List Char}
    (hSome : cs.head?.any Text.isWordChar = true) :
    (Token.Kind.function
      (wordText ('@' :: cs.takeWhile Text.isWordChar))).Lexical
    := by
  cases cs with
  | nil => cases hSome
  | cons c cs =>
      have hFirst : Text.isWordChar c = true := by
        simpa using hSome
      have hWord :
          ∀ d ∈ c :: cs.takeWhile Text.isWordChar,
            Text.isWordChar d = true :=
        List.forall_mem_cons.mpr
          ⟨hFirst, fun d hd => List.mem_takeWhile_imp hd⟩
      have hAll := Text.all_isSmall_toLower hWord
      have hAt : '@'.toLower = '@' := by decide
      show Text.isFunctionName _ = true
      rw [Text.isFunctionName, toList_wordText,
        List.takeWhile_cons_of_pos hFirst, List.map_cons, hAt]
      exact hAll

/-
  If a piece is a token, it is one that can be, and not the
  one that ends the text.
-/
def Lexical (q : Piece) : Prop :=
  ∀ kind fault, q.lexeme = .token kind fault →
    kind.Lexical ∧ kind ≠ .endOfFile

theorem lexical_run_number
    (c : Char)
    (cs : List Char) :
    (run Char.isDigit number c cs).1.Lexical := by
  intro kind fault h
  simp only [run, number] at h
  split at h
  · rename_i hSmall
    cases h
    exact ⟨hSmall, Token.Kind.noConfusion⟩
  · cases h
    exact ⟨show 0 < numberBound by decide,
      Token.Kind.noConfusion⟩

theorem lexical_string
    (quote : Char)
    (cs : List Char) :
    (string quote cs).1.Lexical := by
  unfold string
  repeat' split
  all_goals
    rintro _ _ ⟨⟩
    exact ⟨trivial, Token.Kind.noConfusion⟩

/- Whatever is cut off a text can be a token. -/
theorem lexical_next
    (c : Char)
    (cs : List Char) :
    (next c cs).1.Lexical := by
  unfold next
  split
  · rintro _ _ ⟨⟩
  split
  · rintro _ _ ⟨⟩
  split
  · rintro _ _ ⟨⟩
    exact ⟨trivial, Token.Kind.noConfusion⟩
  split
  · exact lexical_string c cs
  split
  · exact lexical_run_number c cs
  split
  · rename_i hStart
    rintro _ _ ⟨⟩
    exact lexical_ofWord hStart fun d hd =>
      List.mem_takeWhile_imp hd
  split
  · rename_i hAt
    subst hAt
    split
    · rename_i hSome
      rintro _ _ ⟨⟩
      exact ⟨lexical_function hSome,
        Token.Kind.noConfusion⟩
    · rintro _ _ ⟨⟩
  split
  · rintro _ _ ⟨⟩
    exact ⟨trivial, Token.Kind.noConfusion⟩
  · rintro _ _ ⟨⟩

theorem lexical_ofChars
    (cs : List Char) :
    ∀ q ∈ ofChars cs, q.Lexical := by
  fun_induction ofChars cs with
  | case1 => exact List.forall_mem_nil _
  | case2 c cs ih =>
      exact List.forall_mem_cons.mpr ⟨lexical_next c cs, ih⟩

end Piece

------------------------------------------------------------
-- Tokens
------------------------------------------------------------

namespace Token

/- Tokens are what their pieces are, up to the last one. -/
theorem exists_collect
    {pieces : List Piece}
    (h : ∀ q ∈ pieces, q.Lexical)
    (source : SourceText)
    (p : Position)
    (log : Log) :
    ∃ front stop,
      (collect source pieces p log).tokens =
          front ++ [.endAt stop] ∧
        ∀ t ∈ front,
          t.kind.Lexical ∧ t.kind ≠ .endOfFile := by
  induction pieces generalizing p log with
  | nil => exact ⟨[], p, rfl, List.forall_mem_nil _⟩
  | cons q pieces ih =>
      rcases List.forall_mem_cons.mp h with ⟨hFirst, hRest⟩
      simp only [collect]
      split
      · exact ih hRest _ _
      · split
        · exact ⟨[], _, rfl, List.forall_mem_nil _⟩
        · exact ih hRest _ _
      · rename_i kind hToken
        rcases ih hRest _ _ with ⟨front, stop, hAll, hFront⟩
        exact ⟨_ :: front, stop, congrArg (_ :: ·) hAll,
          List.forall_mem_cons.mpr
            ⟨hFirst kind _ hToken, hFront⟩⟩
      · rename_i kind fault hToken
        split
        · exact ⟨[_], _, rfl, List.forall_mem_singleton.mpr
            (hFirst kind _ hToken)⟩
        · rcases ih hRest _ _ with ⟨front, stop, hAll, hFront⟩
          exact ⟨_ :: front, stop, congrArg (_ :: ·) hAll,
            List.forall_mem_cons.mpr
              ⟨hFirst kind _ hToken, hFront⟩⟩

/- A source text has one token that ends it, the last one. -/
theorem exists_ofSource
    (source : SourceText) :
    ∃ front stop,
      (ofSource source).tokens = front ++ [.endAt stop] ∧
        ∀ t ∈ front,
          t.kind.Lexical ∧ t.kind ≠ .endOfFile := by
  rw [ofSource_eq_collect]
  exact exists_collect (Piece.lexical_ofChars _) source _ _

/- All tokens of a source text are ones that can be. -/
theorem lexical_ofSource
    (source : SourceText) :
    ∀ t ∈ (ofSource source).tokens, t.kind.Lexical := by
  rcases exists_ofSource source with ⟨front, stop, hAll, hFront⟩
  rw [hAll]
  exact List.forall_mem_append.mpr
    ⟨fun t ht => (hFront t ht).1,
     List.forall_mem_singleton.mpr trivial⟩

end Token

------------------------------------------------------------
-- Aliases
------------------------------------------------------------

namespace AliasTable

variable {P : Token.Kind → Prop}

/- All tokens of all alias texts have a property. -/
def Holds
    (P : Token.Kind → Prop)
    (table : AliasTable) : Prop :=
  ∀ e ∈ table.entries, ∀ kind ∈ e.body, P kind

/- A table holds whatever all kinds of tokens have. -/
theorem holds_true
    (table : AliasTable) :
    table.Holds fun _ => True :=
  fun _ _ _ _ => trivial

theorem Holds.body?
    {table : AliasTable}
    (h : table.Holds P)
    {name : String}
    {body : List Token.Kind}
    (hBody : table.body? name = some body) :
    ∀ kind ∈ body, P kind := by
  rcases Option.map_eq_some_iff.mp hBody
    with ⟨e, hEntry, rfl⟩
  exact h e (List.mem_of_find?_eq_some hEntry)

/- A table holds what the texts of its lines hold. -/
theorem holds_foldl_add
    (source : SourceText)
    (h : ∀ text, ∀ kind ∈
      bodyKinds (lexBody source text).tokens, P kind)
    {lines : List AliasLine}
    {acc : AliasTable × Log}
    (hTable : acc.1.Holds P) :
    (lines.foldl (add source) acc).1.Holds P := by
  induction lines generalizing acc with
  | nil => exact hTable
  | cons x lines ih =>
      rw [List.foldl_cons]
      refine ih ?_
      unfold add
      simp only
      split
      · exact hTable
      · intro e he
        rcases List.mem_append.mp he with hOld | hNew
        · exact hTable e hOld
        · rw [List.mem_singleton.mp hNew]
          exact h x.text

theorem holds_ofTokens
    (source : SourceText)
    (h : ∀ text, ∀ kind ∈
      bodyKinds (lexBody source text).tokens, P kind)
    (ts : List Token) :
    (ofTokens source ts).1.Holds P :=
  holds_foldl_add source h (List.forall_mem_nil _)

/- The tokens of alias texts are ones that can be. -/
theorem lexical_ofTokens
    (source : SourceText)
    (ts : List Token) :
    (ofTokens source ts).1.Holds Token.Kind.Lexical := by
  refine holds_ofTokens source ?_ ts
  intro text kind hKind
  rcases List.mem_map.mp hKind with ⟨t, ht, rfl⟩
  exact Token.lexical_ofSource _ t (List.mem_of_mem_filter ht)

/- Alias texts neither end a line nor the text. -/
theorem inline_ofTokens
    (source : SourceText)
    (ts : List Token) :
    (ofTokens source ts).1.Holds fun kind =>
      kind ≠ .newline ∧ kind ≠ .endOfFile := by
  refine holds_ofTokens source ?_ ts
  intro text kind hKind
  rcases List.mem_map.mp hKind with ⟨t, ht, rfl⟩
  simpa [Token.isNewline, Token.isEnd]
    using List.of_mem_filter ht

/-
  Tokens put out one by one on top of those before, words
  only right behind numbers.
-/
inductive Extends
    (P : Token → Prop)
    (out : List Token) : List Token → Prop
  | refl : Extends P out out
  | push {new : List Token} {t : Token}
      (h : Extends P out new)
      (ht : P t)
      (hWord : ∀ name, t.kind = .word name →
        endsInNumber new = true) :
      Extends P out (t :: new)

namespace Extends

variable {Q : Token → Prop}
variable {out new : List Token}

theorem trans
    {last : List Token}
    (h : Extends Q out new)
    (hLast : Extends Q new last) :
    Extends Q out last := by
  induction hLast with
  | refl => exact h
  | push _ ht hWord ih => exact ih.push ht hWord

theorem mono
    {R : Token → Prop}
    (h : Extends Q out new)
    (hImp : ∀ t, Q t → R t) :
    Extends R out new := by
  induction h with
  | refl => exact .refl
  | push _ ht hWord ih => exact ih.push (hImp _ ht) hWord

/- What each step extends, all of them extend. -/
theorem foldlM
    {α ε : Type}
    {f : List Token → α → Except ε (List Token)}
    {as : List α}
    (hStep : ∀ a ∈ as, ∀ out new,
      f out a = .ok new → Extends Q out new)
    (h : as.foldlM f out = .ok new) :
    Extends Q out new := by
  induction as generalizing out with
  | nil =>
      cases h
      exact .refl
  | cons a as ih =>
      rcases List.forall_mem_cons.mp hStep
        with ⟨hFirst, hRest⟩
      rw [List.foldlM_cons] at h
      cases hOut : f out a with
      | error e =>
          rw [hOut] at h
          cases h
      | ok middle =>
          rw [hOut] at h
          exact (hFirst out middle hOut).trans (ih hRest h)

theorem exists_append
    (h : Extends Q out new) :
    ∃ more, new = more ++ out ∧ ∀ t ∈ more, Q t := by
  induction h with
  | refl => exact ⟨[], rfl, List.forall_mem_nil _⟩
  | @push new t _ ht _ ih =>
      rcases ih with ⟨more, rfl, hMore⟩
      exact ⟨t :: more, rfl,
        List.forall_mem_cons.mpr ⟨ht, hMore⟩⟩

/- All tokens have a property if those before have it. -/
theorem forall_mem
    (h : Extends Q out new)
    (hOut : ∀ t ∈ out, Q t) :
    ∀ t ∈ new, Q t := by
  rcases h.exists_append with ⟨more, rfl, hMore⟩
  exact List.forall_mem_append.mpr ⟨hMore, hOut⟩

end Extends

/-
  Expanding puts out what was asked for or the table has, all
  of it at the place of the use.
-/
theorem extends_expand
    {table : AliasTable}
    (hTable : table.Holds P)
    {span : Span}
    {levels : Nat}
    {out new : List Token}
    {kind : Token.Kind}
    (hKind : P kind)
    (h : expand table span levels out kind = .ok new) :
    Extends (fun t => P t.kind ∧ t.span = span) out new := by
  induction levels generalizing out new kind with
  | zero =>
      unfold expand at h
      split at h
      · split at h
        · rename_i hNumber
          cases h
          exact .push .refl ⟨hKind, rfl⟩ fun _ _ => hNumber
        · split at h <;> cases h
      · rename_i hOther
        cases h
        exact .push .refl ⟨hKind, rfl⟩ fun name hWord =>
          absurd hWord (hOther name)
  | succ levels ih =>
      unfold expand at h
      split at h
      · split at h
        · rename_i hNumber
          cases h
          exact .push .refl ⟨hKind, rfl⟩ fun _ _ => hNumber
        · split at h
          · cases h
          · rename_i hBody
            refine Extends.foldlM ?_ h
            intro kind hMem out new hNext
            exact ih (hTable.body? hBody kind hMem) hNext
      · rename_i hOther
        cases h
        exact .push .refl ⟨hKind, rfl⟩ fun name hWord =>
          absurd hWord (hOther name)

section Splicing

variable {table : AliasTable} (hTable : table.Holds P)
include hTable

theorem extends_put
    {out new : List Token}
    {t : Token}
    (ht : P t.kind)
    (h : table.put out t = .ok new) :
    Extends (fun u => P u.kind ∧ u.span = t.span) out
      new := by
  unfold put at h
  split at h
  · rename_i hExpand
    cases h
    exact extends_expand hTable ht hExpand
  · cases h

theorem forall_put
    {out new : List Token}
    {t : Token}
    (ht : P t.kind)
    (h : table.put out t = .ok new)
    (hOut : ∀ u ∈ out, P u.kind) :
    ∀ u ∈ new, P u.kind :=
  ((extends_put hTable ht h).mono fun _ hu => hu.1).forall_mem
    hOut

/- What is put out for a line, on top of what was before. -/
theorem extends_foldlM
    {line out new : List Token}
    (hLine : ∀ t ∈ line, P t.kind)
    (h : line.foldlM (put table) out = .ok new) :
    Extends (fun t => P t.kind) out new := by
  refine Extends.foldlM (fun t ht _ _ hPut => ?_) h
  exact (extends_put hTable (hLine t ht) hPut).mono
    fun _ hu => hu.1

theorem forall_spliceLine
    {line : List Token}
    (hLine : ∀ t ∈ line, P t.kind) :
    ∀ t ∈ (table.spliceLine line).1, P t.kind := by
  unfold spliceLine
  split
  · split
    · rename_i out hOut
      intro t ht
      exact (extends_foldlM hTable hLine hOut).forall_mem
        (List.forall_mem_nil _) t (List.mem_reverse.mp ht)
    · exact List.forall_mem_nil _
  · exact hLine

/- All that a pass has put out is of such kinds. -/
theorem Pass.forall_foldl
    {ts : List Token}
    (h : ∀ t ∈ ts, P t.kind)
    {p : Pass}
    (hOut : ∀ t ∈ p.out, P t.kind)
    (hBefore : ∀ t ∈ p.before, P t.kind) :
    ∀ t ∈ (ts.foldl (Pass.step table) p).out, P t.kind := by
  induction ts generalizing p with
  | nil => exact hOut
  | cons t ts ih =>
      rcases List.forall_mem_cons.mp h with ⟨hFirst, hRest⟩
      have hEnter :
          (p.enter t).out = p.out ∧
            ∀ u ∈ (p.enter t).before, P u.kind := by
        unfold enter
        split
        · exact ⟨rfl, hOut⟩
        · exact ⟨rfl, hBefore⟩
      rcases hEnter with ⟨hSame, hLine⟩
      have hMore :
          ∀ u ∈ t :: (p.enter t).out, P u.kind := by
        rw [hSame]
        exact List.forall_mem_cons.mpr ⟨hFirst, hOut⟩
      rw [List.foldl_cons]
      unfold step
      dsimp only
      split
      · exact ih hRest hMore hLine
      split
      · exact ih hRest (hSame ▸ hOut) hLine
      split
      · split
        · rename_i hPut
          rw [hSame] at hPut
          exact ih hRest (forall_put hTable hFirst hPut hOut)
            hLine
        · exact ih hRest hLine hLine
      · exact ih hRest hMore hLine

/- Replacing aliases keeps what tokens and aliases share. -/
theorem forall_splice
    {ts : List Token}
    (h : ∀ t ∈ ts, P t.kind) :
    ∀ t ∈ (table.splice ts).1, P t.kind := by
  intro t ht
  exact Pass.forall_foldl hTable h (p := {})
    (List.forall_mem_nil _) (List.forall_mem_nil _) t
    (List.mem_reverse.mp ht)

end Splicing

end AliasTable

end LightShow
