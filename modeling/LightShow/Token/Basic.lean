import LightShow.Source.Span
import LightShow.Text.Letters

/-
  Tokens of light-show scripts.

  Key definitions include:
    * `LightShow.Keyword`
    * `LightShow.Mark`
    * `LightShow.Token.Kind`
    * `LightShow.Token`
-/

namespace LightShow

------------------------------------------------------------
-- Keywords
------------------------------------------------------------

/- The reserved words. -/
inductive Keyword where
  | device
  | define
  | glowImmediate
  | glowRamp
  | pause
  | here
  | goto
  | call
  | callAsync
  | toward
  | within
  | repeats
  | zOrder
deriving DecidableEq, Repr

namespace Keyword

/- All reserved words. -/
def all : List Keyword :=
  [.device, .define, .glowImmediate, .glowRamp, .pause,
   .here, .goto, .call, .callAsync, .toward, .within,
   .repeats, .zOrder]

/- A reserved word as it is written, in small letters. -/
def text : Keyword → String
  | .device => "device"
  | .define => "define"
  | .glowImmediate => "glowimmediate"
  | .glowRamp => "glowramp"
  | .pause => "pause"
  | .here => "here"
  | .goto => "goto"
  | .call => "call"
  | .callAsync => "callasync"
  | .toward => "to"
  | .within => "in"
  | .repeats => "repeat"
  | .zOrder => "zorder"

/- The reserved word with a given text. -/
def ofText? (s : String) : Option Keyword :=
  all.find? fun k => k.text == s

/- Whether a line that starts with the word is a statement. -/
def isInstruction : Keyword → Bool
  | .glowImmediate => true
  | .glowRamp => true
  | .pause => true
  | .here => true
  | .goto => true
  | .call => true
  | .callAsync => true
  | _ => false

/- Whether aliases are replaced on lines of the word. -/
def takesAliases : Keyword → Bool
  | .glowImmediate => true
  | .glowRamp => true
  | .pause => true
  | _ => false

end Keyword

------------------------------------------------------------
-- Punctuation
------------------------------------------------------------

/- The punctuation marks. -/
inductive Mark where
  | colon
  | comma
  | minus
  | equals
  | leftParen
  | rightParen
  | leftBracket
  | rightBracket
deriving DecidableEq, Repr

namespace Mark

/- The character of a mark. -/
def char : Mark → Char
  | .colon => ':'
  | .comma => ','
  | .minus => '-'
  | .equals => '='
  | .leftParen => '('
  | .rightParen => ')'
  | .leftBracket => '['
  | .rightBracket => ']'

/- All marks. -/
def all : List Mark :=
  [.colon, .comma, .minus, .equals, .leftParen, .rightParen,
   .leftBracket, .rightBracket]

/- The mark written as a given character. -/
def ofChar? (c : Char) : Option Mark :=
  all.find? fun m => m.char == c

end Mark

------------------------------------------------------------
-- Tokens
------------------------------------------------------------

/-
  What a token is. Words and function names are in small
  letters, and a function name keeps its leading `@`.
-/
inductive Token.Kind where
  | number (value : Nat)
  | quoted (text : String)
  | word (name : String)
  | function (name : String)
  | keyword (word : Keyword)
  | mark (mark : Mark)
  | newline
  | endOfFile
deriving DecidableEq, Repr

namespace Token.Kind

/- The kind of a word: a keyword if it is reserved. -/
def ofWord (name : String) : Token.Kind :=
  match Keyword.ofText? name with
  | some k => .keyword k
  | none => .word name

/- A token as diagnostics quote it. -/
def text : Token.Kind → String
  | .number n => s!"{n}"
  | .quoted s => s!"\"{s}\""
  | .word name => name
  | .function name => name
  | .keyword k => k.text
  | .mark m => String.singleton m.char
  | .newline => "newline"
  | .endOfFile => "end of file"

end Token.Kind

/- A token and the place of its characters. -/
structure Token where
  kind : Token.Kind
  span : Span
deriving DecidableEq, Repr

namespace Token

/- The token that ends every token list. -/
def endAt (p : Position) : Token :=
  ⟨.endOfFile, Span.ofPosition p⟩

/- Whether the token ends a line. -/
def isNewline (t : Token) : Bool :=
  t.kind == .newline

/- Whether the token ends the text. -/
def isEnd (t : Token) : Bool :=
  t.kind == .endOfFile

/- A token that neither ends a line nor the text. -/
def Inline (t : Token) : Prop :=
  t.isNewline = false ∧ t.isEnd = false

instance decidableInline (t : Token) : Decidable t.Inline :=
  inferInstanceAs (Decidable (_ ∧ _))

/- A token that is not inside a line is one of two kinds. -/
theorem kind_of_not_inline
    {t : Token}
    (h : ¬t.Inline) :
    t.kind = .newline ∨ t.kind = .endOfFile := by
  by_cases hNewline : t.kind = .newline
  · exact .inl hNewline
  · simp only [Inline, isNewline, isEnd, not_and,
      beq_eq_false_iff_ne, Decidable.not_not] at h
    exact .inr (h hNewline)

end Token

end LightShow
