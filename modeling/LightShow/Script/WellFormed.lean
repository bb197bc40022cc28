import LightShow.Script.Parser

/-
  Scripts that can be written down.

  A script is well formed if its names are names of the
  language, its texts can be put in quotes, and its numbers
  are in the ranges that lines may give. Places are not
  looked at.

  Key definitions include:
    * `LightShow.Text.isIdentifier`
    * `LightShow.Text.isFunctionName`
    * `LightShow.Text.isQuotable`
    * `LightShow.Action.WellFormed`
    * `LightShow.Script.WellFormed`
-/

namespace LightShow

namespace Text

/- A word character that is no capital. -/
def isSmall (c : Char) : Bool :=
  isWordChar c && !c.isUpper

/- Whether a text is a word in small letters, not reserved. -/
def isIdentifier (s : String) : Bool :=
  s.toList.head?.any isWordStart && s.toList.all isSmall &&
    (Keyword.ofText? s).isNone

/- Whether a text is `@` and a word in small letters. -/
def isFunctionName (s : String) : Bool :=
  match s.toList with
  | '@' :: c :: cs => (c :: cs).all isSmall
  | _ => false

/- Whether a text fits on a line between quotes. -/
def isQuotable (s : String) : Bool :=
  !s.toList.contains '\n' &&
    !(s.toList.contains '"' && s.toList.contains '\'')

end Text

/- LED numbers that a line may list, each once. -/
structure LedList.WellFormed (l : LedList) : Prop where
  nonempty : l.numbers ≠ []
  nodup : l.numbers.Nodup
  range : ∀ n ∈ l.numbers, 1 ≤ n ∧ n ≤ LineFault.maxLed

instance LedList.decidableWellFormed
    (l : LedList) :
    Decidable l.WellFormed :=
  decidable_of_iff
    (l.numbers ≠ [] ∧ l.numbers.Nodup ∧
      ∀ n ∈ l.numbers, 1 ≤ n ∧ n ≤ LineFault.maxLed)
    ⟨fun ⟨hSome, hOnce, hRange⟩ => ⟨hSome, hOnce, hRange⟩,
     fun h => ⟨h.nonempty, h.nodup, h.range⟩⟩

/- An amount that a number token can hold. -/
def Duration.WellFormed (d : Duration) : Prop :=
  d.amount < Piece.numberBound

instance Duration.decidableWellFormed
    (d : Duration) :
    Decidable d.WellFormed :=
  inferInstanceAs (Decidable (_ < _))

/- An action that a line can state. -/
def Action.WellFormed : Action → Prop
  | .glow leds color =>
      leds.WellFormed ∧ color.outOfRange? = none
  | .ramp leds start stop duration =>
      leds.WellFormed ∧ start.outOfRange? = none ∧
        stop.outOfRange? = none ∧ duration.WellFormed
  | .pause duration => duration.WellFormed
  | .here label => Text.isIdentifier label.text
  | .goto label => Text.isIdentifier label.text
  | .call function count =>
      Text.isFunctionName function.text ∧
        1 ≤ count ∧ count ≤ LineFault.maxRepeat
  | .callAsync function zOrder =>
      Text.isFunctionName function.text ∧
        ∀ z ∈ zOrder, z ≤ LineFault.maxZOrder

instance Action.decidableWellFormed :
    (a : Action) → Decidable a.WellFormed
  | .glow _ _ => inferInstanceAs (Decidable (_ ∧ _))
  | .ramp _ _ _ _ => inferInstanceAs (Decidable (_ ∧ _))
  | .pause duration => duration.decidableWellFormed
  | .here _ => inferInstanceAs (Decidable (_ = true))
  | .goto _ => inferInstanceAs (Decidable (_ = true))
  | .call _ _ => inferInstanceAs (Decidable (_ ∧ _))
  | .callAsync _ _ => inferInstanceAs (Decidable (_ ∧ _))

/- A script that can be written line by line. -/
structure Script.WellFormed (s : Script) : Prop where
  settings : ∀ d ∈ s.settings,
    Text.isIdentifier d.key.text ∧ Text.isQuotable d.value
  aliases : ∀ a ∈ s.aliases,
    Text.isIdentifier a.name.text ∧ Text.isQuotable a.value
  /- The text of an alias has tokens of its own. -/
  bodies : ∀ a ∈ s.aliases,
    (Token.ofSource ⟨"", a.value⟩).log.hasErrors = false
  aliasNames : (s.aliases.map fun a => a.name.text).Nodup
  functions : ∀ f ∈ s.functions,
    Text.isFunctionName f.name.text
  functionNames : (s.functions.map fun f => f.name.text).Nodup
  statements : ∀ f ∈ s.functions, ∀ st ∈ f.body,
    st.action.WellFormed

end LightShow
