import LightShow.Diagnostic.Code
import LightShow.Source.Span
import LightShow.Source.Text

/-
  Diagnostics: what is wrong, where, and how it is written.

  Key definitions include:
    * `LightShow.Severity`
    * `LightShow.Diagnostic`
    * `LightShow.Diagnostic.error`
    * `LightShow.Diagnostic.warning`
    * `LightShow.Diagnostic.text`
-/

namespace LightShow

/- Whether a diagnostic stops compilation. -/
inductive Severity where
  | error
  | warning
deriving DecidableEq, Repr

/- The name of a severity. -/
def Severity.text : Severity → String
  | .error => "error"
  | .warning => "warning"

/-
  One finding about a source text. The category is that of
  the code, and the quoted line may be empty.
-/
structure Diagnostic where
  file : String
  code : Code
  severity : Severity
  message : String
  span : Span
  sourceLine : String
  suggestion : Option String
deriving DecidableEq, Repr

namespace Diagnostic

/- An error that quotes the line on which its span starts. -/
def error
    (source : SourceText)
    (code : Code)
    (message : String)
    (span : Span)
    (suggestion : Option String) : Diagnostic where
  file := source.name
  code := code
  severity := .error
  message := message
  span := span
  sourceLine := (source.line? span.startLine).getD ""
  suggestion := suggestion

/- A warning, which quotes no line. -/
def warning
    (file : String)
    (code : Code)
    (message : String)
    (span : Span) : Diagnostic where
  file := file
  code := code
  severity := .warning
  message := message
  span := span
  sourceLine := ""
  suggestion := none

/- The one-line form: file, place, code, category, message. -/
def text (d : Diagnostic) : String :=
  s!"{d.file}:{d.span.text}: {d.code.text} " ++
    s!"[{d.code.category.text}] {d.message}"

end Diagnostic

end LightShow
