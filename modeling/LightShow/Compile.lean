import LightShow.Device.Resolve
import LightShow.Digest.Sha256
import LightShow.Expansion.Basic
import LightShow.Image.Show
import LightShow.Script.Parser
import LightShow.Text.Hex

/-
  Compiling a source text into a show.

  The text is read, its device worked out, the script
  expanded and the image made. The first of these that has
  errors ends compilation with its log; otherwise there are
  only warnings. What is handed on is either a show with all
  that belongs to it or a log of errors.

  Key definitions include:
    * `LightShow.Options`
    * `LightShow.Compiled`
    * `LightShow.compile`
    * `LightShow.Compilation`
    * `LightShow.compilation`
-/

namespace LightShow

/- What a compilation may be told from outside. -/
structure Options where
  /- Device settings that win over those of the script. -/
  overrides : List (String × String) := []
  limits : Limits := {}

/- What a compilation yields. -/
structure Compiled where
  finished : Show
  placed : Placed
  device : Device
  warnings : Log

/- The diagnostic of a fault of image making. -/
def Located.diagnostic
    (source : SourceText)
    (e : Located) : Diagnostic :=
  .error source e.fault.code e.fault.message
    (e.span.getD .origin) none

/- The warning that a show stays dark. -/
def darkWarning
    (source : SourceText)
    (script : Script) : Diagnostic :=
  .warning source.name .showNeverLights
    "show never lights any LED"
    ((script.find? Script.entryName).elim .origin
      Function.span)

/- Warn of a show that stays dark. -/
def warnDark
    (source : SourceText)
    (script : Script)
    (brightness : Nat)
    (log : Log) : Log :=
  if brightness = 0 then
    log.pushWarning (darkWarning source script)
  else log

/- Compile a script that was read from a source text. -/
def Draft.compile
    (source : SourceText)
    (options : Options)
    (draft : Draft) : Except Log Compiled := do
  if draft.log.hasErrors then throw draft.log
  let device ←
    Device.resolve source draft.script options.overrides
  let expanded ← draft.script.expand source device
  let target : Target := ⟨device, options.limits⟩
  match Show.buildWith target expanded.instructions with
  | .error e => throw (.single (e.diagnostic source))
  | .ok (finished, placed) =>
      return {
        finished := finished
        placed := placed
        device := device
        warnings :=
          warnDark source draft.script finished.brightness
            (draft.log.extend expanded.warnings) }

/- Compile a source text. -/
def compile
    (source : SourceText)
    (options : Options) : Except Log Compiled :=
  (Script.ofSource source).compile source options

/- The outcome of a compilation as it is handed on. -/
structure Compilation where
  success : Bool
  image : Option (List UInt8)
  packets : Option Packets
  usage : Option Usage
  /- The SHA-256 digest of the image, in hexadecimals. -/
  digest : Option String
  device : Option Device
  /- Errors and warnings. -/
  log : Log
deriving DecidableEq, Repr

namespace Compilation

/- Hand on a show, or the log alone. -/
def ofResult : Except Log Compiled → Compilation
  | .ok c =>
      { success := true
        image := some c.finished.image
        packets := some c.finished.packets
        usage := some c.finished.usage
        digest :=
          some (Text.hex (Sha256.digest c.finished.image))
        device := some c.device
        log := c.warnings }
  | .error log =>
      { success := false
        image := none
        packets := none
        usage := none
        digest := none
        device := none
        log := log }

end Compilation

/- Compile a source text and hand on the outcome. -/
def compilation
    (source : SourceText)
    (options : Options) : Compilation :=
  .ofResult (compile source options)

end LightShow
