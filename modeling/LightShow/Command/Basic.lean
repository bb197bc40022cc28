import LightShow.Command.PacketFile
import LightShow.Compile
import LightShow.Device.File
import LightShow.Files.Access
import LightShow.Files.Output
import LightShow.Text.Blank

/-
  The command: a script file, and perhaps a device file, in;
  the files of the show out.

  A script with errors writes nothing. What goes wrong with a
  file ends the command at once, after the warnings.

  Key definitions include:
    * `LightShow.Command.Request`
    * `LightShow.Command.Failure`
    * `LightShow.Command.Outcome`
    * `LightShow.Command.run`
-/

namespace LightShow

namespace Command

open Files (Access AccessError Output)

/- What is asked for. -/
structure Request where
  script : String
  device : Option String := none
  listing : Bool := false
  outDir : Option String := none
deriving DecidableEq, Repr

/- What the command leaves on its two streams. -/
structure Outcome where
  success : Bool
  out : String
  err : String
deriving DecidableEq, Repr

------------------------------------------------------------
-- Failures
------------------------------------------------------------

/- What can go wrong apart from the script. -/
inductive Failure where
  | readScript (path : String) (cause : AccessError)
  | readDevice (path : String) (cause : AccessError)
  | deviceFile (path : String) (cause : Device.FileError)
  | makeDirs (path : String) (cause : AccessError)
  | write (path : String) (cause : AccessError)
deriving DecidableEq, Repr

/- The wording of each failure. -/
def Failure.message : Failure → String
  | .readScript path cause =>
      s!"Failed to read script: {path}: " ++ cause.message
  | .readDevice path cause =>
      s!"Failed to read device file: {path}: " ++ cause.message
  | .deviceFile path cause =>
      s!"Invalid device file: {path}: " ++ cause.message
  | .makeDirs path cause =>
      s!"Failed to create {path}: " ++ cause.message
  | .write path cause =>
      s!"Failed to write {path}: " ++ cause.message

/- The outcome of a failure after some warnings. -/
def Outcome.failed (warnings : String) (f : Failure) : Outcome where
  success := false
  out := ""
  err := warnings ++ s!"error: {f.message}\n"

------------------------------------------------------------
-- Diagnostics
------------------------------------------------------------

/- A diagnostic, the line it quotes, and its suggestion. -/
def diagnosticLines (d : Diagnostic) : List String :=
  [d.text] ++
    (if d.sourceLine.isEmpty then []
      else ["    " ++ Text.trimEnd d.sourceLine]) ++
    d.suggestion.toList.map ("    help: " ++ ·)

/- All stored diagnostics, and how many errors there are
   beyond them. -/
def logLines (log : Log) : List String :=
  (log.errors ++ log.warnings).flatMap diagnosticLines ++
    (if log.errors.length < log.totalErrors then
      let beyond := log.totalErrors - log.errors.length
      [s!"... and {beyond} more error(s)"]
    else [])

/- Lines with their line ends. -/
def unlines (lines : List String) : String :=
  String.join (lines.map (· ++ "\n"))

/- The outcome of a script with errors. -/
def Outcome.rejected (log : Log) : Outcome where
  success := false
  out := ""
  err := unlines (logLines log ++
    [s!"Compilation failed: {log.totalErrors} error(s), " ++
      s!"{log.totalWarnings} warning(s)"])

/- The outcome of a script that was compiled. -/
def Outcome.compiled (name : String) (c : Compiled) : Outcome where
  success := true
  out := unlines
    [s!"Compiled {name} for {c.device.name}",
     c.finished.usage.text]
  err := unlines (logLines c.warnings)

------------------------------------------------------------
-- The Command
------------------------------------------------------------

section

variable {m : Type → Type} [Monad m]

/- Carry out a file operation; its error is a failure. -/
def attempt
    {α : Type}
    (failure : AccessError → Failure)
    (operation : m (Except AccessError α)) :
    ExceptT Failure m α :=
  ExceptT.mk do
    return (← operation).mapError failure

/- The settings of the device file, if there is one. -/
def overrides
    (files : Access m)
    (device : Option String) :
    ExceptT Failure m (List (String × String)) :=
  match device with
  | none => return []
  | some path => do
      let text ← attempt (.readDevice path) (files.read path)
      ExceptT.mk <| pure <|
        (Device.settingsOfFile text).mapError
          (.deviceFile path)

/- The script and how it is compiled. -/
def load
    (files : Access m)
    (request : Request) :
    ExceptT Failure m (SourceText × Options) := do
  let text ← attempt (.readScript request.script)
    (files.read request.script)
  let settings ← overrides files request.device
  return (⟨request.script, text⟩, { overrides := settings })

/- Write one file. -/
def writeFile
    (files : Access m)
    (path : String)
    (content : ByteArray) : ExceptT Failure m Unit :=
  attempt (.write path) (files.write path content)

/- Write the image, the packet file and perhaps the listing. -/
def store
    (files : Access m)
    (request : Request)
    (c : Compiled) : ExceptT Failure m Unit := do
  let output := Output.forScript request.script request.outDir
  let dir := Files.directoryOf output.image
  if dir ≠ "" then
    attempt (.makeDirs dir) (files.makeDirs dir)
  let image := c.finished.image
  writeFile files output.image ⟨image.toArray⟩
  writeFile files output.packets
    (PacketFile.text c.device image c.finished.packets).toUTF8
  if request.listing then
    writeFile files output.listing c.placed.listing.toUTF8

/- Run the command. -/
def run
    (files : Access m)
    (request : Request) : m Outcome := do
  match ← (load files request).run with
  | .error failure => return .failed "" failure
  | .ok (source, options) =>
      match compile source options with
      | .error log => return .rejected log
      | .ok c =>
          let outcome := Outcome.compiled request.script c
          match ← (store files request c).run with
          | .ok () => return outcome
          | .error failure =>
              return .failed outcome.err failure

end

end Command

end LightShow
