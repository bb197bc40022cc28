import LightShow.Command.Arguments

/-
  The program: the command on the real file system.
-/

open LightShow LightShow.Files

/- An error of the system, with its number and wording. -/
def systemError : IO.Error → AccessError
  | .alreadyExists _ code details
  | .interrupted _ code details
  | .noFileOrDirectory _ code details
  | .invalidArgument _ code details
  | .permissionDenied _ code details
  | .resourceExhausted _ code details
  | .inappropriateType _ code details
  | .noSuchThing _ code details
  | .otherError code details
  | .resourceBusy code details
  | .resourceVanished code details
  | .unsupportedOperation code details
  | .hardwareFault code details
  | .unsatisfiedConstraints code details
  | .illegalOperation code details
  | .protocolError code details
  | .timeExpired code details =>
      .other (numbered details code.toNat)
  | .unexpectedEof => .other "end of file"
  | .userError text => .other text

/- Carry out an operation of the system. -/
def perform (operation : IO α) : IO (Except AccessError α) := do
  match ← operation.toBaseIO with
  | .ok a => return .ok a
  | .error e => return .error (systemError e)

/- Read a real file as text. -/
def readText (path : String) : IO (Except AccessError String) := do
  match ← perform (IO.FS.readBinFile path) with
  | .error e => return .error e
  | .ok content =>
      match String.fromUTF8? content with
      | some text => return .ok text
      | none => return .error .notText

/- The operations on real files. -/
def systemAccess : Access IO where
  read := readText
  makeDirs path := perform (IO.FS.createDirAll path)
  write path content := perform (IO.FS.writeBinFile path content)

def main (arguments : List String) : IO UInt32 := do
  match Command.Request.ofArguments arguments with
  | .error e =>
      IO.eprintln s!"error: {e.message}"
      return 2
  | .ok request =>
      let outcome ← Command.run systemAccess request
      IO.eprint outcome.err
      IO.print outcome.out
      return if outcome.success then 0 else 1
