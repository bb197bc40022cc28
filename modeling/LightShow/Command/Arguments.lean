import LightShow.Command.Basic

/-
  The arguments of the command.

  Key definitions include:
    * `LightShow.Command.ArgumentError`
    * `LightShow.Command.Request.ofArguments`
-/

namespace LightShow

namespace Command

/- Why arguments are refused. -/
inductive ArgumentError where
  | noScript
  | missingValue (option : String)
  | unexpected (argument : String)
deriving DecidableEq, Repr

/- The wording of each refusal. -/
def ArgumentError.message : ArgumentError → String
  | .noScript => "no script given"
  | .missingValue option => s!"'{option}' needs a value"
  | .unexpected argument => s!"unexpected argument '{argument}'"

/- A request whose script may still be missing. -/
structure Draft where
  script : Option String := none
  device : Option String := none
  listing : Bool := false
  outDir : Option String := none

/- The request of a draft. -/
def Draft.finish (d : Draft) : Except ArgumentError Request :=
  match d.script with
  | none => .error .noScript
  | some script =>
      .ok {
        script := script
        device := d.device
        listing := d.listing
        outDir := d.outDir }

/- An argument that is no option is the script. -/
def Draft.word
    (d : Draft)
    (a : String) : Except ArgumentError Draft :=
  if d.script.isSome || a.toList.head? == some '-' then
    .error (.unexpected a)
  else .ok { d with script := some a }

/- Read the arguments into a draft, from left to right. -/
def Draft.read
    (d : Draft) : List String → Except ArgumentError Draft
  | [] => .ok d
  | "-l" :: rest => read { d with listing := true } rest
  | "--listing" :: rest => read { d with listing := true } rest
  | "-v" :: rest => read d rest
  | "--verbose" :: rest => read d rest
  | "-d" :: path :: rest =>
      read { d with device := some path } rest
  | "--device" :: path :: rest =>
      read { d with device := some path } rest
  | "-o" :: path :: rest =>
      read { d with outDir := some path } rest
  | "--out-dir" :: path :: rest =>
      read { d with outDir := some path } rest
  | [a] =>
      if a ∈ ["-d", "--device", "-o", "--out-dir"] then
        .error (.missingValue a)
      else d.word a
  | a :: rest => do read (← d.word a) rest

/- The request that arguments spell. -/
def Request.ofArguments
    (arguments : List String) :
    Except ArgumentError Request := do
  (← Draft.read {} arguments).finish

end Command

end LightShow
