import LightShow.Files.PathText

/-
  Where the files of a compilation go.

  They are named after the script, with extensions of their
  own, and stand beside it unless a directory is given.

  Key definitions include:
    * `LightShow.Files.Output`
    * `LightShow.Files.Output.forScript`
-/

namespace LightShow

namespace Files

/- The paths of the files that a compilation writes. -/
structure Output where
  image : String
  packets : String
  listing : String
deriving DecidableEq, Repr

namespace Output

/- The name for a script whose path ends with no name. -/
def defaultStem : String := "lightshow"

/- The paths for a script. -/
def forScript
    (script : String)
    (outDir : Option String) : Output :=
  let base :=
    match (PathText.ofString script).fileName? with
    | some name => String.ofList (stem name)
    | none => defaultStem
  let dir := outDir.getD (directoryOf script)
  { image := join dir (base ++ ".bin")
    packets := join dir (base ++ ".packets.json")
    listing := join dir (base ++ ".lst") }

end Output

end Files

end LightShow
