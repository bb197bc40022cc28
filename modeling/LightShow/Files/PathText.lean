import LightShow.Text.Split

/-
  File paths as texts.

  A path is cut at its slashes. A segment that is empty or a
  single dot names nothing, so the last component of a path is
  its last other segment; taking the parent drops it together
  with what names nothing before it, and keeps the spelling of
  the rest. A slash or a single dot in front of the first
  slash belongs to the lead and is never dropped.

  Key definitions include:
    * `LightShow.Files.PathText`
    * `LightShow.Files.PathText.parent?`
    * `LightShow.Files.PathText.fileName?`
    * `LightShow.Files.stem`
    * `LightShow.Files.join`
-/

namespace LightShow

namespace Files

/- A path cut into its lead and its segments. -/
structure PathText where
  lead : String
  segments : List (List Char)
deriving DecidableEq, Repr

namespace PathText

/- Cut a text. -/
def ofString (text : String) : PathText :=
  match text.toList with
  | '/' :: cs => ⟨"/", Text.split '/' cs⟩
  | ['.'] => ⟨".", []⟩
  | '.' :: '/' :: cs => ⟨".", Text.split '/' ('/' :: cs)⟩
  | cs => ⟨"", Text.split '/' cs⟩

/- The text of a path. -/
def text (p : PathText) : String :=
  p.lead ++ String.ofList (Text.join '/' p.segments)

/- Whether a path starts at the root. -/
def isAbsolute (p : PathText) : Bool :=
  p.lead == "/"

/- Whether a segment names nothing. -/
def isVoid (segment : List Char) : Bool :=
  segment == [] || segment == ['.']

/- The segments from the last to the first, from the last
   component on. -/
def backward (p : PathText) : List (List Char) :=
  p.segments.reverse.dropWhile isVoid

/- The path with other segments, given from the last one. -/
def withBackward
    (p : PathText)
    (segments : List (List Char)) : PathText :=
  { p with segments := (segments.dropWhile isVoid).reverse }

/- The paths of the directories above, the nearest first. -/
def parentsFrom
    (p : PathText) :
    List (List Char) → List PathText
  | [] => []
  | s :: before =>
      if isVoid s then parentsFrom p before
      else p.withBackward before :: parentsFrom p before

/- The paths of the directories above, the nearest first. -/
def parents (p : PathText) : List PathText :=
  p.parentsFrom p.segments.reverse

/- The path of the directory above. -/
def parent? (p : PathText) : Option PathText :=
  p.parents.head?

/- The name of the file, if the path ends with a name. -/
def fileName? (p : PathText) : Option (List Char) :=
  match p.backward with
  | [] => none
  | name :: _ => if name = ['.', '.'] then none else some name

end PathText

------------------------------------------------------------
-- Names
------------------------------------------------------------

/-
  A file name without its extension, which starts at the last
  dot. A dot in front starts none.
-/
def stem (name : List Char) : List Char :=
  match (name.reverse.dropWhile (· ≠ '.')).drop 1 with
  | [] => name
  | before => before.reverse

/- The path of a file in a directory. -/
def join (dir name : String) : String :=
  if dir = "" ∨ dir.toList.getLast? = some '/' then dir ++ name
  else dir ++ "/" ++ name

/- The path of the directory of a file, empty for none. -/
def directoryOf (path : String) : String :=
  match (PathText.ofString path).parent? with
  | some p => p.text
  | none => ""

end Files

end LightShow
