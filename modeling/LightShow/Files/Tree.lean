import LightShow.Files.Access
import LightShow.Files.PathText

/-
  File trees as values.

  A tree holds the files and directories of a system, named
  from the root. Paths that do not start at the root start at
  the working directory, which lies among the temporary files.
  Above it stand only the directories that every system has,
  and the null device, which is an empty file to its readers.

  Key definitions include:
    * `LightShow.Files.Tree`
    * `LightShow.Files.Tree.ofFiles`
    * `LightShow.Files.Tree.ownFiles`
    * `LightShow.Files.Tree.locate`
    * `LightShow.Files.Tree.makeDirs`
    * `LightShow.Files.Tree.access`
-/

namespace LightShow

namespace Files

/- The names on the way from the root to a place. -/
abbrev Place := List String

/- The directories at the root of every system. -/
def systemDirectories : List Place :=
  ["bin", "dev", "etc", "home", "lib", "opt", "proc", "root",
    "run", "sbin", "srv", "sys", "tmp", "usr", "var"].map ([·])

/- The device that reads as an empty file. -/
def nullDevice : Place := ["dev", "null"]

/- The directory where paths start that do not start at the
   root. -/
def workingDirectory : Place := ["tmp", "show"]

/- Directories and files. -/
structure Tree where
  directories : List Place :=
    workingDirectory :: systemDirectories
  files : List (Place × ByteArray) := [(nullDevice, .empty)]

namespace Tree

------------------------------------------------------------
-- What Is There
------------------------------------------------------------

/- Whether a place is a directory, as the root is. -/
def isDirectory (t : Tree) (place : Place) : Bool :=
  place.isEmpty || t.directories.contains place

def file? (t : Tree) (place : Place) : Option ByteArray :=
  t.files.lookup place

/- Add or replace a file. -/
def setFile
    (t : Tree)
    (place : Place)
    (content : ByteArray) : Tree :=
  { t with
    files :=
      (place, content) :: t.files.filter (·.1 ≠ place) }

/- Add a directory that is not there. -/
def addDirectory (t : Tree) (place : Place) : Tree :=
  if t.isDirectory place then t
  else { t with directories := place :: t.directories }

/- The nonempty lists that are a front part of a list. -/
def fronts : List String → List (List String)
  | [] => []
  | n :: ns => [n] :: (fronts ns).map (n :: ·)

/- The tree with files in the working directory, named from
   there. -/
def ofFiles (files : List (List String × ByteArray)) : Tree :=
  files.foldl
    (fun t (names, content) =>
      let place := workingDirectory ++ names
      ((fronts place.dropLast).foldl addDirectory t).setFile
        place content)
    {}

/- The files in the working directory, named from there. -/
def ownFiles (t : Tree) : List (List String × ByteArray) :=
  t.files.filterMap fun (place, content) =>
    (workingDirectory.isPrefixOf? place).map (·, content)

------------------------------------------------------------
-- Following Paths
------------------------------------------------------------

/- The number of bytes that a name may have. -/
def maxName : Nat := 255

/- The number of bytes that a path may have. -/
def maxPath : Nat := 4095

/-
  Follow one segment, which only a directory has. The root is
  above itself.
-/
def step
    (t : Tree)
    (place : Place)
    (segment : List Char) : Except AccessError Place :=
  if t.isDirectory place then
    if PathText.isVoid segment then .ok place
    else if segment = ['.', '.'] then .ok place.dropLast
    else
      let name := String.ofList segment
      if maxName < name.utf8ByteSize then .error .nameTooLong
      else .ok (place ++ [name])
  else if (t.file? place).isSome then .error .notDirectory
  else .error .notFound

/- The place that a path leads to. What is there is open, but
   all before it are directories. -/
def locate
    (t : Tree)
    (path : PathText) : Except AccessError Place :=
  if path.text.toList.contains '\x00' then .error .nullInName
  else if path.text = "" then .error .notFound
  else if maxPath < path.text.utf8ByteSize then
    .error .nameTooLong
  else
    path.segments.foldlM t.step
      (if path.isAbsolute then [] else workingDirectory)

------------------------------------------------------------
-- Operations
------------------------------------------------------------

/- Read a file as text. -/
def read (t : Tree) (path : String) :
    Except AccessError String := do
  let place ← t.locate (.ofString path)
  if t.isDirectory place then throw .isDirectory
  match t.file? place with
  | none => throw .notFound
  | some content =>
      match String.fromUTF8? content with
      | some text => return text
      | none => throw .notText

/- Write a file. -/
def write
    (t : Tree)
    (path : String)
    (content : ByteArray) : Except AccessError Tree := do
  let place ← t.locate (.ofString path)
  if t.isDirectory place then throw .isDirectory
  return t.setFile place content

/- Make one directory. -/
def makeDir
    (t : Tree)
    (path : PathText) : Except AccessError Tree := do
  let place ← t.locate path
  if t.isDirectory place || (t.file? place).isSome then
    throw .alreadyExists
  return t.addDirectory place

/- Whether a path leads to a directory. -/
def leadsToDirectory (t : Tree) (path : PathText) : Bool :=
  match t.locate path with
  | .ok place => t.isDirectory place
  | .error _ => false

/- Make a directory, unless it is there. -/
def makeDirOnce
    (t : Tree)
    (path : PathText) : Except AccessError Tree :=
  match t.makeDir path with
  | .ok t => .ok t
  | .error e =>
      if t.leadsToDirectory path then .ok t else .error e

/-
  Make the first of a list of directories, each below the
  next. Only where one above it is missing are those made
  first.
-/
def makeLineage
    (t : Tree) :
    List PathText → Except AccessError Tree
  | [] => .ok t
  | path :: above =>
      if path.text = "" then .ok t
      else
        match t.makeDirOnce path with
        | .error .notFound => do
            (← t.makeLineage above).makeDirOnce path
        | result => result

/- Make a directory and those above it that are missing. -/
def makeDirs (t : Tree) (path : String) :
    Except AccessError Tree :=
  let p := PathText.ofString path
  t.makeLineage (p :: p.parents)

------------------------------------------------------------
-- Access
------------------------------------------------------------

/- Replace the tree where an operation succeeded. -/
def update
    (operation : Tree → Except AccessError Tree) :
    StateM Tree (Except AccessError Unit) :=
  fun t =>
    match operation t with
    | .ok t' => (.ok (), t')
    | .error e => (.error e, t)

/- The operations on a tree that is kept as state. -/
def access : Access (StateM Tree) where
  read path := fun t => (t.read path, t)
  makeDirs path := update fun t => t.makeDirs path
  write path content := update fun t => t.write path content

end Tree

end Files

end LightShow
