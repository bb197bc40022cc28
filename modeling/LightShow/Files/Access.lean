/-
  What a program does with files.

  The three operations are given by an interface, so that the
  same command runs on real files and on a file tree that is
  a value. Errors are those of a POSIX system.

  Key definitions include:
    * `LightShow.Files.AccessError`
    * `LightShow.Files.Access`
-/

namespace LightShow

namespace Files

/- Why an operation on a file failed. -/
inductive AccessError where
  | notFound
  | alreadyExists
  | notDirectory
  | isDirectory
  | nameTooLong
  | nullInName
  | notText
  | other (text : String)
deriving DecidableEq, Repr

/- An error with the number that the system gives it. -/
def numbered (text : String) (number : Nat) : String :=
  s!"{text} (os error {number})"

/- The wording of each error. -/
def AccessError.message : AccessError → String
  | .notFound => numbered "No such file or directory" 2
  | .alreadyExists => numbered "File exists" 17
  | .notDirectory => numbered "Not a directory" 20
  | .isDirectory => numbered "Is a directory" 21
  | .nameTooLong => numbered "File name too long" 36
  | .nullInName => "file name contained an unexpected NUL byte"
  | .notText => "stream did not contain valid UTF-8"
  | .other text => text

/- The operations on files that a command uses. -/
structure Access (m : Type → Type) where
  /- Read a file as text. -/
  read : String → m (Except AccessError String)
  /- Make a directory and those above it that are missing. -/
  makeDirs : String → m (Except AccessError Unit)
  /- Write a file, in place of one that is there. -/
  write : String → ByteArray → m (Except AccessError Unit)

end Files

end LightShow
