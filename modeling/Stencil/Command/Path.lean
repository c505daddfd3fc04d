/-!
Paths of files, and files that are held in memory.
-/
namespace Stencil.Command

/-- Why a file cannot be read. -/
inductive FileError where
  | notFound
  | isDirectory
  | notADirectory
  | nameTooLong
  | refused
  | other (reason : String)
  deriving Repr, DecidableEq

/-- The error in words. -/
def FileError.message : FileError → String
  | notFound => "No such file or directory (os error 2)"
  | isDirectory => "Is a directory (os error 21)"
  | notADirectory => "Not a directory (os error 20)"
  | nameTooLong => "File name too long (os error 36)"
  | refused => "Permission denied (os error 13)"
  | other reason => reason

/-- A name in a path that leads nowhere else. -/
def isIdle (name : String) : Bool :=
  name = "" || name = "."

/-- The names in a path. -/
def pathNames (path : String) : List String :=
  (path.splitOn "/").filter fun name => !isIdle name

/-- The name of a file without its last extension. A dot at the start opens no extension. -/
def stemOf (name : String) : String :=
  match (name.splitOn ".").reverse with
  | _ :: front@(_ :: _) =>
    let stem := ".".intercalate front.reverse
    if stem = "" then name else stem
  | _ => name

/-- The stem of the file that a path leads to, unless it leads upward or nowhere. -/
def pathStem? (path : String) : Option String :=
  match (pathNames path).getLast? with
  | some name => if name = ".." then none else some (stemOf name)
  | none => none

/-- A directory: the text of each file below it. -/
abbrev Directory := List (String × String)

namespace Directory

/-- The text of the file with these names, from the directory on. -/
def file? (files : Directory) (names : List String) : Option String :=
  (files.reverse.find? fun (path, _) => pathNames path = names).map Prod.snd

/-- The names lead to a directory. -/
def hasDirectory (files : Directory) (names : List String) : Bool :=
  names.isEmpty ||
    files.any fun (path, _) => names.isPrefixOf (pathNames path) && pathNames path != names

/-- The most bytes that a name in a path may have. -/
def maxNameBytes : Nat := 255

/-- The most bytes that a path may have. -/
def maxPathBytes : Nat := 4095

/-- The place that a path leads to from a place on, where `none` stands for every place outside the
    directory. From there a path can go further up, and finds no name. -/
def follow (files : Directory) (place : Option (List String)) :
    List String → Except FileError (Option (List String))
  | [] => .ok place
  | name :: rest =>
    if !place.all files.hasDirectory then .error .notADirectory
    else if isIdle name then files.follow place rest
    else if name = ".." then
      files.follow (place.bind fun names => if names.isEmpty then none else some names.dropLast) rest
    else if maxNameBytes < name.utf8ByteSize then .error .nameTooLong
    else
      match place.map (· ++ [name]) with
      | none => .error .notFound
      | some next =>
        if (files.file? next).isSome || files.hasDirectory next then files.follow (some next) rest
        else .error .notFound

/-- The text of the file that a path leads to. A path from the root starts outside the directory. -/
def read (files : Directory) (path : String) : Except FileError String :=
  if path = "" then .error .notFound
  else if maxPathBytes < path.utf8ByteSize then .error .nameTooLong
  else do
    let start := if path.startsWith "/" then none else some []
    match (← files.follow start (path.splitOn "/")).bind files.file? with
    | some text => return text
    | none => throw .isDirectory

end Directory

end Stencil.Command
