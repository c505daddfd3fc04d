import Stencil.Command

/-!
The program `quill`.
-/
namespace Stencil.Command

/-- The error code of reading a directory as a file. -/
def directoryCode : UInt32 := 21

/-- Why a file could not be read. -/
def fileError : IO.Error → FileError
  | .noFileOrDirectory .. => .notFound
  | .inappropriateType _ code _ => if code = directoryCode then .isDirectory else .notADirectory
  | .invalidArgument .. => .nameTooLong
  | .permissionDenied .. => .refused
  | e => .other (toString e)

/-- The text of a file. -/
def readFile (path : String) : IO (Except FileError String) := do
  try
    return .ok (← IO.FS.readFile path)
  catch e =>
    return .error (fileError e)

/-- The paths of the files that an invocation may read. -/
def pathsOf : Action → List String
  | .render sources (some context) =>
    if context.startsWith "@" then sources.files ++ [(context.drop 1).toString] else sources.files
  | .render sources none => sources.files
  | .listing sources => sources.files
  | .counter _ => []

end Stencil.Command

open Stencil.Command

/-- Reads the files that the arguments name, then runs the command on them. -/
def main (arguments : List String) : IO UInt32 := do
  let environment : Environment := ⟨← IO.getEnv "QUILL_LOG", ← IO.getEnv "RUST_LOG"⟩
  let paths := match Invocation.parse none arguments with
    | .ok invocation => pathsOf invocation.action
    | .error _ => []
  let texts ← paths.mapM fun path => return (path, ← readFile path)
  let read (path : String) : Except FileError String :=
    (texts.lookup path).getD (.error .notFound)
  let outcome := run read environment arguments
  for record in outcome.log do
    IO.eprintln ("[" ++ record.line)
  IO.print outcome.output
  for line in outcome.report do
    IO.eprintln line
  return outcome.exit.toUInt32
