import Tomasulo.Command

/-!
# Main — the command line

The files that a command line names are read first; everything else is `Tomasulo.Command.perform`.
-/

namespace Tomasulo.Main

/-- The text of a file.  The number of a long name's error comes with either sign. -/
def readFile (path : String) : IO (Except FileError String) := do
  try
    return textOfBytes (← IO.FS.readBinFile path)
  catch
    | .noFileOrDirectory .. => return .error .notFound
    | .inappropriateType _ 21 _ => return .error .isDirectory
    | .inappropriateType .. => return .error .notDirectory
    | .invalidArgument _ code text =>
      return .error (if code = 36 || code = -36 then .nameTooLong else .other text)
    | e => return .error (.other (toString e))

/-- The files that a command line names, with what they hold. -/
def readFiles (args : List String) : IO (List (String × Except FileError String)) := do
  match Command.Request.ofArgs args with
  | .ok (.run options) => options.files.mapM fun path => return (path, ← readFile path)
  | _ => return []

end Tomasulo.Main

/-- Performs the command line, prints what it gives and ends with its code. -/
def main (args : List String) : IO UInt32 := do
  let files ← Tomasulo.Main.readFiles args
  let outcome := Tomasulo.Command.perform Tomasulo.Json.Defect.message
    (fun path => (files.lookup path).getD (.error .notFound)) args
  (← IO.getStdout).putStr outcome.out
  (← IO.getStderr).putStr outcome.err
  return outcome.code
