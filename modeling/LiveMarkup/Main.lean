import LiveMarkup.Command.Line

/-!
# The program

Reads files and writes what `runCommandLine` leaves behind. Nothing is decided here.
-/

open LiveMarkup

/-- Reads the text of a file. -/
def readFileText (path : String) : IO (Except ReadFailure String) := do
  try
    let bytes ← IO.FS.readBinFile path
    match Utf8.decode? bytes.toList with
    | some text => return .ok (String.ofList text)
    | none => return .error .other
  catch
    | .noFileOrDirectory .. => return .error .notFound
    | _ => return .error .other

/-- Runs a command line, and answers its exit code. -/
def main (arguments : List String) : IO UInt32 := do
  let outcome ← runCommandLine readFileText arguments
  IO.eprint outcome.errorOutput
  IO.print outcome.output
  return outcome.code.toUInt32
