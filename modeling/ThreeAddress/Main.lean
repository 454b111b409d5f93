import ThreeAddress.CommandLine.Report

/-!
# The program

Reads the file that the arguments name, if any, and prints the report.
-/
namespace ThreeAddress.CommandLine

/-- The text of a file as it is now. -/
def readText (path : String) : IO (Except ReadFault String) := do
  try
    return decode (← IO.FS.readBinFile path)
  catch
    | .noFileOrDirectory .. => return .error .missing
    | other => return .error (.other (toString other))

/-- The short form of the arguments. -/
def usage : String :=
  "Usage: [-v LEVEL] [-q] <check|triads|tree|run> [-f PATH | STATEMENT...]\n"

end ThreeAddress.CommandLine

open ThreeAddress.CommandLine in
def main (arguments : List String) : IO UInt32 := do
  match command? arguments with
  | none =>
      IO.eprint usage
      return usageExitCode.toUInt32
  | some command =>
      let text ← match command.input with
        | .file path => readText path
        | .statements _ => pure (.error .missing)
      let report := command.report fun _ => text
      IO.eprint report.stderr
      IO.print report.stdout
      return report.exitCode.toUInt32
