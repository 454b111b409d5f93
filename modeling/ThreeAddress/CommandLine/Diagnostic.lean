import ThreeAddress.CommandLine.Arguments
import ThreeAddress.Listing.WellFormed
import ThreeAddress.Statement.Failure
import ThreeAddress.Tree.Expansion

/-!
# What a command writes beside its output

Log entries are shown as far as the verbosity allows. A statement that cannot be read is shown with
its failing character underlined, and an error always has the last word.
-/
namespace ThreeAddress.CommandLine

/-- Why a file gives no text. -/
inductive ReadFault where
  | missing
  | notText
  /-- A reason that the system describes. -/
  | other (description : String)
  deriving DecidableEq, Repr

def ReadFault.text : ReadFault → String
  | missing => "No such file or directory (os error 2)"
  | notText => "stream did not contain valid UTF-8"
  | other description => description

/-- The text that bytes encode. -/
def decode (bytes : ByteArray) : Except ReadFault String :=
  match String.fromUTF8? bytes with
  | some text => .ok text
  | none => .error .notText

/-- An entry of the log. -/
inductive Notice where
  /-- Nothing was given, and the sample statement takes its place. -/
  | noInput
  | reading (statement : String)
  | malformed (fault : Malformation)
  | event (event : Event)

/-- The statement that is used when none is given. -/
def sample : String := "c:=(z+a-1)/2+('A'*'T');"

namespace Notice

def level : Notice → Level
  | noInput => .debug
  | reading _ => .info
  | malformed _ => .warn
  | event e => e.level

def message : Notice → String
  | noInput => "No input given, using " ++ sample
  | reading statement => "Parsing " ++ statement
  | malformed fault => "Generated triads are malformed: " ++ fault.message
  | event e => e.message

end Notice

/-- A message of a command. -/
inductive Diagnostic where
  | notice (notice : Notice)
  /-- A statement with its failing character underlined. -/
  | underlined (statement : String) (failure : Statement.Failure)
  | parsingFailed
  | defect (defect : Defect)
  | unreadableFile (path : String) (fault : ReadFault)

namespace Diagnostic

/-- Only entries of the log depend on the verbosity; errors are always shown. -/
def text (verbosity : Verbosity) : Diagnostic → String
  | notice n =>
      if !verbosity.quiet && n.level.rank ≤ verbosity.level then
        n.level.text ++ " - " ++ n.message ++ "\n"
      else ""
  | underlined statement failure =>
      "| " ++ statement ++ "\n| " ++
        String.ofList (List.replicate (failure.column statement) ' ') ++
        String.ofList (List.replicate failure.length '^') ++ "--- " ++ failure.message ++ "\n"
  | parsingFailed => "Error: Parsing failed\n"
  | defect d => "Error: " ++ d.message ++ "\n"
  | unreadableFile path fault =>
      "Error: Unable to read " ++ path ++ "\n\nCaused by:\n    " ++ fault.text ++ "\n"

end Diagnostic

end ThreeAddress.CommandLine
