import ThreeAddress.CommandLine.Diagnostic
import ThreeAddress.Statement.Parse
import ThreeAddress.Text.Blank
import ThreeAddress.Tree.OfListings
import ThreeAddress.Tree.Walk

/-!
# Carrying out a command

A command reads all its statements before it shows anything; the first that cannot be read ends it.
What it would print, its log, and its exit code are computed as a report.
-/
namespace ThreeAddress.CommandLine

/-- What running a command comes to. -/
structure Report where
  exitCode : Nat
  stdout : String
  stderr : String
  deriving DecidableEq, Repr

/-- A statement without its blanks. -/
def stripBlanks (text : List Char) : List Char := text.filter fun c => !Text.isBlank c

/-- A line without the carriage return at its end, if there is one. -/
def dropReturn (line : List Char) : List Char :=
  if line.getLast? = some '\r' then line.dropLast else line

/-- The lines of a text. A line feed ends a line, with or without a carriage return before it; what
follows the last line feed is a line as it stands, unless it is empty. -/
def lines (text : List Char) : List (List Char) :=
  let pieces := text.splitOn '\n'
  pieces.dropLast.map dropReturn ++ pieces.getLast?.toList.filter (!·.isEmpty)

/-- The statements among texts, or else the sample, with the notices that go with them. -/
def statementsOf (texts : List (List Char)) : List String × List Diagnostic :=
  match (texts.map stripBlanks).filter (!·.isEmpty) with
  | [] => ([sample], [.notice .noInput])
  | statements => (statements.map String.ofList, [])

/-- The statements that an input gives. -/
def load (read : String → Except ReadFault String) :
    Input → Except Diagnostic (List String × List Diagnostic)
  | .statements texts => .ok (statementsOf (texts.map String.toList))
  | .file path =>
      match read path with
      | .ok text => .ok (statementsOf (lines text.toList))
      | .error fault => .error (.unreadableFile path fault)

/-- Reads statements in turn, up to the first that fails. -/
def readStatements : List String → Option (List Listing) × List Diagnostic
  | [] => (some [], [])
  | statement :: rest =>
      let traced := Statement.parseTraced statement
      let log := .notice (.reading statement) ::
        traced.events.toList.map fun event => .notice (.event event)
      match traced.result with
      | .error failure => (none, log ++ [.underlined statement failure, .parsingFailed])
      | .ok listing =>
          let warning := match listing.check with
            | .ok () => []
            | .error fault => [.notice (.malformed fault)]
          let (listings?, others) := readStatements rest
          (listings?.map (listing :: ·), log ++ warning ++ others)

/-- What the action shows of the listings before any tree. -/
def Action.listingsText (action : Action) (listings : List Listing) : String :=
  (if action = .check then "Parsing successful.\n" else "") ++
    if action.showsTriads then "Triads:\n" ++ String.join (listings.map Listing.text) else ""

/-- Carries out a command, with messages written in a given way. -/
def Command.reportWith (command : Command) (text : Verbosity → Diagnostic → String)
    (read : String → Except ReadFault String) : Report :=
  let stderr := fun diagnostics : List Diagnostic =>
    String.join (diagnostics.map (text command.verbosity))
  match load read command.input with
  | .error problem => { exitCode := 1, stdout := "", stderr := stderr [problem] }
  | .ok (statements, loading) =>
      match readStatements statements with
      | (none, reading) => { exitCode := 1, stdout := "", stderr := stderr (loading ++ reading) }
      | (some listings, reading) =>
          let shown := command.action.listingsText listings
          let log := loading ++ reading
          if command.action.showsTree then
            let traced := Tree.ofListingsTraced listings
            let log := log ++ traced.events.toList.map fun event => .notice (.event event)
            match traced.result with
            | .ok tree =>
                { exitCode := 0
                  stdout := shown ++ "Expression Tree:\n" ++ tree.outline Node.label
                  stderr := stderr log }
            | .error defect =>
                { exitCode := 1, stdout := shown, stderr := stderr (log ++ [.defect defect]) }
          else { exitCode := 0, stdout := shown, stderr := stderr log }

/-- Carries out a command. -/
def Command.report (command : Command) (read : String → Except ReadFault String) : Report :=
  command.reportWith Diagnostic.text read

/-- The exit code for arguments that give no command. -/
def usageExitCode : Nat := 2

end ThreeAddress.CommandLine
