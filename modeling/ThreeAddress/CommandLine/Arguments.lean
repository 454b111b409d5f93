/-!
# Arguments of the command line

Options that concern the log come before the name of an action; the statements, or the file that
holds them, come after it. An option is given at most once. Its value is the next argument, which
must not look like an option, or stands right behind it. After `--` every argument is a statement.

Arguments are taken one by one; what an argument means depends on the phase reached.
-/
namespace ThreeAddress.CommandLine

/-- What to do with the statements. -/
inductive Action where
  /-- Only read them. -/
  | check
  /-- Show their triads. -/
  | triads
  /-- Show their tree. -/
  | tree
  /-- Show triads and tree. -/
  | run
  deriving DecidableEq, Repr

namespace Action

def ofName? : String → Option Action
  | "check" => some check
  | "triads" => some triads
  | "tree" => some tree
  | "run" => some run
  | _ => none

def showsTriads : Action → Bool
  | triads | run => true
  | check | tree => false

def showsTree : Action → Bool
  | tree | run => true
  | check | triads => false

end Action

/-- Where statements come from. -/
inductive Input where
  | statements (texts : List String)
  /-- A file with a statement on each line. -/
  | file (path : String)
  deriving DecidableEq, Repr

/-- How much of the log is shown. -/
structure Verbosity where
  /-- The rank of the least grave level shown. -/
  level : Nat := 1
  quiet : Bool := false
  deriving DecidableEq, Repr

structure Command where
  verbosity : Verbosity
  action : Action
  input : Input
  deriving DecidableEq, Repr

/-- Which kind of argument may come next. -/
inductive Phase where
  /-- An option for the log, or an action. -/
  | options
  /-- The level of the log. -/
  | level
  /-- The file option, or a statement. -/
  | input (action : Action)
  /-- The path of the file. -/
  | path (action : Action)
  /-- Statements only. -/
  | verbatim (action : Action)
  deriving DecidableEq, Repr

/-- What the arguments so far have said. -/
structure Progress where
  phase : Phase := .options
  level? : Option Nat := none
  quiet : Bool := false
  path? : Option String := none
  texts : Array String := #[]

/-- Levels are counted in 64 bits. -/
def maxLevel : Nat := Nat.pow 2 64 - 1

/-- Reads a level: digits, with or without a plus sign in front. -/
def readLevel? (text : List Char) : Option Nat :=
  let digits := match text with
    | '+' :: digits => digits
    | digits => digits
  if digits.isEmpty || !digits.all Char.isDigit then none
  else
    let level := digits.foldl (fun n c => 10 * n + (c.toNat - '0'.toNat)) 0
    if level ≤ maxLevel then some level else none

/-- Whether an argument looks like an option; a dash alone does not. -/
def isOption : List Char → Bool
  | '-' :: _ :: _ => true
  | _ => false

/-- The text of a value that stands right behind a short option, where an equals sign may lead. -/
def attached : List Char → List Char
  | '=' :: value => value
  | value => value

/-- The name of a long option and the value behind its equals sign. -/
def splitLong (text : List Char) : List Char × Option (List Char) :=
  match text.dropWhile (· != '=') with
  | [] => (text, none)
  | _ :: value => (text.takeWhile (· != '='), some value)

namespace Progress

def setLevel (p : Progress) (value : List Char) : Option Progress :=
  match p.level?, readLevel? value with
  | none, some level => some { p with phase := .options, level? := some level }
  | _, _ => none

def setQuiet (p : Progress) : Option Progress :=
  if p.quiet then none else some { p with quiet := true }

def setPath (p : Progress) (action : Action) (value : List Char) : Option Progress :=
  if p.path?.isNone && !value.isEmpty then
    some { p with phase := .input action, path? := some (String.ofList value) }
  else none

def addText (p : Progress) (text : String) : Progress := { p with texts := p.texts.push text }

/-- Short options before the action; the one that takes a value ends the cluster. -/
def shortOptions (p : Progress) : List Char → Option Progress
  | [] => some p
  | 'q' :: rest => p.setQuiet.bind (·.shortOptions rest)
  | ['v'] => some { p with phase := .level }
  | 'v' :: value => p.setLevel (attached value)
  | _ => none

/-- A long option before the action. -/
def longOption (p : Progress) (text : List Char) : Option Progress :=
  match splitLong text with
  | (name, value?) =>
      match String.ofList name, value? with
      | "verbose", some value => p.setLevel value
      | "verbose", none => some { p with phase := .level }
      | "quiet", none => p.setQuiet
      | _, _ => none

/-- A short option after the action. -/
def shortInput (p : Progress) (action : Action) : List Char → Option Progress
  | ['f'] => some { p with phase := .path action }
  | 'f' :: value => p.setPath action (attached value)
  | _ => none

/-- A long option after the action. -/
def longInput (p : Progress) (action : Action) (text : List Char) : Option Progress :=
  match splitLong text with
  | (name, value?) =>
      match String.ofList name, value? with
      | "file", some value => p.setPath action value
      | "file", none => some { p with phase := .path action }
      | _, _ => none

/-- Takes one argument. -/
def take (p : Progress) (argument : String) : Option Progress :=
  let cs := argument.toList
  match p.phase with
  | .options =>
      match cs with
      | '-' :: '-' :: text => p.longOption text
      | '-' :: c :: text => p.shortOptions (c :: text)
      | _ => (Action.ofName? argument).map fun action => { p with phase := .input action }
  | .level => if isOption cs then none else p.setLevel cs
  | .input action =>
      match cs with
      | ['-', '-'] => some { p with phase := .verbatim action }
      | '-' :: '-' :: text => p.longInput action text
      | '-' :: c :: text => p.shortInput action (c :: text)
      | _ => some (p.addText argument)
  | .path action => if isOption cs then none else p.setPath action cs
  | .verbatim _ => some (p.addText argument)

/-- The command, once an action is named and no value is missing. A file and statements exclude
each other. -/
def command? (p : Progress) : Option Command :=
  match p.phase with
  | .input action | .verbatim action =>
      let verbosity := { level := p.level?.getD 1, quiet := p.quiet }
      match p.path? with
      | none => some { verbosity, action, input := .statements p.texts.toList }
      | some path =>
          if p.texts.isEmpty then some { verbosity, action, input := .file path } else none
  | _ => none

end Progress

/-- The command that the arguments give, if they give one. -/
def command? (arguments : List String) : Option Command :=
  (arguments.foldlM Progress.take {}).bind Progress.command?

end ThreeAddress.CommandLine
