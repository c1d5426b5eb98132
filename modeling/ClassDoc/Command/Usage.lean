/-
  The command line.

      disassemble [--comments] [--listing] [--fail-fast] [--report <file>] <input> <output>
      assemble [--fail-fast] [--report <file>] <input> <output>
      help [<command>]

  Before the command there can be `-v` or `--verbose`, any number of times. `--` ends the options.
-/
import ClassDoc.Batch
namespace ClassDoc

/-- What a command line asks for. -/
structure Request where
  direction : Direction
  input : String
  output : String
  policy : Batch.Policy
  report : Option String

/-- Why a command line asks for nothing that can be run. -/
inductive UsageProblem where
  | noCommand
  | missingCommand
  | unknownCommand
  | missingArgument
  | unknownArgument
  | emptyValue
  | unneededValue
  | repeated
  | help
  deriving DecidableEq

def UsageProblem.name : UsageProblem → String
  | noCommand => "DisplayHelpOnMissingArgumentOrSubcommand"
  | missingCommand => "MissingSubcommand"
  | unknownCommand => "InvalidSubcommand"
  | missingArgument => "MissingRequiredArgument"
  | unknownArgument => "UnknownArgument"
  | emptyValue => "InvalidValue"
  | unneededValue => "TooManyValues"
  | repeated => "ArgumentConflict"
  | help => "DisplayHelp"

namespace Command

/-- How an argument is written. -/
inductive Form where
  | escape
  /-- An option by its name, possibly with a value after `=`. -/
  | long (name : String) (value : Option String)
  | short (letters : List Char)
  | plain

def formOf (arg : String) : Form :=
  match arg.toList with
  | ['-', '-'] => .escape
  | '-' :: '-' :: rest =>
    .long (String.ofList (rest.takeWhile (· ≠ '=')))
      (match rest.dropWhile (· ≠ '=') with
        | _ :: value => some (String.ofList value)
        | [] => none)
  | '-' :: c :: letters => .short (c :: letters)
  | _ => .plain

/-! ## After the command -/

/-- An argument that was read, but not looked at yet. -/
inductive Pending where
  | path (text : String)
  /-- A report file, without a text as long as it is still to come. -/
  | report (text : Option String)

/-- The arguments that were read. -/
structure Arguments where
  /-- The options for documents can be given. -/
  forDocuments : Bool
  /-- The input and the output, the last one first. -/
  paths : List String := []
  report : Option String := none
  marks : List String := []
  pending : Option Pending := none
  trailing : Bool := false

namespace Arguments

def markNames (a : Arguments) : List String :=
  (if a.forDocuments then ["comments", "listing"] else []) ++ ["fail-fast"]

/-- Sets the report file, which is not empty and not given twice. -/
def setReport (a : Arguments) (text : String) : Except UsageProblem Arguments :=
  if a.report.isSome then .error .repeated
  else if text = "" then .error .emptyValue
  else .ok { a with report := some text }

def settle (a : Arguments) : Except UsageProblem Arguments :=
  let rest := { a with pending := none }
  match a.pending with
  | none => .ok a
  | some (.path text) => if text = "" then .error .emptyValue else .ok { rest with paths := text :: a.paths }
  | some (.report none) => .error .emptyValue
  | some (.report (some text)) => rest.setReport text

def pathCount (a : Arguments) : Nat :=
  a.paths.length + (match a.pending with
    | some (.path _) => 1
    | _ => 0)

def takePath (a : Arguments) (arg : String) : Except UsageProblem Arguments :=
  if a.pathCount < 2 then do return { ← a.settle with pending := some (.path arg) }
  else .error .unknownArgument

def takeOption (a : Arguments) (name : String) (value : Option String) : Except UsageProblem Arguments :=
  if name = "report" then do
    let a ← a.settle
    match value with
    | some text => a.setReport text
    | none => return { a with pending := some (.report none) }
  else if name = "help" || a.markNames.contains name then
    if value.isSome then .error .unneededValue
    else do
      let a ← a.settle
      if name = "help" then .error .help
      else if a.marks.contains name then .error .repeated
      else return { a with marks := name :: a.marks }
  else .error .unknownArgument

def takePlain (a : Arguments) (arg : String) : Except UsageProblem Arguments :=
  match a.pending with
  | some (.report none) => .ok { a with pending := some (.report (some arg)) }
  | _ => a.takePath arg

def take (a : Arguments) (arg : String) : Except UsageProblem Arguments :=
  if a.trailing then a.takePath arg
  else match formOf arg with
    | .escape => .ok { a with trailing := true }
    | .long name value => a.takeOption name value
    | .short ('h' :: _) => do
      let _ ← a.settle
      .error .help
    | .short _ => .error .unknownArgument
    | .plain => a.takePlain arg

def direction (a : Arguments) : Direction :=
  if a.forDocuments then .toDocument ⟨a.marks.contains "comments", a.marks.contains "listing"⟩ else .toBinary

def request (a : Arguments) : Except UsageProblem Request := do
  let a ← a.settle
  match a.paths with
  | [output, input] =>
    return {
      direction := a.direction
      input, output
      policy := if a.marks.contains "fail-fast" then .failFast else .collectAll
      report := a.report }
  | _ => .error .missingArgument

def parse (forDocuments : Bool) (args : List String) : Except UsageProblem Request := do
  (← args.foldlM take { forDocuments }).request

end Arguments

/-! ## The command -/

/-- The commands that make documents or class files; for documents, `true`. -/
def command? (arg : String) : Option Bool :=
  if arg = "disassemble" then some true
  else if arg = "assemble" then some false
  else none

/-- Whether something can be asked for by its name alone. -/
def isCommand (arg : String) : Bool := (command? arg).isSome || arg = "help"

/-- What comes of asking for help: on nothing, or on one command. -/
def help : List String → UsageProblem
  | [] => .help
  | [topic] => if isCommand topic then .help else .unknownCommand
  | _ => .unknownCommand

/-- Goes over letters before the command. -/
def checkLetters : List Char → Except UsageProblem Unit
  | [] => .ok ()
  | 'v' :: rest => checkLetters rest
  | 'h' :: _ => .error .help
  | _ => .error .unknownArgument

def checkOption (name : String) (value : Option String) : Except UsageProblem Unit :=
  if name = "verbose" || name = "help" then
    if value.isSome then .error .unneededValue else if name = "help" then .error .help else .ok ()
  else .error .unknownArgument

/-- What comes of no command, after options of which `verbose` tells whether there were any. -/
def withoutCommand (verbose : Bool) : UsageProblem := if verbose then .missingCommand else .noCommand

/-- What comes of the arguments after `--`, where no command can be. -/
def afterEscape (verbose : Bool) : List String → UsageProblem
  | [] => withoutCommand verbose
  | arg :: _ => if isCommand arg then .unknownArgument else .unknownCommand

/-- The request of a command line, after options of which `verbose` tells whether there were any. -/
def parse : (verbose : Bool) → List String → Except UsageProblem Request
  | verbose, [] => .error (withoutCommand verbose)
  | verbose, arg :: rest =>
    match command? arg with
    | some forDocuments => Arguments.parse forDocuments rest
    | none =>
      if arg = "help" then .error (help rest)
      else match formOf arg with
        | .escape => .error (afterEscape verbose rest)
        | .long name value => do
          checkOption name value
          parse true rest
        | .short letters => do
          checkLetters letters
          parse true rest
        | .plain => .error .unknownCommand

end Command

def Request.parse (args : List String) : Except UsageProblem Request := Command.parse false args

end ClassDoc
