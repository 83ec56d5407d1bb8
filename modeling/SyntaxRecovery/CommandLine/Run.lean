import SyntaxRecovery.CommandLine.Arguments
import SyntaxRecovery.CommandLine.Render
import SyntaxRecovery.Document.Session
import SyntaxRecovery.Json.Writer
import SyntaxRecovery.Toml.Reader

/-! The commands, given the files that they read. -/
namespace SyntaxRecovery.CommandLine

inductive ReadFailure where
  | missing
  | notText
  deriving DecidableEq, Repr

def ReadFailure.message : ReadFailure → String
  | .missing => "No such file or directory (os error 2)"
  | .notText => "stream did not contain valid UTF-8"

inductive Failure where
  | reading (path : String) (reason : ReadFailure)
  | parsingEdits (path : String)
  | parsingSession (path : String)
  | parsingConfig (path : String)
  | scanning (path : String) (error : SessionError)
  | propagating (path : String) (error : SessionError)
  deriving DecidableEq, Repr

def Failure.message : Failure → String
  | .reading path reason => s!"error reading file '{path}': {reason.message}"
  | .parsingEdits path => s!"error parsing edits in '{path}'"
  | .parsingSession path => s!"error parsing session '{path}'"
  | .parsingConfig path => s!"error parsing config '{path}'"
  | .scanning path error => s!"error scanning '{path}': {error.message}"
  | .propagating path error => s!"error propagating '{path}': {error.message}"

/-- What a file holds; none for a file that is not there. -/
abbrev Files := String → Option ByteArray

def readText (files : Files) (path : String) : Except Failure String :=
  match files path with
  | none => .error (.reading path .missing)
  | some bytes =>
    match String.fromUTF8? bytes with
    | some text => .ok text
    | none => .error (.reading path .notText)

def readConfig (files : Files) (path : String) : Except Failure RecoveryConfig := do
  let text ← readText files path
  match (Toml.parse? text).bind decode? with
  | some config => .ok config
  | none => .error (.parsingConfig path)

def readEdits (files : Files) (path : String) : Except Failure (List EditRequest) := do
  let text ← readText files path
  match ofJsonText? text with
  | some edits => .ok edits
  | none => .error (.parsingEdits path)

def readSession (files : Files) (path : String) : Except Failure Session := do
  let text ← readText files path
  match ofJsonText? text with
  | some session => .ok session
  | none => .error (.parsingSession path)

/-- Reads the source, then the edits, then the configuration. -/
def replay (files : Files) (output : OutputFormat) (config : Option String) (source : String)
    (edits : Option String) : Except Failure String := do
  let text ← readText files source
  let edits ← match edits with
    | some path => readEdits files path
    | none => pure []
  let config ← match config with
    | some path => readConfig files path
    | none => pure {}
  let session : Session := { config, source := some text, edits }
  match session.replay with
  | .error error => .error (.scanning source error)
  | .ok tokens =>
    match output with
    | .text => return lines (tokens.map tokenLine)
    | .json => return lines [(encode tokens).pretty]

/-- Reads the session, then the configuration, which takes the place of the session's own. -/
def propagate (files : Files) (output : OutputFormat) (config : Option String) (path : String) :
    Except Failure String := do
  let session ← readSession files path
  let session ← match config with
    | some path => do pure { session with config := ← readConfig files path }
    | none => pure session
  match session.propagate with
  | .error error => .error (.propagating path error)
  | .ok result =>
    match output with
    | .text => return lines (treeLines result.tree ++ result.diagnostics.map diagnosticLine)
    | .json => return lines [result.encode.pretty]

def execute (files : Files) (invocation : Invocation) : Except Failure String :=
  match invocation.command with
  | .replay source edits => replay files invocation.output invocation.config source edits
  | .propagate path => propagate files invocation.output invocation.config path

/-- How the program ends. -/
inductive Outcome where
  | stopped (reason : Stop)
  | printed (text : String)
  | failed (invocation : Invocation) (failure : Failure)
  deriving DecidableEq, Repr

def run (files : Files) (arguments : List String) : Outcome :=
  match Invocation.ofArguments arguments with
  | .error reason => .stopped reason
  | .ok invocation =>
    match execute files invocation with
    | .ok text => .printed text
    | .error failure => .failed invocation failure

def version : String := "salvage 0.1.0\n"

def usage : String :=
  "Usage: salvage [--output text|json] [--config FILE] [-v|--verbose]... [--quiet] COMMAND\n" ++
  "Commands:\n  replay SOURCE [--edits FILE]\n  propagate SESSION\n"

/-- The scan came to a place where it cannot go on, rather than to a fault of the text. -/
def Failure.isBreakdown : Failure → Bool
  | .scanning _ error | .propagating _ error =>
    match error with
    | .noSource | .stream (.scan (.lexical _)) => false
    | _ => true
  | _ => false

/-- The exit code. -/
def Outcome.code : Outcome → Nat
  | .stopped .misuse => 2
  | .stopped _ | .printed _ => 0
  | .failed _ failure => if failure.isBreakdown then 101 else 1

def Outcome.output : Outcome → String
  | .stopped .version => version
  | .stopped .help => usage
  | .printed text => text
  | _ => ""

/-- What is reported of a failure, without an end of line. -/
def Outcome.report : Outcome → String
  | .failed invocation failure =>
    if invocation.quiet ∨ failure.isBreakdown then ""
    else
      match invocation.output with
      | .text => failure.message
      | .json => (Json.obj [("error", .str failure.message)]).compact
  | _ => ""

end SyntaxRecovery.CommandLine
