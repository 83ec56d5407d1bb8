/-! The arguments of the command line. -/
namespace SyntaxRecovery.CommandLine

inductive OutputFormat where
  | text | json
  deriving DecidableEq, Repr

inductive Command where
  /-- Scans a source file with the edits of another file worked in. -/
  | replay (source : String) (edits : Option String)
  /-- Flags the recovered nodes of a session. -/
  | propagate (session : String)
  deriving DecidableEq, Repr

structure Invocation where
  output : OutputFormat
  config : Option String
  quiet : Bool
  command : Command
  deriving DecidableEq, Repr

/-- Why there is nothing to run. -/
inductive Stop where
  | version
  | help
  | misuse
  deriving DecidableEq, Repr

/-- How an argument reads. -/
inductive Form where
  | plain
  /-- Two hyphens: all that follows is plain. -/
  | separator
  | long (name : String) (value : Option String)
  | short (letters : List Char)
  deriving DecidableEq, Repr

def formOf (argument : String) : Form :=
  match argument.toList with
  | ['-', '-'] => .separator
  | '-' :: '-' :: rest =>
    let name := String.ofList (rest.takeWhile (· != '='))
    match rest.dropWhile (· != '=') with
    | _ :: value => .long name (some (String.ofList value))
    | [] => .long name none
  | '-' :: c :: rest => .short (c :: rest)
  | _ => .plain

/-- Where options stand. Some belong to one place only. -/
inductive Place where
  | beforeCommand | afterReplay | afterPropagate
  deriving DecidableEq, Repr

/-- The options given at one place. -/
structure Options where
  output : Option OutputFormat := none
  config : Option String := none
  edits : Option String := none
  quiet : Bool := false
  deriving DecidableEq, Repr

def takesValue (place : Place) (name : String) : Bool :=
  name == "output" || name == "config" || name == "edits" && place == .afterReplay

namespace Options

/-- Gives an option its value. No option is given twice at one place. -/
def set (options : Options) (place : Place) (name value : String) : Except Stop Options :=
  if takesValue place name ∧ value ≠ "" then
    match name, value, options with
    | "output", "text", { output := none, .. } => .ok { options with output := some .text }
    | "output", "json", { output := none, .. } => .ok { options with output := some .json }
    | "config", path, { config := none, .. } => .ok { options with config := some path }
    | "edits", path, { edits := none, .. } => .ok { options with edits := some path }
    | _, _, _ => .error .misuse
  else .error .misuse

/-- Takes an option that has no value. The version is told before a command only. -/
def switch (options : Options) (place : Place) (name : String) : Except Stop Options :=
  match name with
  | "verbose" => .ok options
  | "quiet" => if options.quiet then .error .misuse else .ok { options with quiet := true }
  | "help" => .error .help
  | "version" => if place = .beforeCommand then .error .version else .error .misuse
  | _ => .error .misuse

/-- Takes an option that is written as one letter. -/
def letter (options : Options) (place : Place) : Char → Except Stop Options
  | 'v' => options.switch place "verbose"
  | 'h' => options.switch place "help"
  | 'V' => options.switch place "version"
  | _ => .error .misuse

/-- Reads options up to the first argument that is none, and gives the arguments from there on. The
value of an option may be an argument of its own. -/
def read (place : Place) (options : Options) : List String → Except Stop (Options × List String)
  | [] => .ok (options, [])
  | argument :: rest =>
    match formOf argument with
    | .plain | .separator => .ok (options, argument :: rest)
    | .short letters => do read place (← letters.foldlM (·.letter place) options) rest
    | .long name (some value) => do read place (← options.set place name value) rest
    | .long name none =>
      if takesValue place name then
        match rest with
        | value :: rest =>
          if formOf value = .plain then do read place (← options.set place name value) rest
          else .error .misuse
        | [] => .error .misuse
      else do read place (← options.switch place name) rest

/-- Options after the command take precedence over those before it. -/
def merge (before after : Options) : Options where
  output := after.output <|> before.output
  config := after.config <|> before.config
  edits := after.edits
  quiet := before.quiet || after.quiet

end Options

/-- The options and the one plain argument that stand after a command. -/
def readOperand (place : Place) (arguments : List String) : Except Stop (Options × String) := do
  let (options, rest) ← Options.read place {} arguments
  match rest with
  | ["--", operand] => .ok (options, operand)
  | "--" :: _ | [] => .error .misuse
  | operand :: rest =>
    let (options, rest) ← options.read place rest
    if rest = [] ∨ rest = ["--"] then .ok (options, operand) else .error .misuse

def Invocation.ofArguments (arguments : List String) : Except Stop Invocation := do
  let (before, rest) ← Options.read .beforeCommand {} arguments
  let (place, rest) ← match rest with
    | "replay" :: rest => .ok (.afterReplay, rest)
    | "propagate" :: rest => .ok (.afterPropagate, rest)
    | "help" :: _ => .error .help
    | _ => .error .misuse
  let (after, path) ← readOperand place rest
  if path = "" then .error .misuse
  let options := before.merge after
  return {
    output := options.output.getD .text
    config := options.config
    quiet := options.quiet
    command := if place = .afterReplay then .replay path options.edits else .propagate path }

end SyntaxRecovery.CommandLine
