import SyntaxRecovery.CommandLine.Run

/-! The program. -/
namespace SyntaxRecovery.CommandLine

/-- The files that may be read. -/
def Invocation.paths (invocation : Invocation) : List String :=
  invocation.config.toList ++
    match invocation.command with
    | .replay source edits => source :: edits.toList
    | .propagate session => [session]

def runProgram (arguments : List String) : IO UInt32 := do
  let paths := match Invocation.ofArguments arguments with
    | .ok invocation => invocation.paths
    | .error _ => []
  let contents ← paths.filterMapM fun (path : String) => do
    try pure (some (path, ← IO.FS.readBinFile path))
    catch _ => pure none
  let outcome := run (contents.lookup ·) arguments
  IO.print outcome.output
  if outcome = .stopped .misuse then IO.eprint usage
  if outcome.report ≠ "" then IO.eprintln outcome.report
  return outcome.code.toUInt32

end SyntaxRecovery.CommandLine

def main (arguments : List String) : IO UInt32 :=
  SyntaxRecovery.CommandLine.runProgram arguments
