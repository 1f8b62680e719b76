import Trellis.Command.Run

/-!
# The program

Arguments, environment and input go in, text comes out. Everything in between is
`Command.Invocation.parse` and `Command.Invocation.run`.
-/

namespace Trellis.Command

/-- One line on why a command line is refused or answered without a run. -/
def UsageError.message : UsageError → String
  | .badValue => "a value is missing or not one of the values allowed"
  | .notANumber => "a value is not a number"
  | .unknownArgument => "unexpected argument"
  | .missingInput => "the input is missing"
  | .unknownCommand => "unrecognized command"
  | .missingCommand => "a command is missing"
  | .repeated => "an argument is given twice"
  | .unexpectedValue => "a flag takes no value"
  | .help | .nothingGiven =>
    "usage: [--json] walk INPUT [--from PATH] [--back] [--limit N] [--mode MODE]\n" ++
    "       [--json] get INPUT [PATH]\n" ++
    "       [--json] demo"
  | .version => "arbor 0.1.0"

def Failure.message : Failure → String
  | .unreadable => "the input cannot be read"
  | .notJson => "the input is not JSON"
  | .unsupported n => n.unsupported
  | .badPath e => e.message
  | .tree e => e.message
  | .tooWide => "a column is too wide"

/-- The source that a task reads. -/
def Task.source? : Task → Option Source
  | .walk options => some (.ofArgument options.input)
  | .get options => some (.ofArgument options.input)
  | .demo => none

/-- The text of a source, if it can be read. -/
def Source.read (source : Source) : IO (Option String) := do
  try
    match source with
    | .standardInput => return some (← (← IO.getStdin).readToEnd)
    | .file path => return some (← IO.FS.readFile path)
  catch _ => return none

def environment : IO Environment := do
  let mode ← IO.getEnv "ARBOR_MODE"
  let json ← IO.getEnv "ARBOR_JSON"
  return { mode, json := json.map (· = "true") }

end Trellis.Command

open Trellis.Command in
def main (args : List String) : IO UInt32 := do
  match Invocation.parse (← environment) args with
  | .error e =>
    match e with
    | .help | .version =>
      IO.println e.message
      return 0
    | _ =>
      IO.eprintln e.message
      return 2
  | .ok invocation =>
    let text ← match invocation.task.source? with
      | some source => source.read
      | none => pure none
    match invocation.run fun _ => text with
    | .ok output =>
      IO.print output
      return 0
    | .error e =>
      IO.eprintln ("Error: " ++ e.message)
      return 1
