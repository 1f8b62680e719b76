import Trellis.Command.Arguments

/-!
# Invocations

What a command line asks for: `walk` lists positions of a document, `get` prints the value at one
path, `demo` shows the linkage of a small expression tree. `--json` may stand before or after
the command. Mode and output form fall back to the environment.
-/

namespace Trellis.Command

/-- Where a document comes from. -/
inductive Source where
  | standardInput
  | file (path : String)
deriving Repr, DecidableEq

/-- The path `-` is standard input, also when only slashes and dots that stay in place follow it. -/
def Source.ofArgument (input : String) : Source :=
  match input.toList.splitOn '/' with
  | ['-'] :: rest =>
    if rest.all fun piece => piece.isEmpty || piece == ['.'] then .standardInput else .file input
  | _ => .file input

structure WalkOptions where
  input : String
  start : Option String := none
  back : Bool := false
  limit : Option Nat := none
  mode : Expansion := .unrestricted
deriving Repr, DecidableEq

structure GetOptions where
  input : String
  path : String := ""
deriving Repr, DecidableEq

inductive Task where
  | walk (options : WalkOptions)
  | get (options : GetOptions)
  | demo
deriving Repr, DecidableEq

structure Invocation where
  json : Bool
  task : Task
deriving Repr, DecidableEq

/-- The settings taken from the environment. -/
structure Environment where
  mode : Option String := none
  json : Option Bool := none
deriving Repr, DecidableEq

def topUsage : Usage where
  long := [("json", .json), ("help", .help), ("version", .version)]
  short := [('h', .help), ('V', .version)]
  positional := []

def walkUsage : Usage where
  long := [("json", .json), ("help", .help), ("from", .start), ("back", .back),
    ("limit", .limit), ("mode", .mode)]
  short := [('h', .help), ('f', .start), ('b', .back), ('l', .limit), ('m', .mode)]
  positional := [.input]

def getUsage : Usage where
  long := [("json", .json), ("help", .help)]
  short := [('h', .help)]
  positional := [.input, .path]

def demoUsage : Usage where
  long := [("json", .json), ("help", .help)]
  short := [('h', .help)]
  positional := []

/-- The mode given, else that of the environment, else unrestricted. -/
def chooseMode (given : Option Expansion) (env : Environment) : Except UsageError Expansion :=
  match given, env.mode with
  | some m, _ => .ok m
  | none, none => .ok .unrestricted
  | none, some text =>
    match readMode? text with
    | some m => .ok m
    | none => .error .badValue

def required (input : Option String) : Except UsageError String :=
  match input with
  | some s => .ok s
  | none => .error .missingInput

/-- What `help` answers: its topic is at most one command. -/
def helpOn : List String → UsageError
  | [] => .help
  | [topic] => if topic ∈ ["walk", "get", "demo", "help"] then .help else .unknownCommand
  | _ => .unknownCommand

/-- The command called `name`, with its arguments. `json` says whether the flag came before it. -/
def command? (env : Environment) (json : Bool) (name : String) (args : List String) :
    Option (Except UsageError Invocation) :=
  let chosen (s : Settings) : Bool :=
    json || decide (.json ∈ s.given) || env.json.getD false
  if name = "walk" then some do
    let s ← walkUsage.read args
    let mode ← chooseMode s.mode env
    let input ← required s.input
    return ⟨chosen s, .walk
      { input, start := s.start, back := .back ∈ s.given, limit := s.limit, mode }⟩
  else if name = "get" then some do
    let s ← getUsage.read args
    let input ← required s.input
    return ⟨chosen s, .get { input, path := s.path.getD "" }⟩
  else if name = "demo" then some do
    let s ← demoUsage.read args
    return ⟨chosen s, .demo⟩
  else if name = "help" then some (.error (helpOn args))
  else none

/-- A command line without a command. -/
def noCommand (env : Environment) (r : Reading) : UsageError :=
  if .json ∈ r.settings.given ∨ env.json.isSome then .missingCommand
  else .nothingGiven

/-- Read flags up to the command. -/
def readFrom (env : Environment) (r : Reading) : List String → Except UsageError Invocation
  | [] => .error (noCommand env r)
  | s :: rest =>
    match Form.of s with
    | .separator =>
      match rest with
      | [] => .error (noCommand env r)
      | name :: _ =>
        .error (if (command? env false name []).isSome then .unknownArgument
          else .unknownCommand)
    | .long name value => do
      let r ← r.long topUsage name value
      readFrom env r rest
    | .short letters => do
      let r ← r.short topUsage letters
      readFrom env r rest
    | .plain =>
      match command? env (.json ∈ r.settings.given) s rest with
      | some invocation => invocation
      | none => .error .unknownCommand

/-- What a command line asks for. -/
def Invocation.parse (env : Environment) (args : List String) : Except UsageError Invocation :=
  readFrom env { positional := [] } args

end Trellis.Command
