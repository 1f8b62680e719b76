import Trellis.Children

/-!
# Command-line arguments

An option is written `--name`, or `-n` for short; its value follows as the next argument or is
attached, as in `--name=value`, `-nvalue` and `-n=value`. Short flags can be joined. After `--`
every argument is positional. A value is checked when the next known option or positional
argument arrives, or at the end, so an unknown option is reported before an earlier bad value.
-/

namespace Trellis.Command

/-- Why a command line asks for no run: it is wrong, or it asks for help or the version. -/
inductive UsageError where
  /-- An option lacks its value, or the value is not among those allowed. -/
  | badValue
  /-- A limit is no number that fits. -/
  | notANumber
  | unknownArgument
  | missingInput
  | unknownCommand
  | missingCommand
  /-- An argument is given twice. -/
  | repeated
  /-- A flag has a value attached. -/
  | unexpectedValue
  | help
  | version
  /-- Nothing is given at all, neither here nor in the environment. -/
  | nothingGiven
deriving Repr, DecidableEq

/-- Everything that can be given on a command line. -/
inductive Argument where
  | json
  | help
  | version
  | start
  | back
  | limit
  | mode
  | input
  | path
deriving Repr, DecidableEq

def Argument.takesValue : Argument → Bool
  | json | help | version | back => false
  | start | limit | mode | input | path => true

/-- What has been given so far. -/
structure Settings where
  given : List Argument := []
  start : Option String := none
  limit : Option Nat := none
  mode : Option Expansion := none
  input : Option String := none
  path : Option String := none
deriving Repr, DecidableEq

/-- A limit: decimal digits after an optional plus sign, below 2^64. -/
def readLimit? (s : String) : Option Nat :=
  let digits := match s.toList with
    | '+' :: rest => rest
    | cs => cs
  if digits.isEmpty then none
  else
    match Key.readIndex 0 digits with
    | .ok n => some n
    | .error _ => none

def readMode? (s : String) : Option Expansion :=
  if s = "unrestricted" then some .unrestricted
  else if s = "node-boundary" then some .nodeBoundary
  else none

/-- Take an argument with its value, if it has one, into the settings. -/
def Settings.give (s : Settings) (a : Argument) (value : Option String) :
    Except UsageError Settings :=
  if a.takesValue ∧ value.isNone then .error .badValue
  else if a ∈ s.given then .error .repeated
  else
    let s := { s with given := a :: s.given }
    let v := value.getD ""
    match a with
    | .json | .back => .ok s
    | .help => .error .help
    | .version => .error .version
    | .start => .ok { s with start := some v }
    | .path => .ok { s with path := some v }
    | .input => if v.isEmpty then .error .badValue else .ok { s with input := some v }
    | .limit =>
      match readLimit? v with
      | some n => .ok { s with limit := some n }
      | none => .error .notANumber
    | .mode =>
      match readMode? v with
      | some m => .ok { s with mode := some m }
      | none => .error .badValue

/-- The options and positional arguments of one command. -/
structure Usage where
  long : List (String × Argument)
  short : List (Char × Argument)
  positional : List Argument

/-- The state of reading: settings, the last argument if it is not in the settings yet, and the
positional arguments to come. A pending option without a value waits for it. -/
structure Reading where
  settings : Settings := {}
  pending : Option (Argument × Option String) := none
  positional : List Argument
deriving Repr, DecidableEq

namespace Reading

/-- Put the pending argument into the settings. -/
def flush (r : Reading) : Except UsageError Reading :=
  match r.pending with
  | none => .ok r
  | some (a, value) => do
    return { r with settings := ← r.settings.give a value, pending := none }

/-- Take a complete argument. -/
def accept (r : Reading) (a : Argument) (value : Option String) : Except UsageError Reading := do
  let r ← r.flush
  return { r with settings := ← r.settings.give a value }

/-- Take an argument that is checked later. -/
def postpone (r : Reading) (a : Argument) (value : Option String) : Except UsageError Reading := do
  let r ← r.flush
  return { r with pending := some (a, value) }

/-- `--name` or `--name=value`. -/
def long (r : Reading) (usage : Usage) (name : String) (value : Option String) :
    Except UsageError Reading :=
  match usage.long.lookup name with
  | none => .error .unknownArgument
  | some a =>
    match a.takesValue, value with
    | true, some v => r.accept a (some v)
    | true, none => r.postpone a none
    | false, some _ => .error .unexpectedValue
    | false, none => r.accept a none

/-- The letters after a single dash. The first option with a value takes what is left. -/
def short (r : Reading) (usage : Usage) : List Char → Except UsageError Reading
  | [] => .ok r
  | c :: rest =>
    match usage.short.lookup c with
    | none => .error .unknownArgument
    | some a =>
      if a.takesValue then
        match rest with
        | [] => r.postpone a none
        | '=' :: value => r.accept a (some (String.ofList value))
        | value => r.accept a (some (String.ofList value))
      else do
        let r ← r.accept a none
        r.short usage rest

/-- An argument that is no option and no value of one. -/
def plain (r : Reading) (s : String) : Except UsageError Reading :=
  match r.positional with
  | [] => .error .unknownArgument
  | a :: rest => return { ← r.postpone a (some s) with positional := rest }

/-- Positional arguments only. -/
def trailing (r : Reading) : List String → Except UsageError Reading
  | [] => .ok r
  | s :: rest => do
    let r ← r.plain s
    r.trailing rest

end Reading

/-- How an argument looks before it is known what it is for. -/
inductive Form where
  | separator
  | long (name : String) (value : Option String)
  | short (letters : List Char)
  | plain
deriving Repr, DecidableEq

def Form.of (s : String) : Form :=
  match s.toList with
  | ['-', '-'] => .separator
  | '-' :: '-' :: rest =>
    match rest.span (· ≠ '=') with
    | (name, []) => .long (String.ofList name) none
    | (name, _ :: value) => .long (String.ofList name) (some (String.ofList value))
  | ['-'] => .plain
  | '-' :: letters => .short letters
  | _ => .plain

/-- Read the arguments of one command. -/
def Reading.all (r : Reading) (usage : Usage) : List String → Except UsageError Reading
  | [] => .ok r
  | s :: rest =>
    match Form.of s with
    | .separator => r.trailing rest
    | .long name value => do
      let r ← r.long usage name value
      r.all usage rest
    | .short letters => do
      let r ← r.short usage letters
      r.all usage rest
    | .plain =>
      match r.pending with
      | some (a, none) => { r with pending := some (a, some s) }.all usage rest
      | _ => do
        let r ← r.plain s
        r.all usage rest

/-- The settings that a list of arguments makes. -/
def Usage.read (usage : Usage) (args : List String) : Except UsageError Settings := do
  let start : Reading := { positional := usage.positional }
  let r ← start.all usage args
  return (← r.flush).settings

end Trellis.Command
