/-!
# Keys and their text

A key is one step of a path: an index into a list, or a name in a map or among a node's
fields. A name is written bare unless it would be read back as something else; then it stands
in double quotes, with a backslash before each quote and backslash.
-/

namespace Trellis

inductive Key where
  | index (i : Nat)
  | name (n : String)
deriving Repr, DecidableEq, Inhabited

/-- Why a text is no key. -/
inductive KeyFault where
  | unclosedQuote
  | notADigit
  | tooLarge
deriving Repr, DecidableEq

/-- A component of a path text that is no key. -/
structure InvalidComponent where
  component : String
  fault : KeyFault
deriving Repr, DecidableEq

namespace KeyFault

def reason : KeyFault → String
  | unclosedQuote => "quoted names must end at their closing quote"
  | notADigit => "components starting with a digit must be indices (invalid digit found in string)"
  | tooLarge =>
    "components starting with a digit must be indices (number too large to fit in target type)"

end KeyFault

namespace InvalidComponent

def reason (e : InvalidComponent) : String := e.fault.reason

def message (e : InvalidComponent) : String :=
  "Invalid component '" ++ e.component ++ "': " ++ e.reason

end InvalidComponent

namespace Key

def asIndex? : Key → Option Nat
  | index i => some i
  | name _ => none

def asName? : Key → Option String
  | index _ => none
  | name n => some n

def isIndex : Key → Bool
  | index _ => true
  | name _ => false

/-- Indices are the natural numbers below this one. -/
def indexBound : Nat := UInt64.size

/-- A name that is empty, holds a dot, or starts with a digit or a quote. -/
def needsQuotes (cs : List Char) : Bool :=
  match cs with
  | [] => true
  | c :: _ => c.isDigit || c == '"' || cs.contains '.'

/-- A backslash before every quote and backslash. -/
def escape (cs : List Char) : List Char :=
  cs.flatMap fun c => if c = '"' ∨ c = '\\' then ['\\', c] else [c]

/-- The written form of a key. -/
def chars : Key → List Char
  | index i => Nat.toDigits 10 i
  | name n => if needsQuotes n.toList then '"' :: escape n.toList ++ ['"'] else n.toList

def text (k : Key) : String := String.ofList k.chars

/-- Read the rest of a quoted name; its closing quote must be the last character. The
characters read so far come in reverse. -/
def unquote? (read : List Char) : List Char → Option (List Char)
  | [] => none
  | '\\' :: [] => none
  | '\\' :: c :: rest => unquote? (c :: read) rest
  | c :: rest =>
    if c = '"' then (if rest.isEmpty then some read.reverse else none)
    else unquote? (c :: read) rest

/-- Read decimal digits from left to right, below `indexBound`. A character that is not a digit
is reported before the overflow it would take part in. -/
def readIndex (value : Nat) : List Char → Except KeyFault Nat
  | [] => .ok value
  | c :: rest =>
    if c.isDigit then
      let next := value * 10 + (c.toNat - '0'.toNat)
      if next < indexBound then readIndex next rest else .error .tooLarge
    else .error .notADigit

/-- The key that a component denotes. -/
def ofChars (cs : List Char) : Except KeyFault Key :=
  match cs with
  | [] => .ok (name "")
  | c :: rest =>
    if c = '"' then
      match unquote? [] rest with
      | some inner => .ok (name (String.ofList inner))
      | none => .error .unclosedQuote
    else if c.isDigit then (readIndex 0 cs).map index
    else .ok (name (String.ofList cs))

/-- `ofChars` with the component in the error. -/
def ofComponent (cs : List Char) : Except InvalidComponent Key :=
  match ofChars cs with
  | .ok k => .ok k
  | .error fault => .error ⟨String.ofList cs, fault⟩

/-- Read one key from a text, without splitting it at dots. -/
def parse (s : String) : Except InvalidComponent Key := ofComponent s.toList

end Key

end Trellis
