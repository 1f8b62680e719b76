import Trellis.Dict
import Trellis.Decimal

/-!
# JSON

Documents with their member order. Whole numbers between -2^63 and 2^64 are kept exactly; every
other number is a double. Text is written compactly or indented by two blanks; only quotes,
backslashes and control characters are escaped.
-/

namespace Trellis

namespace Json

inductive Number where
  | integer (n : Int)
  | real (x : Float)
deriving Inhabited

/-- The 64-bit integer that a number is, if it is one. -/
def Number.toInt64? : Number → Option Int64
  | integer n =>
    if Int64.minValue.toInt ≤ n ∧ n ≤ Int64.maxValue.toInt then some (Int64.ofInt n) else none
  | real _ => none

/-- Doubles are positional from 1e-5 up to, but not including, 1e16. -/
def style : Decimal.Style := ⟨-5, 15⟩

def Number.text : Number → String
  | integer n => toString n
  | real x => Decimal.ofFloat style x

end Json

inductive Json where
  | null
  | bool (b : Bool)
  | number (n : Json.Number)
  | string (s : String)
  | array (items : List Json)
  | object (members : Dict Json)
deriving Inhabited

namespace Json

def ofInt (n : Int) : Json := number (.integer n)

def ofNat (n : Nat) : Json := ofInt n

/-- The escaped form of a character inside a string. -/
def escape (c : Char) : List Char :=
  if c = '"' then ['\\', '"']
  else if c = '\\' then ['\\', '\\']
  else if c = '\x08' then ['\\', 'b']
  else if c = '\t' then ['\\', 't']
  else if c = '\n' then ['\\', 'n']
  else if c = '\x0c' then ['\\', 'f']
  else if c = '\r' then ['\\', 'r']
  else if c.toNat < 0x20 then
    ['\\', 'u', '0', '0', Nat.digitChar (c.toNat / 16), Nat.digitChar (c.toNat % 16)]
  else [c]

def quote (s : String) : String :=
  String.ofList ('"' :: s.toList.flatMap escape ++ ['"'])

mutual

/-- Text without blanks. -/
def compact : Json → String
  | null => "null"
  | bool b => if b then "true" else "false"
  | number n => n.text
  | string s => quote s
  | array items => "[" ++ ",".intercalate (compactItems items) ++ "]"
  | object ⟨members⟩ => "\x7b" ++ ",".intercalate (compactMembers members) ++ "\x7d"

def compactItems : List Json → List String
  | [] => []
  | j :: rest => compact j :: compactItems rest

def compactMembers : List (String × Json) → List String
  | [] => []
  | (n, j) :: rest => (quote n ++ ":" ++ compact j) :: compactMembers rest

end

/-- Lines of a container between its brackets, indented one level deeper than `margin`. -/
def enclose (margin opening closing : String) (lines : List String) : String :=
  if lines.isEmpty then opening ++ closing
  else
    let inner := "\n" ++ margin ++ "  "
    opening ++ inner ++ ("," ++ inner).intercalate lines ++ "\n" ++ margin ++ closing

mutual

/-- Text on several lines, the first of which stands after `margin`. -/
def prettyFrom (margin : String) : Json → String
  | array items => enclose margin "[" "]" (prettyItems (margin ++ "  ") items)
  | object ⟨members⟩ => enclose margin "\x7b" "\x7d" (prettyMembers (margin ++ "  ") members)
  | null => "null"
  | bool b => if b then "true" else "false"
  | number n => n.text
  | string s => quote s

def prettyItems (margin : String) : List Json → List String
  | [] => []
  | j :: rest => prettyFrom margin j :: prettyItems margin rest

def prettyMembers (margin : String) : List (String × Json) → List String
  | [] => []
  | (n, j) :: rest => (quote n ++ ": " ++ prettyFrom margin j) :: prettyMembers margin rest

end

/-- Text on several lines, indented by two blanks. -/
def pretty (j : Json) : String := prettyFrom "" j

end Json

end Trellis
