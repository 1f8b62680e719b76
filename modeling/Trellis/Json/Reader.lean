import Trellis.Json

/-!
# Reading JSON text

A reader takes characters from the front of a text and gives back the rest. Containers may be
nested 127 deep. A repeated member name keeps its first place and its last value.

A number with a point or an exponent, a whole number outside 64 bits, and minus zero are read as
doubles: as many digits as fit into 64 bits make an integer, which is then multiplied or divided
by a power of ten. The result can miss the nearest double by a little.
-/

namespace Trellis.Json

/-! ## Numbers -/

def digitValue (c : Char) : Nat := c.toNat - '0'.toNat

/-- Digits before the point: the integer they make, and how many were left out because it would
not fit. -/
def wholeDigits (value : Nat) : List Char → Nat × Nat
  | [] => (value, 0)
  | c :: rest =>
    let next := value * 10 + digitValue c
    if next < UInt64.size then wholeDigits next rest else (value, rest.length + 1)

/-- Digits after the point: the integer they lead to, and how many were used. -/
def fractionDigits (value used : Nat) : List Char → Nat × Nat
  | [] => (value, used)
  | c :: rest =>
    let next := value * 10 + digitValue c
    if next < UInt64.size then fractionDigits next (used + 1) rest else (value, used)

/-- The double nearest to a power of ten. -/
def powerOfTen (n : Nat) : Float := Float.ofScientific 1 false n

/-- The greatest exponent whose power of ten is a finite double. -/
def greatestPower : Nat := 308

/-- Divide by `10 ^ exponent` in steps. Three steps bring every 64-bit integer down to zero. -/
def divideByPower : (fuel : Nat) → (x : Float) → (exponent : Nat) → Float
  | 0, x, _ => x
  | fuel + 1, x, exponent =>
    if exponent ≤ greatestPower then x / powerOfTen exponent
    else divideByPower fuel (x / powerOfTen greatestPower) (exponent - greatestPower)

/-- The double `significand · 10 ^ exponent`; `none` if it is out of range. -/
def scale? (significand : Nat) (exponent : Int) : Option Float :=
  let x := significand.toUInt64.toFloat
  if exponent < 0 then some (divideByPower 4 x exponent.natAbs)
  else if significand = 0 then some x
  else if exponent.toNat ≤ greatestPower then
    let y := x * powerOfTen exponent.toNat
    if y.isInf then none else some y
  else none

/-- The greatest exponent that may be written; beyond it a number is zero or out of range. -/
def greatestExponent : Nat := 2147483647

/-- The number written with these digits, after an optional sign. -/
def numberOf? (negative : Bool) (whole : List Char) (fraction : Option (List Char))
    (exponent : Option (Bool × List Char)) : Option Number :=
  let (integer, dropped) := wholeDigits 0 whole
  let sign (x : Float) : Number := .real (if negative then -x else x)
  if fraction.isNone ∧ exponent.isNone ∧ dropped = 0 then
    if !negative then some (.integer integer)
    else if integer = 0 ∨ -(integer : Int) < Int64.minValue.toInt then some (sign integer.toUInt64.toFloat)
    else some (.integer (-integer))
  else
    let (significand, used) := fractionDigits integer 0 (fraction.getD [])
    let shift : Int := Int.ofNat dropped - Int.ofNat used
    match exponent with
    | none => (scale? significand shift).map sign
    | some (down, digits) =>
      let size := digits.foldl (fun n c => n * 10 + digitValue c) 0
      if greatestExponent < size then
        if significand ≠ 0 ∧ !down then none else some (sign 0.0)
      else (scale? significand (if down then shift - size else shift + size)).map sign

/-- The fraction at the front of a text, if it starts with a point. -/
def readFraction? : List Char → Option (Option (List Char) × List Char)
  | '.' :: rest =>
    match rest.span Char.isDigit with
    | ([], _) => none
    | (digits, rest) => some (some digits, rest)
  | rest => some (none, rest)

/-- The exponent at the front of a text, if it starts with an `e`: whether it is negative, and
its digits. -/
def readExponent? (text : List Char) : Option (Option (Bool × List Char) × List Char) :=
  match text with
  | c :: rest =>
    if c = 'e' ∨ c = 'E' then
      let (down, rest) := match rest with
        | '-' :: rest => (true, rest)
        | '+' :: rest => (false, rest)
        | rest => (false, rest)
      match rest.span Char.isDigit with
      | ([], _) => none
      | (digits, rest) => some (some (down, digits), rest)
    else some (none, text)
  | [] => some (none, [])

def readNumber? (text : List Char) : Option (Number × List Char) := do
  let (negative, rest) := match text with
    | '-' :: rest => (true, rest)
    | rest => (false, rest)
  let (whole, rest) := rest.span Char.isDigit
  if whole.isEmpty ∨ (whole.head? = some '0' ∧ 1 < whole.length) then none
  let (fraction, rest) ← readFraction? rest
  let (exponent, rest) ← readExponent? rest
  return (← numberOf? negative whole fraction exponent, rest)

/-! ## Strings -/

def hexValue? (c : Char) : Option Nat :=
  if c.isDigit then some (digitValue c)
  else if 'a' ≤ c ∧ c ≤ 'f' then some (c.toNat - 'a'.toNat + 10)
  else if 'A' ≤ c ∧ c ≤ 'F' then some (c.toNat - 'A'.toNat + 10)
  else none

/-- Four hexadecimal digits. -/
def readUnit? : List Char → Option (Nat × List Char)
  | a :: b :: c :: d :: rest => do
    let digits ← [a, b, c, d].mapM hexValue?
    return (digits.foldl (fun n h => n * 16 + h) 0, rest)
  | _ => none

/-- The character after `\u`: one unit, or two that make a surrogate pair. -/
def readCodePoint? (text : List Char) : Option (Char × List Char) := do
  let (unit, rest) ← readUnit? text
  if 0xD800 ≤ unit ∧ unit < 0xDC00 then
    match rest with
    | '\\' :: 'u' :: rest =>
      let (low, rest) ← readUnit? rest
      if 0xDC00 ≤ low ∧ low < 0xE000 then
        return (Char.ofNat (0x10000 + (unit - 0xD800) * 0x400 + (low - 0xDC00)), rest)
      else none
    | _ => none
  else if 0xDC00 ≤ unit ∧ unit < 0xE000 then none
  else return (Char.ofNat unit, rest)

/-- The character after a backslash. -/
def readEscape? : List Char → Option (Char × List Char)
  | '"' :: rest => some ('"', rest)
  | '\\' :: rest => some ('\\', rest)
  | '/' :: rest => some ('/', rest)
  | 'b' :: rest => some ('\x08', rest)
  | 'f' :: rest => some ('\x0c', rest)
  | 'n' :: rest => some ('\n', rest)
  | 'r' :: rest => some ('\r', rest)
  | 't' :: rest => some ('\t', rest)
  | 'u' :: rest => readCodePoint? rest
  | _ => none

/-- The rest of a string after its opening quote. The characters read so far come in reverse. -/
def readString? : (fuel : Nat) → (read : List Char) → List Char → Option (String × List Char)
  | 0, _, _ => none
  | _, _, [] => none
  | fuel + 1, read, c :: rest =>
    if c = '"' then some (String.ofList read.reverse, rest)
    else if c = '\\' then
      match readEscape? rest with
      | some (d, rest) => readString? fuel (d :: read) rest
      | none => none
    else if c.toNat < 0x20 then none
    else readString? fuel (c :: read) rest

/-! ## Values -/

def isBlank (c : Char) : Bool := c = ' ' || c = '\t' || c = '\n' || c = '\r'

def skipBlanks (text : List Char) : List Char := text.dropWhile isBlank

/-- Take a given word off the front of a text. -/
def readWord? (word : String) (result : Json) (text : List Char) : Option (Json × List Char) :=
  if word.toList.isPrefixOf text then some (result, text.drop word.length) else none

/-- A value that is no container. `fuel` bounds the characters of a string. -/
def readLeaf? (fuel : Nat) (text : List Char) : Option (Json × List Char) :=
  match text with
  | '"' :: rest => (readString? fuel [] rest).map fun (s, rest) => (string s, rest)
  | 'n' :: _ => readWord? "null" null text
  | 't' :: _ => readWord? "true" (bool true) text
  | 'f' :: _ => readWord? "false" (bool false) text
  | _ => (readNumber? text).map fun (n, rest) => (number n, rest)

/-- Items up to the closing bracket. The items read so far come in reverse. -/
def readItems? (item : List Char → Option (Json × List Char)) :
    (fuel : Nat) → (read : List Json) → List Char → Option (List Json × List Char)
  | 0, _, _ => none
  | fuel + 1, read, text =>
    match item text with
    | none => none
    | some (j, rest) =>
      match skipBlanks rest with
      | ',' :: rest => readItems? item fuel (j :: read) rest
      | ']' :: rest => some ((j :: read).reverse, rest)
      | _ => none

/-- A name, a colon and a value. -/
def readMember? (item : List Char → Option (Json × List Char)) (fuel : Nat) (text : List Char) :
    Option ((String × Json) × List Char) := do
  match skipBlanks text with
  | '"' :: rest =>
    let (name, rest) ← readString? fuel [] rest
    match skipBlanks rest with
    | ':' :: rest =>
      let (j, rest) ← item rest
      return ((name, j), rest)
    | _ => none
  | _ => none

/-- Members up to the closing brace. The members read so far come in reverse. -/
def readMembers? (item : List Char → Option (Json × List Char)) (length : Nat) :
    (fuel : Nat) → (read : List (String × Json)) → List Char →
      Option (List (String × Json) × List Char)
  | 0, _, _ => none
  | fuel + 1, read, text =>
    match readMember? item length text with
    | none => none
    | some (member, rest) =>
      match skipBlanks rest with
      | ',' :: rest => readMembers? item length fuel (member :: read) rest
      | '\x7d' :: rest => some ((member :: read).reverse, rest)
      | _ => none

/-- A value with containers nested at most `depth` deep, from a text of at most `length`
characters. -/
def readValue? (length : Nat) : (depth : Nat) → List Char → Option (Json × List Char)
  | 0, text => readLeaf? length (skipBlanks text)
  | depth + 1, text =>
    match skipBlanks text with
    | '[' :: rest =>
      match skipBlanks rest with
      | ']' :: rest => some (array [], rest)
      | rest =>
        (readItems? (readValue? length depth) length [] rest).map fun (items, rest) =>
          (array items, rest)
    | '\x7b' :: rest =>
      match skipBlanks rest with
      | '\x7d' :: rest => some (object .empty, rest)
      | rest =>
        (readMembers? (readValue? length depth) length length [] rest).map
          fun (members, rest) => (object (.ofPairs members), rest)
    | rest => readLeaf? length rest

/-- Containers may be nested this deep. -/
def depthLimit : Nat := 127

/-- The document that a text holds, with nothing but blanks around it. -/
def parse? (s : String) : Option Json :=
  let text := s.toList
  match readValue? (text.length + 1) depthLimit text with
  | some (j, rest) => if (skipBlanks rest).isEmpty then some j else none
  | none => none

end Trellis.Json
