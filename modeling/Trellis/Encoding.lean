import Trellis.Json
import Trellis.Path
import Trellis.Value

/-!
# Tagged encoding

The storage form of values, dictionaries, keys and paths in JSON: every alternative is an object
with one member called after it. Decoding keeps repeated names of a dictionary. A record with a
single member may also be given as an array of one element, and unknown members are passed over.
-/

namespace Trellis

namespace Json

/-- A whole number below a bound. -/
def natBelow? (bound : Nat) : Json → Option Nat
  | number (.integer n) => if 0 ≤ n ∧ n < bound then some n.toNat else none
  | _ => none

def string? : Json → Option String
  | string s => some s
  | _ => none

/-- An object with one member. -/
def tagged (tag : String) (body : Json) : Json := object ⟨[(tag, body)]⟩

end Json

namespace NodeId

def decode? (j : Json) : Option NodeId := (j.natBelow? UInt32.size).map NodeId.mk

def encode (id : NodeId) : Json := .ofNat id.number

end NodeId

namespace Value

mutual

def decode? : Json → Option Value
  | .string s => if s = "Null" then some null else none
  | .object ⟨[(tag, body)]⟩ => decodeBody? tag body
  | _ => none

/-- The value of an alternative from its name and its content. -/
def decodeBody? (tag : String) : Json → Option Value
  | .null => if tag = "Null" then some null else none
  | .bool b => if tag = "Bool" then some (bool b) else none
  | .string s => if tag = "Text" then some (text s) else none
  | .number n =>
    if tag = "Int" then n.toInt64?.map int
    else if tag = "Node" then (NodeId.decode? (.number n)).map node
    else none
  | .array items =>
    if tag = "List" then (decodeItems? items).map list
    else if tag = "Map" then
      match items with
      | [pairs] => (decodePairs? pairs).map fun entries => map ⟨entries⟩
      | _ => none
    else none
  | .object ⟨members⟩ =>
    if tag = "Map" then (decodeMembers? members).map fun entries => map ⟨entries⟩ else none

def decodeItems? : List Json → Option (List Value)
  | [] => some []
  | j :: rest => do
    let v ← decode? j
    return v :: (← decodeItems? rest)

/-- The entries of a dictionary given as a record. -/
def decodeMembers? : List (String × Json) → Option (List (String × Value))
  | [] => none
  | (n, j) :: rest => if n = "entries" then decodePairs? j else decodeMembers? rest

/-- The entries of a dictionary given as an array of pairs. -/
def decodePairs? : Json → Option (List (String × Value))
  | .array pairs => decodePairList? pairs
  | _ => none

def decodePairList? : List Json → Option (List (String × Value))
  | [] => some []
  | .array [.string n, j] :: rest => do
    let v ← decode? j
    return (n, v) :: (← decodePairList? rest)
  | _ :: _ => none

end

/-- A dictionary of values: a record, or an array with the one member. -/
def decodeDict? : Json → Option (Dict Value)
  | .object ⟨members⟩ => (decodeMembers? members).map Dict.mk
  | .array [pairs] => (decodePairs? pairs).map Dict.mk
  | _ => none

mutual

def encode : Value → Json
  | null => .string "Null"
  | bool b => .tagged "Bool" (.bool b)
  | int i => .tagged "Int" (.ofInt i.toInt)
  | text s => .tagged "Text" (.string s)
  | list items => .tagged "List" (.array (encodeItems items))
  | map ⟨entries⟩ => .tagged "Map" (.tagged "entries" (.array (encodeEntries entries)))
  | node id => .tagged "Node" id.encode

def encodeItems : List Value → List Json
  | [] => []
  | v :: rest => encode v :: encodeItems rest

def encodeEntries : List (String × Value) → List Json
  | [] => []
  | (n, v) :: rest => .array [.string n, encode v] :: encodeEntries rest

end

def encodeDict (d : Dict Value) : Json := .tagged "entries" (.array (encodeEntries d.entries))

end Value

namespace Key

def decode? : Json → Option Key
  | .object ⟨[(tag, body)]⟩ =>
    if tag = "Index" then (body.natBelow? indexBound).map index
    else if tag = "Name" then body.string?.map name
    else none
  | _ => none

def encode : Key → Json
  | index i => .tagged "Index" (.ofNat i)
  | name n => .tagged "Name" (.string n)

end Key

namespace Path

def decodeKeys? : Json → Option Path
  | .array items => items.mapM Key.decode?
  | _ => none

/-- A path: a record, or an array with the one member. -/
def decode? : Json → Option Path
  | .object members => (members.get? "keys").bind decodeKeys?
  | .array [keys] => decodeKeys? keys
  | _ => none

def encode (p : Path) : Json := .tagged "keys" (.array (p.map Key.encode))

end Path

end Trellis
