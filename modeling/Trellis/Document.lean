import Trellis.Json
import Trellis.Tree

/-!
# Documents

A JSON document is read as a plain value if all its numbers are 64-bit integers. Going back, a
node is written as an object of its kind and its fields.
-/

namespace Trellis

namespace Json

/-- What is said of a number that a document must not hold. -/
def Number.unsupported (n : Number) : String :=
  "Unsupported number " ++ n.text ++ ": only 64-bit integers are allowed"

mutual

/-- The value of a document; the error is its first number that is no 64-bit integer. -/
def toValue : Json → Except Number Value
  | null => .ok .null
  | bool b => .ok (.bool b)
  | number n =>
    match n.toInt64? with
    | some i => .ok (.int i)
    | none => .error n
  | string s => .ok (.text s)
  | array items => return .list (← toValueItems items)
  | object ⟨members⟩ => return .map (.ofPairs (← toValueMembers members))

def toValueItems : List Json → Except Number (List Value)
  | [] => .ok []
  | j :: rest => do
    let v ← toValue j
    return v :: (← toValueItems rest)

def toValueMembers : List (String × Json) → Except Number (List (String × Value))
  | [] => .ok []
  | (n, j) :: rest => do
    let v ← toValue j
    return (n, v) :: (← toValueMembers rest)

end

end Json

namespace Value

mutual

/-- The document of a value, given the documents of the nodes in it. -/
def toJsonWith (node : NodeId → Json) : Value → Json
  | null => .null
  | bool b => .bool b
  | int i => .ofInt i.toInt
  | text s => .string s
  | list items => .array (toJsonItems node items)
  | map ⟨entries⟩ => .object (.ofPairs (toJsonEntries node entries))
  | .node id => node id

def toJsonItems (node : NodeId → Json) : List Value → List Json
  | [] => []
  | v :: rest => toJsonWith node v :: toJsonItems node rest

def toJsonEntries (node : NodeId → Json) : List (String × Value) → List (String × Json)
  | [] => []
  | (n, v) :: rest => (n, toJsonWith node v) :: toJsonEntries node rest

end

end Value

namespace Tree

/-- The document of a node: its kind, then its fields. A field called `kind` takes the kind's
place. A node that is unknown, or too deep to be reached, is written by its number. -/
def nodeJson (t : Tree) : (fuel : Nat) → NodeId → Json
  | 0, id => .object ⟨[("node", .ofNat id.number)]⟩
  | fuel + 1, id =>
    match t.get? id with
    | some n =>
      .object (.ofPairs
        (("kind", .string n.kind.name) :: Value.toJsonEntries (t.nodeJson fuel) n.namedFields))
    | none => .object ⟨[("node", .ofNat id.number)]⟩

def toJson (t : Tree) (v : Value) : Json := v.toJsonWith (t.nodeJson t.nesting)

end Tree

end Trellis
