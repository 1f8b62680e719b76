import Trellis.Tree

/-!
# Children of a value

Lists, maps and nodes are seen through one view: positions from zero up, a key at each position,
and a child under each key. `Tree.expand?` says which values have children: in node-boundary
mode a node is closed, and a node that the tree does not know is a leaf in both modes.
-/

namespace Trellis

/-- Field names side by side with values; the shorter list bounds the view. -/
structure Fields where
  names : List String
  values : List Value
deriving DecidableEq

inductive Children where
  | list (items : List Value)
  | map (entries : Dict Value)
  | fields (view : Fields)
deriving DecidableEq

namespace Children

def shape : Children → String
  | list _ => "list"
  | map _ => "map"
  | fields _ => "node"

def size : Children → Nat
  | list items => items.length
  | map entries => entries.size
  | fields view => min view.names.length view.values.length

def isEmpty (c : Children) : Bool := c.size == 0

/-- Key at a position. -/
def keyAt? (c : Children) (i : Nat) : Option Key :=
  match c with
  | list items => if i < items.length then some (.index i) else none
  | map entries => (entries.entryAt? i).map fun e => .name e.1
  | fields view => if i < c.size then view.names[i]?.map .name else none

/-- Position of a key. A name that occurs twice stands at its first position. -/
def position? (c : Children) (key : Key) : Option Nat :=
  match c, key with
  | list items, .index i => if i < items.length then some i else none
  | map entries, .name n => entries.position? n
  | fields view, .name n => (view.names.idxOf? n).filter (· < view.values.length)
  | _, _ => none

/-- Value at a position. In a fields view this looks at the values only. -/
def valueAt? (c : Children) (i : Nat) : Option Value :=
  match c with
  | list items => items[i]?
  | map entries => (entries.entryAt? i).map (·.2)
  | fields view => view.values[i]?

/-- The child under a key. -/
def child? (c : Children) (key : Key) : Option Value := (c.position? key).bind c.valueAt?

def firstKey? (c : Children) : Option Key := c.keyAt? 0

def lastKey? (c : Children) : Option Key := if c.isEmpty then none else c.keyAt? (c.size - 1)

/-- The key after `key`. -/
def nextKey? (c : Children) (key : Key) : Option Key :=
  (c.position? key).bind fun i => c.keyAt? (i + 1)

/-- The key before `key`. -/
def prevKey? (c : Children) (key : Key) : Option Key :=
  (c.position? key).bind fun
    | 0 => none
    | i + 1 => c.keyAt? i

/-- Keys and children in order. -/
def entries : Children → List (Key × Value)
  | list items => items.zipIdx.map fun (v, i) => (.index i, v)
  | map d => d.entries.map fun (n, v) => (.name n, v)
  | fields view => (view.names.zip view.values).map fun (n, v) => (.name n, v)

end Children

/-- Whether walks enter nodes. -/
inductive Expansion where
  | unrestricted
  | nodeBoundary
deriving Repr, DecidableEq, Inhabited

def Node.children (n : Node) : Children := .fields ⟨n.kind.fields, n.fields⟩

namespace Tree

/-- The children of a value; `none` for a leaf. -/
def expand? (t : Tree) (mode : Expansion) : Value → Option Children
  | .list items => some (.list items)
  | .map entries => some (.map entries)
  | .node id =>
    match mode with
    | .unrestricted => (t.get? id).map Node.children
    | .nodeBoundary => none
  | _ => none

/-- Keys and children of a value in order; none for a leaf. -/
def entries (t : Tree) (mode : Expansion) (v : Value) : List (Key × Value) :=
  match t.expand? mode v with
  | some c => c.entries
  | none => []

end Tree

end Trellis
