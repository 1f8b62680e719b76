import Trellis.Linkage

/-!
# Copies and structural equality

`Linking.copy` gives every node below a node a fresh one of the same shape. `Tree.deepEq` compares
by shape: two nodes are equal when their kinds are and their fields are, whatever their numbers.
Both follow nodes to a depth that `Tree.nesting` bounds when no node lies below itself.
-/

namespace Trellis

namespace Value

mutual

/-- Replace every node of a value by the answer of `f`, from left to right. A map is built anew
by insertion. -/
def replaceNodes {m : Type → Type} [Monad m] (f : NodeId → m NodeId) : Value → m Value
  | node id => return node (← f id)
  | list items => return list (← replaceInItems f items)
  | map ⟨entries⟩ => return map (.ofPairs (← replaceInEntries f entries))
  | null => return null
  | bool b => return bool b
  | int i => return int i
  | text s => return text s

def replaceInItems {m : Type → Type} [Monad m] (f : NodeId → m NodeId) :
    List Value → m (List Value)
  | [] => return []
  | v :: rest => do
    let w ← replaceNodes f v
    return w :: (← replaceInItems f rest)

def replaceInEntries {m : Type → Type} [Monad m] (f : NodeId → m NodeId) :
    List (String × Value) → m (List (String × Value))
  | [] => return []
  | (n, v) :: rest => do
    let w ← replaceNodes f v
    return (n, w) :: (← replaceInEntries f rest)

end

mutual

/-- Equality of values up to a relation between the nodes in them. Containers of different length
are told apart before any node is looked at. -/
def eqUpTo (same : NodeId → NodeId → Bool) : Value → Value → Bool
  | node a, node b => same a b
  | list as, list bs => as.length == bs.length && eqItemsUpTo same as bs
  | map ⟨as⟩, map ⟨bs⟩ => as.length == bs.length && eqEntriesUpTo same as bs
  | null, null => true
  | bool a, bool b => a == b
  | int a, int b => a == b
  | text a, text b => a == b
  | _, _ => false

def eqItemsUpTo (same : NodeId → NodeId → Bool) : List Value → List Value → Bool
  | [], [] => true
  | a :: as, b :: bs => eqUpTo same a b && eqItemsUpTo same as bs
  | _, _ => false

def eqEntriesUpTo (same : NodeId → NodeId → Bool) :
    List (String × Value) → List (String × Value) → Bool
  | [], [] => true
  | (m, a) :: as, (n, b) :: bs => m == n && eqUpTo same a b && eqEntriesUpTo same as bs
  | _, _ => false

end

end Value

namespace Linking

/-- Add a node as an operation on the tree at hand. -/
def addNode (kind : Kind) (fields : List Value) : Linking NodeId := do
  let (id, t) ← ask (·.add kind fields)
  set t
  return id

def copyWithin : (fuel : Nat) → NodeId → Linking NodeId
  | 0, id => throw (.endless id)
  | fuel + 1, id => do
    let n ← ask (·.get id)
    let fields ← Value.replaceInItems (copyWithin fuel) n.fields
    addNode n.kind fields

/-- Copy a node and everything below it into fresh, unlinked nodes; the nodes in its fields are
copied first, from left to right. -/
def copy (id : NodeId) : Linking NodeId := do
  copyWithin (← get).nesting id

end Linking

namespace Tree

def sameShape (t : Tree) : (fuel : Nat) → NodeId → NodeId → Bool
  | 0, a, b => a == b
  | fuel + 1, a, b =>
    a == b ||
      match t.get? a, t.get? b with
      | some m, some n =>
        m.kind == n.kind && Value.eqItemsUpTo (t.sameShape fuel) m.fields n.fields
      | _, _ => false

/-- Equality by shape. A node that the tree does not know equals only itself. -/
def deepEq (t : Tree) (a b : Value) : Bool := Value.eqUpTo (t.sameShape t.nesting) a b

end Tree

end Trellis
