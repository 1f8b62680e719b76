import Trellis.Step

/-!
# Listing a tree

Three orders, each given by a cursor that holds what is still to be visited and hands out one
value at a time. Children are visited in their order; the mode decides whether nodes are entered.
A listing is cut off at a limit, since shared nodes can make a small tree list long.
-/

namespace Trellis

/-- The first items that a cursor hands out. -/
def takeFrom {σ α : Type} (next? : σ → Option (α × σ)) : Nat → σ → List α
  | 0, _ => []
  | limit + 1, s =>
    match next? s with
    | none => []
    | some (a, s') => a :: takeFrom next? limit s'

/-- A cursor hands out exactly these items and then ends. -/
inductive Yields {σ α : Type} (next? : σ → Option (α × σ)) : σ → List α → Prop where
  | done {s : σ} : next? s = none → Yields next? s []
  | item {s s' : σ} {a : α} {as : List α} :
    next? s = some (a, s') → Yields next? s' as → Yields next? s (a :: as)

namespace Tree

/-! ## Pre-order -/

/-- Pop a value and put its children in its place. -/
def preorderNext? (t : Tree) (mode : Expansion) : List Value → Option (Value × List Value)
  | [] => none
  | v :: stack => some (v, (t.entries mode v).map (·.2) ++ stack)

/-- Every value before what lies below it. -/
def preorder (t : Tree) (start : Value) (mode : Expansion) (limit : Nat) : List Value :=
  takeFrom (t.preorderNext? mode) limit [start]

/-- `preorderNext?` with the path of every value. -/
def pathsNext? (t : Tree) (mode : Expansion) :
    List (Path × Value) → Option ((Path × Value) × List (Path × Value))
  | [] => none
  | (path, v) :: stack =>
    some ((path, v), (t.entries mode v).map (fun (key, w) => (path ++ [key], w)) ++ stack)

/-- Pre-order with the paths from the start. -/
def preorderWithPaths (t : Tree) (start : Value) (mode : Expansion) (limit : Nat) :
    List (Path × Value) :=
  takeFrom (t.pathsNext? mode) limit [([], start)]

/-! ## Post-order -/

/-- A value on the way down, with those of its children that have not been entered. -/
structure Frame where
  value : Value
  pending : List Value

def frame (t : Tree) (mode : Expansion) (v : Value) : Frame :=
  ⟨v, (t.entries mode v).map (·.2)⟩

/-- Enter pending children until a value has none left; hand that value out. -/
def postorderNext? (t : Tree) (mode : Expansion) :
    (fuel : Nat) → List Frame → Option (Value × List Frame)
  | 0, _ => none
  | _, [] => none
  | fuel + 1, top :: stack =>
    match top.pending with
    | [] => some (top.value, stack)
    | child :: rest =>
      t.postorderNext? mode fuel (t.frame mode child :: { top with pending := rest } :: stack)

/-- Every value after what lies below it. -/
def postorder (t : Tree) (start : Value) (mode : Expansion) (limit : Nat) : List Value :=
  takeFrom (t.postorderNext? mode (t.reach start + 1)) limit [t.frame mode start]

/-! ## Breadth-first -/

/-- Take the value at the front and send its children to the back. -/
def breadthNext? (t : Tree) (mode : Expansion) : List Value → Option (Value × List Value)
  | [] => none
  | v :: queue => some (v, queue ++ (t.entries mode v).map (·.2))

/-- Shallow values before deeper ones. -/
def breadthFirst (t : Tree) (start : Value) (mode : Expansion) (limit : Nat) : List Value :=
  takeFrom (t.breadthNext? mode) limit [start]

/-! ## Nodes only -/

/-- Skip to the next node in pre-order. Plain values on the stack are used up on the way, so
`fuel` is at most their number of positions. -/
def nodeNext? (t : Tree) : (fuel : Nat) → List Value → Option (NodeId × List Value)
  | 0, _ => none
  | fuel + 1, stack =>
    match t.preorderNext? .unrestricted stack with
    | none => none
    | some (.node id, stack') => some (id, stack')
    | some (_, stack') => t.nodeNext? fuel stack'

/-- The nodes below `id` in pre-order, whether their parents are recorded or not. -/
def descendants (t : Tree) (id : NodeId) (limit : Nat) : Except TreeError (List NodeId) := do
  let n ← t.get id
  return takeFrom (fun stack => t.nodeNext? (Value.positionsItems stack + 1) stack) limit
    (n.children.entries.map (·.2))

end Tree

/-! ## Child nodes -/

namespace Value

mutual

/-- The nodes that a value at `path` holds, with their paths, in pre-order. Nodes are not
entered. -/
def heldNodes (path : Path) : Value → List (Path × NodeId)
  | node id => [(path, id)]
  | list items => heldInItems path 0 items
  | map ⟨entries⟩ => heldInEntries path entries
  | _ => []

def heldInItems (path : Path) (i : Nat) : List Value → List (Path × NodeId)
  | [] => []
  | v :: rest => heldNodes (path ++ [.index i]) v ++ heldInItems path (i + 1) rest

def heldInEntries (path : Path) : List (String × Value) → List (Path × NodeId)
  | [] => []
  | (n, v) :: rest => heldNodes (path ++ [.name n]) v ++ heldInEntries path rest

end

end Value

namespace Node

/-- The nodes held by the fields, with their paths from the node, in pre-order. -/
def heldNodes (n : Node) : List (Path × NodeId) := Value.heldInEntries [] n.namedFields

end Node

namespace Tree

/-- The nodes that a node holds directly, with their paths from it. -/
def childNodesWithPaths (t : Tree) (id : NodeId) : Except TreeError (List (Path × NodeId)) :=
  return (← t.get id).heldNodes

/-- The nodes that a node holds directly, in pre-order of its fields. -/
def childNodes (t : Tree) (id : NodeId) : Except TreeError (List NodeId) :=
  return (← t.childNodesWithPaths id).map (·.2)

def firstChild (t : Tree) (id : NodeId) : Except TreeError (Option NodeId) :=
  return (← t.childNodes id).head?

def lastChild (t : Tree) (id : NodeId) : Except TreeError (Option NodeId) :=
  return (← t.childNodes id).getLast?

end Tree

end Trellis
