import Trellis.Traversal

/-!
# Parents and siblings

Every attached node records its parent and its path from there. `stamp` writes both for all nodes
below a root. A neighbour is searched for when it is first asked for, by stepping the recorded
path in node-boundary mode, and then remembered on both sides. `remove` and `replace` keep what
is recorded true without looking at the whole parent again.

These operations run in `Linking`, where a failure keeps the changes made before it.
-/

namespace Trellis

/-- Changes to a tree. A failing run still has a final tree. -/
abbrev Linking := EStateM TreeError Tree

namespace Linking

def ofExcept {α : Type} : Except TreeError α → Linking α
  | .ok a => pure a
  | .error e => throw e

/-- A question about the tree as it stands. -/
def ask {α : Type} (question : Tree → Except TreeError α) : Linking α := do
  ofExcept (question (← get))

/-- Change a node that has to be in the tree. -/
def change (id : NodeId) (f : Node → Node) : Linking Unit := do
  let _ ← ask (·.get id)
  modify (·.update id f)

/-- Edit the value at a path below a node. -/
def edit {α : Type} (operation : Tree → Except TreeError (Edited α)) : Linking α := do
  let done ← ask operation
  set done.tree
  return done.answer

end Linking

/-- The two neighbours of a node. -/
inductive Side where
  | prev
  | next
deriving Repr, DecidableEq

namespace Side

def opposite : Side → Side
  | prev => next
  | next => prev

def direction : Side → Tree.Direction
  | prev => .backward
  | next => .forward

end Side

namespace Node

def link (n : Node) : Side → Link
  | .prev => n.prev
  | .next => n.next

def setLink (n : Node) (side : Side) (l : Link) : Node :=
  match side with
  | .prev => { n with prev := l }
  | .next => { n with next := l }

/-- Write an index into the recorded path of a node, at a depth. -/
def renumber (n : Node) (depth index : Nat) : Node :=
  { n with attachment := n.attachment.map fun a =>
      { a with path := a.path.set depth (.index index) } }

end Node

namespace Value

/-- The nodes held by the entries after `index`, each with the index its entry will have once the
entry at `index` is gone. -/
def shifted (items : List Value) (index : Nat) : List (NodeId × Nat) :=
  (items.zipIdx.drop (index + 1)).flatMap fun (item, position) =>
    (item.heldNodes []).map fun (_, id) => (id, position - 1)

end Value

namespace Tree

/-! ## Ancestors and neighbours -/

def rootOfFrom (t : Tree) : (fuel : Nat) → NodeId → Except TreeError NodeId
  | 0, id => .error (.endless id)
  | fuel + 1, id => do
    match (← t.get id).attachment with
    | none => return id
    | some a => t.rootOfFrom fuel a.parent

/-- The topmost node reached by following recorded parents. -/
def rootOf (t : Tree) (id : NodeId) : Except TreeError NodeId := t.rootOfFrom t.nesting id

def fullPathFrom (t : Tree) : (fuel : Nat) → NodeId → Except TreeError Path
  | 0, id => .error (.endless id)
  | fuel + 1, id => do
    match (← t.get id).attachment with
    | none => return []
    | some a => return (← t.fullPathFrom fuel a.parent) ++ a.path

/-- The path from the topmost node, joined from the recorded paths. -/
def fullPath (t : Tree) (id : NodeId) : Except TreeError Path := t.fullPathFrom t.nesting id

/-- Step from a path below `parent` until a node is found or the parent's fields end. -/
def findSibling (t : Tree) (parent : NodeId) (direction : Direction) :
    (fuel : Nat) → Path → Except TreeError (Option NodeId)
  | 0, _ => .error (.endless parent)
  | fuel + 1, path => do
    match ← t.step (.node parent) path .nodeBoundary direction with
    | none | some [] => return none
    | some next =>
      match ← t.resolve (.node parent) next with
      | .node id => return some id
      | _ => t.findSibling parent direction fuel next

end Tree

namespace Linking

/-! ## Stamping -/

/-- Attach every node below `parent`: first the nodes it holds, in order, then what lies below
each of them, the last one first. Answers how many were attached. -/
def stampBelow : (fuel : Nat) → (parent : NodeId) → Linking Nat
  | 0, parent => throw (.endless parent)
  | fuel + 1, parent => do
    let held ← ask (·.childNodesWithPaths parent)
    held.forM fun (path, child) => change child (·.attach ⟨parent, path⟩)
    held.reverse.foldlM (fun count (_, child) => return count + (← stampBelow fuel child))
      held.length

/-- `stampBelow` with fuel for every chain of nodes in the tree. -/
def stampDescendants (root : NodeId) : Linking Nat := do
  stampBelow (← get).nesting root

/-- Record parents and paths of all nodes below an unattached root and forget all neighbours
there. Answers the number of nodes below. -/
def stamp (root : NodeId) : Linking Nat := do
  let n ← ask (·.get root)
  if n.attachment.isSome then throw (.alreadyAttached root)
  change root Node.detach
  stampDescendants root

/-! ## Siblings -/

/-- The neighbour on one side among the parent's child nodes; `none` at the edge and for an
unattached node. What was searched for is remembered here and at the neighbour. -/
def sibling (id : NodeId) (side : Side) : Linking (Option NodeId) := do
  let n ← ask (·.get id)
  match (n.link side).known?, n.attachment with
  | some known, _ => return known
  | none, none => return none
  | none, some a =>
    let found ← ask fun t => t.findSibling a.parent side.direction (t.extent + 1) a.path
    change id (·.setLink side (.ofOption found))
    if let some other := found then
      change other (·.setLink side.opposite (.to id))
    return found

def prevSibling (id : NodeId) : Linking (Option NodeId) := sibling id .prev

def nextSibling (id : NodeId) : Linking (Option NodeId) := sibling id .next

/-! ## Removing -/

/-- Tell the neighbour that a link leads to, if any, what lies on its side now. -/
def relink (l : Link) (side : Side) (target : Link) : Linking Unit :=
  match l with
  | .to other => change other (·.setLink side target)
  | _ => pure ()

/-- Take a node out of the list or map that holds it. Nodes under later entries of the same list
get their new index, and neighbours that knew the node know each other instead. -/
def remove (id : NodeId) : Linking Unit := do
  match (← ask (·.get id)).attachment with
  | none => throw (.detached id)
  | some ⟨parent, path⟩ =>
    match path.splitLast? with
    | none => throw .emptyPath
    | some (above, last) =>
      let moved := match ← ask (·.resolve (.node parent) above), last with
        | .list items, .index i => Value.shifted items i
        | _, _ => []
      let _ ← edit (·.erase (.node parent) path)
      moved.forM fun (other, index) => change other (·.renumber above.length index)
      let n ← ask (·.get id)
      relink n.prev .next n.next
      relink n.next .prev n.prev
      change id Node.detach

/-! ## Replacing -/

/-- Put `new` in the place of `old`: it takes over the place and the remembered neighbours, and
everything below it is stamped. `old` keeps what lies below it. -/
def replace (old new : NodeId) : Linking Unit := do
  if old = new then throw .selfReplacement
  if (← ask (·.get new)).attachment.isSome then throw (.alreadyAttached new)
  let n ← ask (·.get old)
  match n.attachment with
  | none => throw (.detached old)
  | some ⟨parent, path⟩ =>
    if (← ask (·.rootOf old)) = new then throw (.cyclicReplacement new)
    let _ ← edit (·.assign (.node parent) path (.node new))
    change new fun m =>
      { m with attachment := some ⟨parent, path⟩, prev := n.prev, next := n.next }
    relink n.prev .next (.to new)
    relink n.next .prev (.to new)
    let _ ← stampDescendants new
    change old Node.detach

end Linking

end Trellis
