import Trellis.Children

/-!
# Reading and editing the value at a path

A root is any value; a node root is a reference to it. `Tree.resolve` follows a path key by key,
and the first key that leads nowhere decides the error. `Tree.assign` and `Tree.erase` write the
one entry that a path names, in a node of the tree or in the root value itself.
-/

namespace Trellis

namespace Tree

/-- One step down from `v`, which stands at `path`. -/
def child (t : Tree) (v : Value) (path : Path) (key : Key) : Except TreeError Value :=
  match t.expand? .unrestricted v with
  | some c =>
    match c.child? key with
    | some w => .ok w
    | none =>
      match c, key with
      | .list items, .index i => .error (.indexOutOfBounds path i items.length)
      | _, _ => .error (.keyNotFound path key)
  | none =>
    match v with
    | .node id => .error (.unknownNode id)
    | _ => .error (.notAContainer path v.typeName)

/-- Follow keys down from `v`, which stands at `path`. -/
def resolveFrom (t : Tree) (v : Value) (path : Path) : List Key → Except TreeError Value
  | [] => .ok v
  | key :: rest => do
    let w ← t.child v path key
    t.resolveFrom w (path ++ [key]) rest

/-- The value at a path below `root`. -/
def resolve (t : Tree) (root : Value) (path : Path) : Except TreeError Value :=
  t.resolveFrom root [] path

end Tree

/-- The error for an entry that a list or map of this length does not have. -/
def missingEntry (path : Path) (key : Key) (length : Nat) : TreeError :=
  match key with
  | .index i => .indexOutOfBounds path i length
  | .name _ => .keyNotFound path key

namespace Value

/-- Change the value that keys lead to through lists and maps, by `f`, which also answers. `path`
is where the value itself stands. -/
def editAt {α : Type} (f : Value → Except TreeError (α × Value)) (v : Value) (path : Path) :
    List Key → Except TreeError (α × Value)
  | [] => f v
  | key :: rest =>
    match v, key with
    | list items, .index i =>
      match items[i]? with
      | some w => do
        let (answer, w') ← editAt f w (path ++ [key]) rest
        return (answer, list (items.set i w'))
      | none => .error (.keyNotFound path key)
    | map entries, .name n =>
      match entries.get? n with
      | some w => do
        let (answer, w') ← editAt f w (path ++ [key]) rest
        return (answer, map (entries.insert n w'))
      | none => .error (.keyNotFound path key)
    | _, _ => .error (.keyNotFound path key)

/-- Write one entry of a list or map standing at `path`, and answer the value it displaced. A new
name is added at the end of a map. -/
def assignEntry (path : Path) (key : Key) (new : Value) :
    Value → Except TreeError (Option Value × Value)
  | list items =>
    match key with
    | .index i =>
      match items[i]? with
      | some old => .ok (some old, list (items.set i new))
      | none => .error (missingEntry path key items.length)
    | .name _ => .error (missingEntry path key items.length)
  | map entries =>
    match key with
    | .name n => let (old, written) := entries.put n new; .ok (old, map written)
    | .index _ => .error (missingEntry path key entries.size)
  | v => .error (.notAContainer path v.typeName)

/-- Take one entry out of a list or map standing at `path`. -/
def eraseEntry (path : Path) (key : Key) : Value → Except TreeError (Value × Value)
  | list items =>
    match key with
    | .index i =>
      match items[i]? with
      | some old => .ok (old, list (items.eraseIdx i))
      | none => .error (missingEntry path key items.length)
    | .name _ => .error (missingEntry path key items.length)
  | map entries =>
    match key.asName?.bind entries.remove? with
    | some (old, kept) => .ok (old, map kept)
    | none => .error (missingEntry path key entries.size)
  | v => .error (.notAContainer path v.typeName)

end Value

namespace Node

/-- Write the field that a key names; the node stands at `path`. -/
def assignField (path : Path) (key : Key) (new : Value) (n : Node) :
    Except TreeError (Option Value × Node) :=
  match n.namedField? key with
  | some (i, old) => .ok (some old, n.setField i new)
  | none => .error (.keyNotFound path key)

end Node

/-- The outcome of an edit: the tree and the root after it, and an answer. A root that is a node
stays as it was, because its fields are in the tree. -/
structure Edited (α : Type) where
  tree : Tree
  root : Value
  answer : α

namespace Tree

/-- The last node on the way to a container: where it stands, and the keys that lead on from it. -/
structure Anchor where
  node : NodeId
  path : Path
  rest : List Key
deriving Repr, DecidableEq

/-- Follow keys down from `v`, which stands at `path`, to the last node on the way. -/
def anchorFrom (t : Tree) (v : Value) (path : Path) :
    List Key → Except TreeError (Option Anchor)
  | [] => .ok (v.asNode?.map fun id => ⟨id, path, []⟩)
  | key :: rest => do
    let w ← t.child v path key
    match ← t.anchorFrom w (path ++ [key]) rest with
    | some anchor => return some anchor
    | none => return v.asNode?.map fun id => ⟨id, path, key :: rest⟩

/-- Edit the container at `path`: `onNode` if it is a node, `onValue` if it is a value inside one
or inside the root. -/
def editContainer {α : Type} (t : Tree) (root : Value) (path : Path)
    (onNode : Node → Except TreeError (α × Node))
    (onValue : Value → Except TreeError (α × Value)) : Except TreeError (Edited α) := do
  match ← t.anchorFrom root [] path with
  | none =>
    let (answer, root') ← root.editAt onValue [] path
    return ⟨t, root', answer⟩
  | some ⟨id, _, []⟩ =>
    let (answer, n) ← onNode (← t.get id)
    return ⟨t.update id fun _ => n, root, answer⟩
  | some ⟨id, above, field :: rest⟩ =>
    let n ← t.get id
    match n.namedField? field with
    | some (i, v) =>
      let (answer, v') ← v.editAt onValue (above ++ [field]) rest
      return ⟨t.update id (·.setField i v'), root, answer⟩
    | none => throw (.keyNotFound above field)

/-- Write `new` at a path. Fields of nodes and entries of lists must exist; a new name is added to
a map. Answers the value displaced. -/
def assign (t : Tree) (root : Value) (path : Path) (new : Value) :
    Except TreeError (Edited (Option Value)) :=
  match path.splitLast? with
  | none => .error .emptyPath
  | some (parent, last) =>
    t.editContainer root parent (Node.assignField parent last new)
      (Value.assignEntry parent last new)

/-- Remove the entry at a path and answer it. Later entries of a list move down by one; the
fields of nodes are fixed. -/
def erase (t : Tree) (root : Value) (path : Path) : Except TreeError (Edited Value) :=
  match path.splitLast? with
  | none => .error .emptyPath
  | some (parent, last) =>
    t.editContainer root parent (fun n => .error (.fixedField n.kind.name last.text))
      (Value.eraseEntry parent last)

end Tree

end Trellis
