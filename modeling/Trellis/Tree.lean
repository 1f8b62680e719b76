import Trellis.Error

/-!
# Trees

A tree is an arena of nodes. A node has a kind, which declares its fields, one value for each of
them, and its linkage: the place it is attached at, and what is known of its two neighbours. The
arena only grows; detached nodes stay in it.
-/

namespace Trellis

/-- The sort of a node: a name and the names of its fields in order. -/
structure Kind where
  name : String
  fields : List String
deriving Repr, DecidableEq, Inhabited

/-- What a node knows of a neighbour: nothing yet, that there is none, or which one. -/
inductive Link where
  | unknown
  | absent
  | to (id : NodeId)
deriving Repr, DecidableEq, Inhabited

namespace Link

def ofOption : Option NodeId → Link
  | some id => .to id
  | none => .absent

/-- The remembered answer, if there is one. -/
def known? : Link → Option (Option NodeId)
  | unknown => none
  | absent => some none
  | .to id => some (some id)

end Link

/-- Where a node is held: the node whose fields hold it, and the path from there. -/
structure Attachment where
  parent : NodeId
  path : Path
deriving Repr, DecidableEq

structure Node where
  kind : Kind
  fields : List Value
  arity : fields.length = kind.fields.length
  attachment : Option Attachment := none
  prev : Link := .unknown
  next : Link := .unknown
deriving DecidableEq

namespace Node

def parent? (n : Node) : Option NodeId := n.attachment.map (·.parent)

def parentPath? (n : Node) : Option Path := n.attachment.map (·.path)

/-- Fields with their names, in order. -/
def namedFields (n : Node) : List (String × Value) := n.kind.fields.zip n.fields

/-- Position of the field that a key names. -/
def fieldPosition? (n : Node) (key : Key) : Option Nat :=
  key.asName?.bind fun name => n.kind.fields.idxOf? name

/-- Position and value of the field that a key names. -/
def namedField? (n : Node) (key : Key) : Option (Nat × Value) :=
  (n.fieldPosition? key).bind fun i => n.fields[i]?.map (i, ·)

/-- Write the field at a position. -/
def setField (n : Node) (i : Nat) (v : Value) : Node :=
  { n with fields := n.fields.set i v, arity := by simp [n.arity] }

def resetLinks (n : Node) : Node := { n with prev := .unknown, next := .unknown }

/-- Forget the place of a node and its neighbours. -/
def detach (n : Node) : Node := { n.resetLinks with attachment := none }

/-- Record the place of a node and forget its neighbours. -/
def attach (n : Node) (a : Attachment) : Node := { n.resetLinks with attachment := some a }

/-- Positions in the field values, the node itself included. -/
def positions (n : Node) : Nat := 1 + Value.positionsItems n.fields

end Node

structure Tree where
  nodes : Array Node := #[]
deriving DecidableEq

namespace Tree

def empty : Tree := {}

/-- Number of nodes ever added, detached ones included. -/
def size (t : Tree) : Nat := t.nodes.size

def isEmpty (t : Tree) : Bool := t.nodes.isEmpty

def contains (t : Tree) (id : NodeId) : Bool := id.number < t.size

def get? (t : Tree) (id : NodeId) : Option Node := t.nodes[id.number]?

def get (t : Tree) (id : NodeId) : Except TreeError Node :=
  match t.get? id with
  | some n => .ok n
  | none => .error (.unknownNode id)

/-- Change one node; an unknown one changes nothing. -/
def update (t : Tree) (id : NodeId) (f : Node → Node) : Tree := ⟨t.nodes.modify id.number f⟩

/-- An arena holds fewer nodes than there are node numbers. -/
def capacity : Nat := UInt32.size - 1

/-- Add an unlinked node with one value for each field of its kind. -/
def add (t : Tree) (kind : Kind) (fields : List Value) : Except TreeError (NodeId × Tree) :=
  if arity : fields.length = kind.fields.length then
    if t.size < capacity then .ok (⟨t.size⟩, ⟨t.nodes.push { kind, fields, arity }⟩)
    else .error (.arenaFull capacity)
  else .error (.arityMismatch kind.name kind.fields.length fields.length)

/-- Position and value of a named field. -/
def fieldEntry (t : Tree) (id : NodeId) (name : String) : Except TreeError (Nat × Value) := do
  match (← t.get id).namedField? (.name name) with
  | some entry => return entry
  | none => throw (.keyNotFound [] (.name name))

/-- Value of a named field. -/
def field (t : Tree) (id : NodeId) (name : String) : Except TreeError Value :=
  (t.fieldEntry id name).map (·.2)

/-- Change a named field by `f`, which also answers. Linkage is left alone: moving nodes
in or out this way asks for a fresh stamp. -/
def modifyField {α : Type} (t : Tree) (id : NodeId) (name : String) (f : Value → α × Value) :
    Except TreeError (α × Tree) := do
  let (i, old) ← t.fieldEntry id name
  let (answer, new) := f old
  pure (answer, t.update id (·.setField i new))

/-- Positions in the fields of all nodes. -/
def extent (t : Tree) : Nat := t.nodes.foldl (fun total n => total + n.positions) 0

/-- A chain of nodes, each held by the one before, is shorter than this if no node lies below
itself. -/
def nesting (t : Tree) : Nat := t.size + 1

end Tree

end Trellis
