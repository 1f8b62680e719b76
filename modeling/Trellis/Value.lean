import Trellis.Dict

/-!
# Values

Values are the plain data of a tree: leaves, lists, maps, and references to nodes. A node is
referred to by its number in the arena; the number may be unknown there.
-/

namespace Trellis

structure NodeId where
  number : Nat
deriving Repr, DecidableEq, Inhabited

namespace NodeId

def text (id : NodeId) : String := "#" ++ toString id.number

end NodeId

inductive Value where
  | null
  | bool (b : Bool)
  | int (i : Int64)
  | text (s : String)
  | list (items : List Value)
  | map (entries : Dict Value)
  | node (id : NodeId)
deriving Inhabited

namespace Value

/-! ## Equality -/

mutual

/-- Equality of values: nodes by number, maps with their order. -/
def beq : Value → Value → Bool
  | null, null => true
  | bool a, bool b => a == b
  | int a, int b => a == b
  | text a, text b => a == b
  | list as, list bs => beqItems as bs
  | map ⟨as⟩, map ⟨bs⟩ => beqEntries as bs
  | node a, node b => a == b
  | _, _ => false

def beqItems : List Value → List Value → Bool
  | [], [] => true
  | a :: as, b :: bs => beq a b && beqItems as bs
  | _, _ => false

def beqEntries : List (String × Value) → List (String × Value) → Bool
  | [], [] => true
  | (m, a) :: as, (n, b) :: bs => m == n && beq a b && beqEntries as bs
  | _, _ => false

end

mutual

theorem beq_iff : ∀ a b : Value, beq a b = true ↔ a = b
  | null, b => by cases b <;> simp [beq]
  | bool _, b => by cases b <;> simp [beq]
  | int _, b => by cases b <;> simp [beq]
  | text _, b => by cases b <;> simp [beq]
  | list as, b => by cases b <;> simp [beq, beqItems_iff as]
  | map ⟨as⟩, b => by
    cases b with
    | map bs => cases bs; simp [beq, beqEntries_iff as]
    | _ => simp [beq]
  | node _, b => by cases b <;> simp [beq]

theorem beqItems_iff : ∀ as bs : List Value, beqItems as bs = true ↔ as = bs
  | [], bs => by cases bs <;> simp [beqItems]
  | a :: as, bs => by cases bs <;> simp [beqItems, beq_iff a, beqItems_iff as]

theorem beqEntries_iff : ∀ as bs : List (String × Value), beqEntries as bs = true ↔ as = bs
  | [], bs => by cases bs <;> simp [beqEntries]
  | (_, a) :: as, bs => by
    cases bs <;> simp [beqEntries, beq_iff a, beqEntries_iff as, Prod.ext_iff, and_assoc]

end

instance : DecidableEq Value := fun a b => decidable_of_iff _ (beq_iff a b)

/-! ## Classification -/

def typeName : Value → String
  | null => "null"
  | bool _ => "bool"
  | int _ => "int"
  | text _ => "text"
  | list _ => "list"
  | map _ => "map"
  | node _ => "node"

def isLeaf : Value → Bool
  | list _ | map _ | node _ => false
  | _ => true

def isBranch : Value → Bool
  | list _ | map _ => true
  | _ => false

def isNull : Value → Bool
  | null => true
  | _ => false

def asBool? : Value → Option Bool
  | bool b => some b
  | _ => none

def asInt? : Value → Option Int64
  | int i => some i
  | _ => none

def asText? : Value → Option String
  | text s => some s
  | _ => none

def asList? : Value → Option (List Value)
  | list items => some items
  | _ => none

def asMap? : Value → Option (Dict Value)
  | map entries => some entries
  | _ => none

def asNode? : Value → Option NodeId
  | node id => some id
  | _ => none

/-! ## Conversion -/

/-- A value of another type than the one asked for. -/
structure TypeMismatch where
  expected : String
  actual : String
deriving Repr, DecidableEq

def TypeMismatch.message (e : TypeMismatch) : String :=
  "type mismatch: expected " ++ e.expected ++ ", found " ++ e.actual

/-- The outcome of a projection, or the mismatch it ran into. -/
def expect {α : Type} (expected : String) (project : Value → Option α) (v : Value) :
    Except TypeMismatch α :=
  match project v with
  | some a => .ok a
  | none => .error ⟨expected, v.typeName⟩

def toBool (v : Value) : Except TypeMismatch Bool := v.expect "bool" asBool?

def toInt (v : Value) : Except TypeMismatch Int64 := v.expect "int" asInt?

def toText (v : Value) : Except TypeMismatch String := v.expect "text" asText?

def toNode (v : Value) : Except TypeMismatch NodeId := v.expect "node" asNode?

/-- A missing value is null. -/
def ofOption {α : Type} (make : α → Value) : Option α → Value
  | some a => make a
  | none => null

/-! ## Text -/

mutual

/-- The text of a value: leaves as they are, lists in brackets, maps in braces. -/
def render : Value → String
  | null => "null"
  | bool b => if b then "true" else "false"
  | int i => toString i.toInt
  | text s => s
  | list items => "[" ++ ", ".intercalate (renderItems items) ++ "]"
  | map ⟨entries⟩ => "\x7b" ++ ", ".intercalate (renderEntries entries) ++ "\x7d"
  | node id => id.text

def renderItems : List Value → List String
  | [] => []
  | v :: rest => render v :: renderItems rest

def renderEntries : List (String × Value) → List String
  | [] => []
  | (n, v) :: rest => (n ++ ": " ++ render v) :: renderEntries rest

end

/-- One-cell text: leaves in full, containers by size. -/
def summary : Value → String
  | list items => "[" ++ toString items.length ++ " items]"
  | map entries => "\x7b" ++ toString entries.size ++ " entries\x7d"
  | v => v.render

/-! ## Measures -/

mutual

/-- Number of positions in a value, itself included. References are not followed. -/
def positions : Value → Nat
  | list items => 1 + positionsItems items
  | map ⟨entries⟩ => 1 + positionsEntries entries
  | _ => 1

def positionsItems : List Value → Nat
  | [] => 0
  | v :: rest => positions v + positionsItems rest

def positionsEntries : List (String × Value) → Nat
  | [] => 0
  | (_, v) :: rest => positions v + positionsEntries rest

end

end Value

end Trellis
