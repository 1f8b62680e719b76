import Trellis.Traversal
import Trellis.Proofs.Children
import Mathlib.Data.List.Basic
import Mathlib.Algebra.Order.BigOperators.Group.List
import Mathlib.Algebra.Order.Ring.Nat

/-!
# The nodes a value holds

A value holds the nodes that its lists and maps lead to without entering a node. Their paths
start where the value stands, so moving the value only puts keys in front of them. A value is
`Distinct` when none of its maps repeats a name; for a node this also asks its kind to name its
fields apart, since a node's fields are looked up by name like the entries of a map.
-/

namespace Trellis

namespace Value

/-! ## Positions and induction -/

theorem positions_pos (v : Value) : 0 < v.positions := by
  cases v <;> simp [positions]

theorem positionsItems_eq (items : List Value) :
    positionsItems items = (items.map positions).sum := by
  induction items with
  | nil => rfl
  | cons v rest ih => simp [positionsItems, ih]

theorem positionsEntries_eq (entries : List (String × Value)) :
    positionsEntries entries = (entries.map fun e => e.2.positions).sum := by
  induction entries with
  | nil => rfl
  | cons e rest ih => simp [positionsEntries, ih]

theorem positions_le_items {items : List Value} {v : Value} (h : v ∈ items) :
    v.positions ≤ positionsItems items := by
  rw [positionsItems_eq]
  exact List.le_sum_of_mem (List.mem_map_of_mem h)

theorem positions_le_entries {entries : List (String × Value)} {e : String × Value}
    (h : e ∈ entries) : e.2.positions ≤ positionsEntries entries := by
  rw [positionsEntries_eq]
  exact List.le_sum_of_mem (List.mem_map_of_mem (f := fun e => e.2.positions) h)

/-- A property of all values follows from its members for lists and maps. -/
theorem induct {P : Value → Prop} (leaf : ∀ v : Value, v.isLeaf → P v)
    (node : ∀ id, P (node id)) (list : ∀ items, (∀ v ∈ items, P v) → P (list items))
    (map : ∀ d : Dict Value, (∀ e ∈ d.entries, P e.2) → P (map d)) (v : Value) : P v := by
  induction hn : v.positions using Nat.strong_induction_on generalizing v with
  | _ n ih =>
    cases v with
    | null => exact leaf _ rfl
    | bool b => exact leaf _ rfl
    | int i => exact leaf _ rfl
    | text s => exact leaf _ rfl
    | node id => exact node id
    | list items =>
      refine list items fun v hv => ih v.positions ?_ v rfl
      have := positions_le_items hv
      simp only [positions] at hn
      omega
    | map d =>
      refine map d fun e he => ih e.2.positions ?_ e.2 rfl
      have := positions_le_entries he
      simp only [positions] at hn
      omega

theorem eq_node {v : Value} {id : NodeId} (h : v.asNode? = some id) : v = node id := by
  cases v with
  | node x => exact congrArg node (Option.some.inj h)
  | null => cases h
  | bool b => cases h
  | int i => cases h
  | text s => cases h
  | list items => cases h
  | map d => cases h

/-! ## Paths of held nodes -/

theorem heldInItems_eq (path : Path) (items : List Value) (i : Nat) :
    heldInItems path i items =
      (items.zipIdx i).flatMap fun x => x.1.heldNodes (path ++ [.index x.2]) := by
  induction items generalizing i with
  | nil => rfl
  | cons v rest ih => simp [heldInItems, ih]

theorem heldInEntries_eq (path : Path) (entries : List (String × Value)) :
    heldInEntries path entries =
      entries.flatMap fun e => e.2.heldNodes (path ++ [.name e.1]) := by
  induction entries with
  | nil => rfl
  | cons e rest ih => simp [heldInEntries, ih]

theorem heldNodes_leaf {v : Value} (h : v.isLeaf) (path : Path) : v.heldNodes path = [] := by
  cases v <;> simp [isLeaf] at h <;> rfl

/-- Moving a value puts keys in front of the paths of its nodes. -/
theorem heldNodes_append (p : Path) (v : Value) :
    ∀ q : Path, v.heldNodes (p ++ q) = (v.heldNodes q).map fun x => (p ++ x.1, x.2) := by
  induction v using induct with
  | leaf v hv => intro q; simp [heldNodes_leaf hv]
  | node id => intro q; simp [heldNodes]
  | list items ih =>
    intro q
    simp only [heldNodes, heldInItems_eq, List.map_flatMap, List.append_assoc]
    refine List.flatMap_congr fun x hx => ih x.1 ?_ _
    exact List.fst_mem_of_mem_zipIdx hx
  | map d ih =>
    intro q
    simp only [heldNodes, heldInEntries_eq, List.map_flatMap, List.append_assoc]
    exact List.flatMap_congr fun e he => ih e he _

theorem heldNodes_eq_map (path : Path) (v : Value) :
    v.heldNodes path = (v.heldNodes []).map fun x => (path ++ x.1, x.2) := by
  simpa using heldNodes_append path v []

/-- The nodes that a value holds, in pre-order. -/
def held (v : Value) : List NodeId := (v.heldNodes []).map (·.2)

theorem map_snd_heldNodes (path : Path) (v : Value) :
    (v.heldNodes path).map (·.2) = v.held := by
  rw [heldNodes_eq_map, List.map_map]
  rfl

@[simp] theorem held_node (id : NodeId) : (node id).held = [id] := rfl

@[simp] theorem held_list (items : List Value) : (list items).held = items.flatMap held := by
  have hz : items.flatMap held = (items.zipIdx.map (·.1)).flatMap held := by
    rw [List.zipIdx_map_fst]
  rw [hz, held, heldNodes, heldInItems_eq, List.map_flatMap, List.flatMap_map]
  exact List.flatMap_congr fun x _ => map_snd_heldNodes _ _

@[simp] theorem held_map (d : Dict Value) : (map d).held = d.entries.flatMap fun e => e.2.held := by
  rw [held, heldNodes, heldInEntries_eq, List.map_flatMap]
  exact List.flatMap_congr fun e _ => map_snd_heldNodes _ _

/-! ## Distinct names -/

mutual

/-- No map in a value has a name twice. -/
def Distinct : Value → Prop
  | list items => DistinctItems items
  | map ⟨entries⟩ => (Dict.mk entries).Distinct ∧ DistinctEntries entries
  | _ => True

def DistinctItems : List Value → Prop
  | [] => True
  | v :: rest => v.Distinct ∧ DistinctItems rest

def DistinctEntries : List (String × Value) → Prop
  | [] => True
  | (_, v) :: rest => v.Distinct ∧ DistinctEntries rest

end

mutual

def decidableDistinct : ∀ v : Value, Decidable v.Distinct
  | null => .isTrue trivial
  | bool _ => .isTrue trivial
  | int _ => .isTrue trivial
  | text _ => .isTrue trivial
  | node _ => .isTrue trivial
  | list items => decidableDistinctItems items
  | map ⟨entries⟩ =>
    have := decidableDistinctEntries entries
    inferInstanceAs (Decidable ((Dict.mk entries).Distinct ∧ DistinctEntries entries))

def decidableDistinctItems : ∀ items : List Value, Decidable (DistinctItems items)
  | [] => .isTrue trivial
  | v :: rest =>
    have := decidableDistinct v
    have := decidableDistinctItems rest
    inferInstanceAs (Decidable (v.Distinct ∧ DistinctItems rest))

def decidableDistinctEntries :
    ∀ entries : List (String × Value), Decidable (DistinctEntries entries)
  | [] => .isTrue trivial
  | (_, v) :: rest =>
    have := decidableDistinct v
    have := decidableDistinctEntries rest
    inferInstanceAs (Decidable (v.Distinct ∧ DistinctEntries rest))

end

instance : DecidablePred Distinct := decidableDistinct

theorem distinct_list {items : List Value} : (list items).Distinct ↔ ∀ v ∈ items, v.Distinct := by
  rw [Distinct]
  induction items with
  | nil => simp [DistinctItems]
  | cons v rest ih => simp [DistinctItems, ih]

theorem distinct_map {d : Dict Value} :
    (map d).Distinct ↔ d.Distinct ∧ ∀ e ∈ d.entries, e.2.Distinct := by
  obtain ⟨entries⟩ := d
  have h : DistinctEntries entries ↔ ∀ e ∈ entries, e.2.Distinct := by
    induction entries with
    | nil => simp [DistinctEntries]
    | cons e rest ih => simp [DistinctEntries, ih]
  rw [Distinct, h]

/-- Data without nodes in which no map repeats a name. -/
structure Plain (v : Value) : Prop where
  free : v.held = []
  distinct : v.Distinct

theorem plain_list {items : List Value} (h : ∀ v ∈ items, v.Plain) : (list items).Plain where
  free := by
    rw [held_list, List.flatMap_eq_nil_iff]
    exact fun v hv => (h v hv).free
  distinct := distinct_list.mpr fun v hv => (h v hv).distinct

theorem plain_map {d : Dict Value} (hd : d.Distinct) (h : ∀ e ∈ d.entries, e.2.Plain) :
    (map d).Plain where
  free := by
    rw [held_map, List.flatMap_eq_nil_iff]
    exact fun e he => (h e he).free
  distinct := distinct_map.mpr ⟨hd, fun e he => (h e he).distinct⟩

end Value

namespace Node

/-- The nodes that the fields of a node hold, in pre-order. -/
def held (n : Node) : List NodeId := n.heldNodes.map (·.2)

theorem held_of_split {n : Node} {before after : List (Path × NodeId)} {path : Path} {c : NodeId}
    (h : n.heldNodes = before ++ (path, c) :: after) :
    n.held = before.map (·.2) ++ c :: after.map (·.2) := by
  simp [held, h]

theorem map_snd_namedFields (n : Node) : n.namedFields.map (·.2) = n.fields :=
  List.map_snd_zip n.arity.le

theorem held_eq (n : Node) : n.held = n.fields.flatMap Value.held := by
  rw [held, heldNodes, Value.heldInEntries_eq, List.map_flatMap, ← map_snd_namedFields,
    List.flatMap_map]
  exact List.flatMap_congr fun e _ => Value.map_snd_heldNodes _ _

/-- A node whose kind names its fields apart and whose field values are distinct. -/
def Distinct (n : Node) : Prop := n.kind.fields.Nodup ∧ ∀ v ∈ n.fields, v.Distinct

instance : DecidablePred Distinct := fun n =>
  inferInstanceAs (Decidable (n.kind.fields.Nodup ∧ ∀ v ∈ n.fields, v.Distinct))

theorem entries_children (n : Node) :
    n.children.entries = n.namedFields.map fun e => (.name e.1, e.2) := rfl

theorem heldNodes_eq_entries (n : Node) :
    n.heldNodes = n.children.entries.flatMap fun e => e.2.heldNodes [e.1] := by
  rw [heldNodes, Value.heldInEntries_eq, entries_children, List.flatMap_map]
  rfl

theorem map_snd_entries (n : Node) : n.children.entries.map (·.2) = n.fields := by
  rw [entries_children, List.map_map]
  exact n.map_snd_namedFields

/-- A leaf without fields is well formed. -/
theorem arity_leaf : ([] : List Value).length = (Kind.mk "Leaf" []).fields.length := rfl

end Node

end Trellis
