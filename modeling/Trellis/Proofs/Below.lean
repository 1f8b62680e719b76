import Trellis.Proofs.Held
import Mathlib.Logic.Relation
import Mathlib.Algebra.Order.BigOperators.Group.Finset

/-!
# What lies below

A node holds the nodes in its field values, and what they hold lies below it. Where no node lies
below itself every way down ends: `span` counts the positions of a value together with those of
the known nodes beneath it, each node once, and drops at every step down. It stays within
`Tree.reach`, so the budgets given to the walks are enough. Nodes may be shared and may be
unknown here; nothing is said about recorded parents.
-/

namespace Trellis

namespace Tree

/-- `a` holds `b` in one of its fields. -/
def Holds (t : Tree) (a b : NodeId) : Prop := ∃ n, t.get? a = some n ∧ b ∈ n.held

/-- `b` lies below `a`. -/
def Below (t : Tree) : NodeId → NodeId → Prop := Relation.TransGen t.Holds

/-- `id` is held by `v` or lies below a node that `v` holds. A reference to a node holds it. -/
def Beneath (t : Tree) (v : Value) (id : NodeId) : Prop :=
  ∃ a ∈ v.held, Relation.ReflTransGen t.Holds a id

/-- No node beneath `v` lies below itself. -/
def Grounded (t : Tree) (v : Value) : Prop := ∀ id, t.Beneath v id → ¬ t.Below id id

/-- Names are distinct in every map of `v`, in every map of the nodes beneath it, and in the
field lists of their kinds. -/
def DistinctBelow (t : Tree) (v : Value) : Prop :=
  v.Distinct ∧ ∀ id n, t.Beneath v id → t.get? id = some n → n.Distinct

/-- Every way down from `v` ends, and on it every key leads to one child only. -/
structure Walkable (t : Tree) (v : Value) : Prop where
  grounded : t.Grounded v
  distinct : t.DistinctBelow v

variable {t : Tree} {mode : Expansion} {v : Value} {c : Children} {e : Key × Value}

/-! ## One step down -/

theorem expand?_unrestricted (h : t.expand? mode v = some c) :
    t.expand? .unrestricted v = some c := by
  cases v <;> cases mode <;> simp_all [expand?]

theorem mem_entries : e ∈ t.entries mode v ↔ ∃ c, t.expand? mode v = some c ∧ e ∈ c.entries := by
  cases h : t.expand? mode v with
  | none => simp [entries, h]
  | some c => simp [entries, h]

theorem mem_entries_unrestricted (h : e ∈ t.entries mode v) :
    e ∈ t.entries .unrestricted v := by
  obtain ⟨c, hc, he⟩ := mem_entries.mp h
  exact mem_entries.mpr ⟨c, expand?_unrestricted hc, he⟩

/-- Only nodes look different to the two modes. -/
theorem entries_nodeBoundary (h : ∀ id, v ≠ .node id) :
    t.entries .nodeBoundary v = t.entries .unrestricted v := by
  cases v with
  | node id => exact absurd rfl (h id)
  | list items => rfl
  | map d => rfl
  | null => rfl
  | bool b => rfl
  | int i => rfl
  | text s => rfl

/-- A child stands in a list, in a map, or in a field of a known node. -/
theorem entry_cases (h : e ∈ t.entries .unrestricted v) :
    (∃ items, v = .list items ∧ e.2 ∈ items) ∨
    (∃ d : Dict Value, v = .map d ∧ ∃ x ∈ d.entries, x.2 = e.2) ∨
    (∃ id n, v = .node id ∧ t.get? id = some n ∧ e.2 ∈ n.fields) := by
  obtain ⟨c, hc, he⟩ := mem_entries.mp h
  cases v with
  | list items =>
    simp only [expand?, Option.some.injEq] at hc
    subst hc
    simp only [Children.entries, List.mem_map] at he
    obtain ⟨x, hx, rfl⟩ := he
    exact .inl ⟨items, rfl, List.fst_mem_of_mem_zipIdx hx⟩
  | map d =>
    simp only [expand?, Option.some.injEq] at hc
    subst hc
    simp only [Children.entries, List.mem_map] at he
    obtain ⟨x, hx, rfl⟩ := he
    exact .inr (.inl ⟨d, rfl, x, hx, rfl⟩)
  | node id =>
    simp only [expand?, Option.map_eq_some_iff] at hc
    obtain ⟨n, hn, rfl⟩ := hc
    refine .inr (.inr ⟨id, n, rfl, hn, ?_⟩)
    rw [← n.map_snd_entries]
    exact List.mem_map_of_mem he
  | null => simp [expand?] at hc
  | bool b => simp [expand?] at hc
  | int i => simp [expand?] at hc
  | text s => simp [expand?] at hc

theorem holds_of_field {a b : NodeId} {n : Node} (hn : t.get? a = some n) (hv : v ∈ n.fields)
    (hb : b ∈ v.held) : t.Holds a b := by
  refine ⟨n, hn, ?_⟩
  rw [n.held_eq]
  exact List.mem_flatMap.mpr ⟨v, hv, hb⟩

theorem below_of_field {a id : NodeId} {n : Node} (hn : t.get? a = some n) (hv : v ∈ n.fields)
    (h : t.Beneath v id) : t.Below a id := by
  obtain ⟨b, hb, hid⟩ := h
  exact Relation.TransGen.head' (holds_of_field hn hv hb) hid

theorem beneath_node {a id : NodeId} :
    t.Beneath (.node a) id ↔ Relation.ReflTransGen t.Holds a id := by
  simp [Beneath]

theorem beneath_of_entry (he : e ∈ t.entries .unrestricted v) {id : NodeId}
    (h : t.Beneath e.2 id) : t.Beneath v id := by
  rcases entry_cases he with ⟨items, rfl, hv⟩ | ⟨d, rfl, x, hx, hv⟩ | ⟨a, n, rfl, hn, hv⟩
  · obtain ⟨b, hb, hid⟩ := h
    exact ⟨b, by rw [Value.held_list]; exact List.mem_flatMap.mpr ⟨e.2, hv, hb⟩, hid⟩
  · obtain ⟨b, hb, hid⟩ := h
    exact ⟨b, by rw [Value.held_map]; exact List.mem_flatMap.mpr ⟨x, hx, hv ▸ hb⟩, hid⟩
  · exact beneath_node.mpr (below_of_field hn hv h).to_reflTransGen

theorem Grounded.entry (hg : t.Grounded v) (he : e ∈ t.entries .unrestricted v) :
    t.Grounded e.2 :=
  fun id hid => hg id (beneath_of_entry he hid)

theorem DistinctBelow.entry (hd : t.DistinctBelow v) (he : e ∈ t.entries .unrestricted v) :
    t.DistinctBelow e.2 := by
  refine ⟨?_, fun id n hid => hd.2 id n (beneath_of_entry he hid)⟩
  rcases entry_cases he with ⟨items, rfl, hv⟩ | ⟨d, rfl, x, hx, hv⟩ | ⟨a, n, rfl, hn, hv⟩
  · exact Value.distinct_list.mp hd.1 e.2 hv
  · exact hv ▸ (Value.distinct_map.mp hd.1).2 x hx
  · exact (hd.2 a n (beneath_node.mpr .refl) hn).2 e.2 hv

theorem DistinctBelow.children (hd : t.DistinctBelow v)
    (hc : t.expand? .unrestricted v = some c) : c.Distinct := by
  cases v with
  | list items =>
    simp only [expand?, Option.some.injEq] at hc
    subst hc
    trivial
  | map d =>
    simp only [expand?, Option.some.injEq] at hc
    subst hc
    exact (Value.distinct_map.mp hd.1).1
  | node id =>
    simp only [expand?, Option.map_eq_some_iff] at hc
    obtain ⟨n, hn, rfl⟩ := hc
    exact (hd.2 id n (beneath_node.mpr .refl) hn).1
  | null => simp [expand?] at hc
  | bool b => simp [expand?] at hc
  | int i => simp [expand?] at hc
  | text s => simp [expand?] at hc

theorem Walkable.entry (hw : t.Walkable v) (he : e ∈ t.entries .unrestricted v) :
    t.Walkable e.2 :=
  ⟨hw.grounded.entry he, hw.distinct.entry he⟩

/-- Below a value without nodes there is nothing but the value. -/
theorem walkable_of_plain (t : Tree) (h : v.Plain) : t.Walkable v := by
  have hnone : ∀ id, ¬ t.Beneath v id := by
    intro id hid
    obtain ⟨a, ha, -⟩ := hid
    simp [h.free] at ha
  exact ⟨fun id hid => absurd hid (hnone id), h.distinct, fun id _ hid => absurd hid (hnone id)⟩

/-! ## A measure that drops at every step down -/

/-- Positions in the fields of the node at an arena slot; none for a free slot. -/
def positionsAt (t : Tree) (i : Nat) : Nat := ((t.get? ⟨i⟩).map Node.positions).getD 0

open Classical in
/-- Positions in `v` and in the fields of the known nodes beneath it, each node counted once. -/
noncomputable def span (t : Tree) (v : Value) : Nat :=
  v.positions + ∑ i ∈ (Finset.range t.size).filter fun i => t.Beneath v ⟨i⟩, t.positionsAt i

theorem foldl_positions (nodes : List Node) (start : Nat) :
    nodes.foldl (fun total n => total + n.positions) start =
      start + ∑ i ∈ Finset.range nodes.length, ((nodes[i]?).map Node.positions).getD 0 := by
  induction nodes generalizing start with
  | nil => simp
  | cons n rest ih =>
    rw [List.foldl_cons, ih, List.length_cons, Finset.sum_range_succ']
    simp
    omega

theorem extent_eq_sum (t : Tree) : t.extent = ∑ i ∈ Finset.range t.size, t.positionsAt i := by
  rw [extent, ← Array.foldl_toList, foldl_positions, Nat.zero_add, Array.length_toList]
  simp only [positionsAt, get?, Array.getElem?_toList]
  rfl

theorem span_le_reach (t : Tree) (v : Value) : t.span v ≤ t.reach v := by
  classical
  rw [span, reach, extent_eq_sum]
  exact Nat.add_le_add_left (Finset.sum_le_sum_of_subset (Finset.filter_subset _ _)) _

theorem span_pos (t : Tree) (v : Value) : 0 < t.span v :=
  Nat.lt_of_lt_of_le v.positions_pos (Nat.le_add_right _ _)

theorem lt_size_of_get? {id : NodeId} {n : Node} (h : t.get? id = some n) : id.number < t.size :=
  (Array.getElem?_eq_some_iff.mp h).1

theorem positionsAt_of_get? {id : NodeId} {n : Node} (h : t.get? id = some n) :
    t.positionsAt id.number = n.positions := by
  rw [positionsAt, show (⟨id.number⟩ : NodeId) = id from rfl, h]
  rfl

/-- Members of a list or map have fewer positions and nothing new beneath them. -/
theorem span_lt_of_positions {w : Value} (hp : w.positions < v.positions)
    (hb : ∀ id, t.Beneath w id → t.Beneath v id) : t.span w < t.span v := by
  classical
  refine Nat.add_lt_add_of_lt_of_le hp (Finset.sum_le_sum_of_subset ?_)
  intro i hi
  simp only [Finset.mem_filter] at hi ⊢
  exact ⟨hi.1, hb _ hi.2⟩

/-- A node that does not lie below itself counts for more than any of its fields: its own positions
are part of its span and not of theirs. -/
theorem span_lt_of_field {id : NodeId} {n : Node} {w : Value} (hn : t.get? id = some n)
    (hid : ¬ t.Below id id) (hw : w ∈ n.fields) : t.span w < t.span (.node id) := by
  classical
  have hin : id.number ∈ (Finset.range t.size).filter fun i => t.Beneath (.node id) ⟨i⟩ := by
    simp only [Finset.mem_filter, Finset.mem_range]
    exact ⟨lt_size_of_get? hn, beneath_node.mpr .refl⟩
  have hsub : (Finset.range t.size).filter (fun i => t.Beneath w ⟨i⟩) ⊆
      ((Finset.range t.size).filter fun i => t.Beneath (.node id) ⟨i⟩).erase id.number := by
    intro i hi
    simp only [Finset.mem_filter] at hi
    have hbelow : t.Below id ⟨i⟩ := below_of_field hn hw hi.2
    refine Finset.mem_erase.mpr ⟨?_, Finset.mem_filter.mpr ⟨hi.1, ?_⟩⟩
    · rintro rfl
      exact hid hbelow
    · exact beneath_node.mpr hbelow.to_reflTransGen
  have hsum := Finset.sum_le_sum_of_subset (f := t.positionsAt) hsub
  have herase := Finset.add_sum_erase _ t.positionsAt hin
  have hat := positionsAt_of_get? hn
  have hpos : w.positions < n.positions := by
    have := Value.positions_le_items hw
    simp only [Node.positions]
    omega
  simp only [span]
  omega

theorem Grounded.span_lt (hg : t.Grounded v) (he : e ∈ t.entries .unrestricted v) :
    t.span e.2 < t.span v := by
  rcases entry_cases he with ⟨items, rfl, hv⟩ | ⟨d, rfl, x, hx, hv⟩ | ⟨a, n, rfl, hn, hv⟩
  · refine span_lt_of_positions ?_ fun id => beneath_of_entry he
    have := Value.positions_le_items hv
    simp only [Value.positions]
    omega
  · refine span_lt_of_positions ?_ fun id => beneath_of_entry he
    have := hv ▸ Value.positions_le_entries hx
    simp only [Value.positions]
    omega
  · exact span_lt_of_field hn (hg a (beneath_node.mpr .refl)) hv

/-! ## Trees built from the leaves up -/

/-- Every node was added after the nodes it holds, and names are distinct everywhere. -/
def Descending (t : Tree) : Prop :=
  ∀ i (h : i < t.nodes.size), t.nodes[i].Distinct ∧ ∀ c ∈ t.nodes[i].held, c.number < i

instance : DecidablePred Descending := fun t =>
  inferInstanceAs (Decidable (∀ i (h : i < t.nodes.size),
    t.nodes[i].Distinct ∧ ∀ c ∈ t.nodes[i].held, c.number < i))

theorem Descending.get? (hd : t.Descending) {id : NodeId} {n : Node} (hn : t.get? id = some n) :
    n.Distinct ∧ ∀ c ∈ n.held, c.number < id.number := by
  obtain ⟨hi, rfl⟩ := Array.getElem?_eq_some_iff.mp hn
  exact hd id.number hi

/-- A rank that drops from every node to those it holds is lower for everything below. -/
theorem rank_lt_of_below (rank : NodeId → Nat) (hrank : ∀ {a b}, t.Holds a b → rank b < rank a)
    {a b : NodeId} (h : t.Below a b) : rank b < rank a := by
  induction h with
  | single h => exact hrank h
  | tail _ h ih => exact (hrank h).trans ih

theorem Descending.lt_of_below (hd : t.Descending) {a b : NodeId} (h : t.Below a b) :
    b.number < a.number := by
  refine rank_lt_of_below NodeId.number ?_ h
  rintro a b ⟨n, hn, hb⟩
  exact (hd.get? hn).2 b hb

theorem Descending.walkable (hd : t.Descending) (hv : v.Distinct) : t.Walkable v where
  grounded := fun _ _ h => Nat.lt_irrefl _ (hd.lt_of_below h)
  distinct := ⟨hv, fun _ _ _ hn => (hd.get? hn).1⟩

end Tree

end Trellis
