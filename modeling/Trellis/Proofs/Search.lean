import Trellis.Proofs.Stepping
import Trellis.Proofs.WellLinked

/-!
# Searching for a neighbour

The nodes that a node holds are the nodes among the positions inside its fields, and a search for a
neighbour steps through these positions until it meets a node or runs off either end. So it finds
what stands beside the starting node in `Node.held`, and its budget is enough.
-/

namespace Trellis

namespace Tree

variable {t : Tree} {id : NodeId} {n : Node}

/-! ## The positions inside the fields of a node -/

/-- The positions inside the fields of a node, without entering nodes, in pre-order. -/
def fieldWalk (t : Tree) (n : Node) : List (Path × Value) :=
  t.outlineEntries .nodeBoundary t.extent n.children.entries

/-- A position as the node that stands there, with its path. -/
def nodeAt? (x : Path × Value) : Option (Path × NodeId) := x.2.asNode?.map (x.1, ·)

theorem filterMap_nodeAt?_under (key : Key) (listed : List (Path × Value)) :
    (under key listed).filterMap nodeAt? =
      (listed.filterMap nodeAt?).map fun x => (key :: x.1, x.2) := by
  rw [under, List.filterMap_map, List.map_filterMap]
  refine List.filterMap_congr fun x _ => ?_
  cases h : x.2.asNode? <;> simp [nodeAt?, h]

theorem heldNodes_of_entries (t : Tree) {v : Value} (hv : v.asNode? = none) (path : Path) :
    v.heldNodes path =
      (t.entries .nodeBoundary v).flatMap fun e => e.2.heldNodes (path ++ [e.1]) := by
  cases v with
  | list items =>
    simp only [Value.heldNodes, Value.heldInItems_eq, entries, expand?, Children.entries,
      List.flatMap_map]
  | map d =>
    simp only [Value.heldNodes, Value.heldInEntries_eq, entries, expand?, Children.entries,
      List.flatMap_map]
  | node id => simp [Value.asNode?] at hv
  | null => rfl
  | bool b => rfl
  | int i => rfl
  | text s => rfl

theorem sum_positions_entries (t : Tree) (v : Value) :
    1 + ((t.entries .nodeBoundary v).map fun e => e.2.positions).sum = v.positions := by
  cases v with
  | list items =>
    have h : (items.zipIdx.map fun x => x.1.positions) = items.map Value.positions := by
      conv_rhs => rw [← List.zipIdx_map_fst 0 items, List.map_map]
      rfl
    simp only [entries, expand?, Children.entries, List.map_map, Value.positions,
      Value.positionsItems_eq, ← h]
    rfl
  | map d =>
    simp only [entries, expand?, Children.entries, List.map_map, Value.positions,
      Value.positionsEntries_eq]
    rfl
  | node id => rfl
  | null => rfl
  | bool b => rfl
  | int i => rfl
  | text s => rfl

theorem positions_lt_of_entry {v : Value} {e : Key × Value}
    (he : e ∈ t.entries .nodeBoundary v) : e.2.positions < v.positions := by
  have hs := t.sum_positions_entries v
  have hle := List.le_sum_of_mem (List.mem_map_of_mem (f := fun e => e.2.positions) he)
  omega

/-- The nodes among the positions of a value are the nodes it holds. -/
theorem filterMap_nodeAt?_outline {depth : Nat} {v : Value} (hd : v.positions ≤ depth) :
    (t.outline .nodeBoundary depth v).filterMap nodeAt? = v.heldNodes [] := by
  induction depth generalizing v with
  | zero =>
    have := v.positions_pos
    omega
  | succ depth ih =>
    cases hv : v.asNode? with
    | some id =>
      obtain rfl := Value.eq_node hv
      rfl
    | none =>
      rw [outline_succ, List.filterMap_cons, heldNodes_of_entries t hv, outlineEntries,
        List.filterMap_flatMap]
      simp only [nodeAt?, hv, Option.map_none]
      refine List.flatMap_congr fun e he => ?_
      have hlt := positions_lt_of_entry he
      rw [Value.heldNodes_eq_map, ← ih (by omega), filterMap_nodeAt?_under]
      rfl

theorem length_outline_le (t : Tree) (depth : Nat) (v : Value) :
    (t.outline .nodeBoundary depth v).length ≤ v.positions := by
  induction depth generalizing v with
  | zero => exact v.positions_pos
  | succ depth ih =>
    rw [outline_succ, List.length_cons, ← t.sum_positions_entries v, outlineEntries,
      List.length_flatMap, Nat.add_comm]
    refine Nat.add_le_add_left (List.sum_le_sum fun e _ => ?_) 1
    simpa [under] using ih e.2

theorem positions_le_extent (hn : t.get? id = some n) : n.positions ≤ t.extent := by
  rw [extent_eq_sum, ← positionsAt_of_get? hn]
  exact Finset.single_le_sum (f := t.positionsAt) (fun _ _ => Nat.zero_le _)
    (Finset.mem_range.mpr (lt_size_of_get? hn))

theorem sum_positions_fields (n : Node) :
    (n.children.entries.map fun e => e.2.positions).sum = Value.positionsItems n.fields := by
  rw [Value.positionsItems_eq, ← n.map_snd_entries, List.map_map]
  rfl

theorem length_fieldWalk_lt (hn : t.get? id = some n) : (t.fieldWalk n).length < t.extent := by
  have hle : (t.fieldWalk n).length ≤ Value.positionsItems n.fields := by
    rw [fieldWalk, outlineEntries, List.length_flatMap, ← sum_positions_fields]
    refine List.sum_le_sum fun e _ => ?_
    simpa [under] using t.length_outline_le t.extent e.2
  have := positions_le_extent hn
  simp only [Node.positions] at this
  omega

theorem filterMap_nodeAt?_fieldWalk (hn : t.get? id = some n) :
    (t.fieldWalk n).filterMap nodeAt? = n.heldNodes := by
  rw [fieldWalk, outlineEntries, List.filterMap_flatMap, n.heldNodes_eq_entries]
  refine List.flatMap_congr fun e he => ?_
  have hd : e.2.positions ≤ t.extent := by
    have hmem : e.2 ∈ n.fields := n.map_snd_entries ▸ List.mem_map_of_mem (f := (·.2)) he
    have := Value.positions_le_items hmem
    have := positions_le_extent hn
    simp only [Node.positions] at this
    omega
  rw [Value.heldNodes_eq_map, ← filterMap_nodeAt?_outline hd, filterMap_nodeAt?_under]
  rfl

/-! ## Searching -/

/-- What a search still has in front of it, nearest first. -/
def ahead {α : Type} : Direction → List α → List α → List α
  | .forward, _, after => after
  | .backward, before, _ => before.reverse

section Search

variable {before after : List (Path × Value)} {p : Path} {x : Value}

theorem expand?_node (hn : t.get? id = some n) :
    t.expand? .unrestricted (.node id) = some n.children := by
  simp [expand?, hn]

/-- One step of a search inside the fields of a node leads to the nearest position ahead. Past the
last one it leads nowhere, and before the first one to the node itself. -/
theorem step_fieldWalk (hw : t.Walkable (.node id)) (hn : t.get? id = some n)
    (h : t.fieldWalk n = before ++ (p, x) :: after) (direction : Direction) :
    t.step (.node id) p .nodeBoundary direction =
      .ok (match direction with
        | .forward => after.head?.map (·.1)
        | .backward => ((([] : Path), Value.node id) :: before).getLast?.map (·.1)) := by
  have hc := expand?_node hn
  have hreach := t.span_le_reach (.node id)
  simp only [reach, Value.positions] at hreach
  have hfield : ∀ e ∈ n.children.entries,
      t.Walkable e.2 ∧ t.span e.2 ≤ t.extent := by
    intro e he
    have hm : e ∈ t.entries .unrestricted (.node id) := mem_entries.mpr ⟨_, hc, he⟩
    have := hw.grounded.span_lt hm
    exact ⟨hw.entry hm, by omega⟩
  cases direction with
  | forward =>
    have := incrementFrom_entries hc (hw.distinct.children hc) (fun e he path _ _ _ ho =>
      incrementFrom_outline (hfield e he).1 (hfield e he).2 ho path) h []
    simpa [step, increment] using this
  | backward =>
    have := decrementFrom_entries hw hc (by omega) (fun e he path _ _ _ ho =>
      decrementFrom_outline (hfield e he).1 (hfield e he).2 ho path) h []
    simpa [step, decrement] using this

theorem resolve_fieldWalk (hw : t.Walkable (.node id)) (hn : t.get? id = some n)
    (h : (p, x) ∈ t.fieldWalk n) : t.resolve (.node id) p = .ok x := by
  have hc := expand?_node hn
  refine resolveFrom_entries hc (hw.distinct.children hc) ?_ h []
  intro e he path q hq
  exact resolveFrom_outline (hw.entry (mem_entries.mpr ⟨_, hc, he⟩)) hq path

theorem fieldWalk_path_ne_nil (h : (p, x) ∈ t.fieldWalk n) : p ≠ [] := by
  obtain ⟨k, w, q, -, rfl, -⟩ := mem_outlineEntries h
  simp

/-- A search answers the nearest node ahead. Every step uses up one position, so a budget above
their number is enough. -/
theorem findSibling_fieldWalk (hw : t.Walkable (.node id)) (hn : t.get? id = some n)
    (direction : Direction) {fuel : Nat} (h : t.fieldWalk n = before ++ (p, x) :: after)
    (hf : (ahead direction before after).length < fuel) :
    t.findSibling id direction fuel p =
      .ok ((ahead direction before after).findSome? fun y => y.2.asNode?) := by
  induction fuel generalizing before after p x with
  | zero => omega
  | succ fuel ih =>
    have hstep := step_fieldWalk hw hn h direction
    cases hahead : ahead direction before after with
    | nil =>
      have hend : t.step (.node id) p .nodeBoundary direction = .ok none ∨
          t.step (.node id) p .nodeBoundary direction = .ok (some []) := by
        cases direction with
        | forward => simp only [ahead] at hahead; simp [hstep, hahead]
        | backward => simp only [ahead, List.reverse_eq_nil_iff] at hahead; simp [hstep, hahead]
      rcases hend with h' | h' <;> simp [findSibling, h', bind, Except.bind, pure, Except.pure]
    | cons y rest =>
      -- The position stepped to splits the walk again, with one position less ahead.
      obtain ⟨before', after', hsplit, hrest, hnext⟩ : ∃ before' after',
          t.fieldWalk n = before' ++ (y.1, y.2) :: after' ∧ ahead direction before' after' = rest ∧
          t.step (.node id) p .nodeBoundary direction = .ok (some y.1) := by
        cases direction with
        | forward =>
          simp only [ahead] at hahead
          subst hahead
          exact ⟨before ++ [(p, x)], rest, by simp [h], rfl, by simp [hstep]⟩
        | backward =>
          have hb : before = rest.reverse ++ [y] := by
            rw [← List.reverse_reverse before, show before.reverse = y :: rest from hahead]
            simp
          subst hb
          exact ⟨rest.reverse, (p, x) :: after, by simp [h], by simp [ahead],
            by simp [hstep, List.getLast?_cons]⟩
      have hmem : (y.1, y.2) ∈ t.fieldWalk n := by simp [hsplit]
      have hres := resolve_fieldWalk hw hn hmem
      have hne := fieldWalk_path_ne_nil hmem
      have hlen : rest.length < fuel := by simp only [hahead, List.length_cons] at hf; omega
      have hrec := ih hsplit (hrest ▸ hlen)
      rw [hrest] at hrec
      cases hy : y.2 with
      | node c =>
        simp [findSibling, hnext, hres, hy, Value.asNode?, bind, Except.bind, pure,
          Except.pure]
      | _ =>
        simp [findSibling, hnext, hres, hy, Value.asNode?, bind, Except.bind, hrec]

end Search

/-- A search from a held node answers its neighbour among the held nodes. -/
theorem findSibling_eq (hw : t.Walkable (.node id)) (hn : t.get? id = some n) (side : Side)
    {before after : List (Path × NodeId)} {p : Path} {c : NodeId}
    (h : n.heldNodes = before ++ (p, c) :: after) :
    t.findSibling id side.direction (t.extent + 1) p =
      .ok (side.neighbour (before.map (·.2)) (after.map (·.2))) := by
  rw [← filterMap_nodeAt?_fieldWalk hn] at h
  obtain ⟨walked, rest, hwalk, rfl, hrest⟩ := List.filterMap_eq_append_iff.mp h
  obtain ⟨skipped, y, rest', rfl, hskip, hy, rfl⟩ := List.filterMap_eq_cons_iff.mp hrest
  obtain ⟨v, x⟩ := y
  obtain ⟨rfl, -⟩ : v = p ∧ x.asNode? = some c := by
    cases hx : x.asNode? with
    | none => simp [nodeAt?, hx] at hy
    | some d => simp [nodeAt?, hx] at hy; exact ⟨hy.1, by rw [hy.2]⟩
  have hsplit : t.fieldWalk n = (walked ++ skipped) ++ (v, x) :: rest' := by simp [hwalk]
  have hlen := length_fieldWalk_lt hn
  rw [hsplit, List.length_append, List.length_cons] at hlen
  have hnone : skipped.filterMap nodeAt? = [] := List.filterMap_eq_nil_iff.mpr hskip
  have hids : ∀ l : List (Path × Value),
      (l.filterMap nodeAt?).map (·.2) = l.filterMap fun y => y.2.asNode? := by
    intro l
    rw [List.map_filterMap]
    refine List.filterMap_congr fun y _ => ?_
    cases h : y.2.asNode? <;> simp [nodeAt?, h]
  rw [findSibling_fieldWalk hw hn side.direction hsplit (by
    cases side <;> simp only [Side.direction, ahead, List.length_reverse] <;> omega)]
  congr 1
  cases side with
  | next => simp [Side.direction, ahead, Side.neighbour, hids, List.head?_filterMap]
  | prev =>
    have hb : walked.filterMap nodeAt? = (walked ++ skipped).filterMap nodeAt? := by
      simp [List.filterMap_append, hnone]
    simp only [Side.direction, ahead, Side.neighbour]
    rw [hb, hids, List.getLast?_filterMap]

end Tree

end Trellis
