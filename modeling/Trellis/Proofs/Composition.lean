import Trellis.Proofs.Offspring

/-!
# Joining the listings of nodes

Every node has its own paths: those to its child nodes, which lead through lists and maps but into
no other node. A listing that enters nodes has the paths from the top. Its nodes are found by
joining the child nodes of one node after another: each child, then the nodes below it with the path
of the child put in front. The two are made by different cursors, one that stops at nodes and starts
once for every node, and one that goes through all of them with a single stack.

A node that is unknown has nothing below it, and names may repeat: nothing is looked up.
-/

namespace Trellis

open Relation (ReflTransGen)

namespace Tree

variable {t : Tree} {mode : Expansion} {id x y : NodeId} {n : Node} {v : Value} {depth : Nat}

/-- The nodes among the positions listed from a node, with their paths. The node itself is left
out. -/
def nodesBelow (t : Tree) (id : NodeId) : List (Path × NodeId) :=
  ((t.listing (.node id) .unrestricted).filterMap nodeAt?).filter (·.2 ≠ id)

/-- The child nodes of a node, each of them followed by its own, down to a depth in nodes. -/
def flattened (t : Tree) : Nat → NodeId → List NodeId
  | 0, _ => []
  | depth + 1, id =>
    match t.childNodes id with
    | .ok children => children.flatMap fun c => c :: t.flattened depth c
    | .error _ => []

/-! ## A rank for the nodes below -/

theorem span_le_of_held (hx : x ∈ v.held) : t.span (.node x) ≤ t.span v := by
  classical
  refine Nat.add_le_add v.positions_pos (Finset.sum_le_sum_of_subset ?_)
  intro i hi
  simp only [Finset.mem_filter] at hi ⊢
  exact ⟨hi.1, x, hx, beneath_node.mp hi.2⟩

/-- The span drops from a node to the nodes it holds, the unknown ones included. -/
theorem Grounded.span_drops (hg : t.Grounded (.node id)) (hx : ReflTransGen t.Holds id x)
    (hxy : t.Holds x y) : t.span (.node y) < t.span (.node x) := by
  obtain ⟨m, hm, hy⟩ := hxy
  rw [m.held_eq] at hy
  obtain ⟨w, hw, hy⟩ := List.mem_flatMap.mp hy
  have hfield : t.span w < t.span (.node x) :=
    span_lt_of_field hm (hg x (beneath_node.mpr hx)) hw
  exact (span_le_of_held hy).trans_lt hfield

/-- No node lies below itself if a rank drops from every node to those it holds. -/
theorem grounded_of_rank (rank : NodeId → Nat)
    (h : ∀ i (hi : i < t.nodes.size), ∀ c ∈ t.nodes[i].held, rank c < rank ⟨i⟩) (v : Value) :
    t.Grounded v := by
  have hstep : ∀ {a b}, t.Holds a b → rank b < rank a := by
    rintro a b ⟨m, hm, hb⟩
    obtain ⟨ha, rfl⟩ := Array.getElem?_eq_some_iff.mp hm
    exact h a.number ha b hb
  intro id _ hid
  exact Nat.lt_irrefl _ (rank_lt_of_below rank hstep hid)

theorem Grounded.held (hg : t.Grounded (.node id)) (hx : t.Holds id x) : t.Grounded (.node x) := by
  intro y hy
  exact hg y (beneath_node.mpr (.head hx (beneath_node.mp hy)))

/-! ## Joining -/

/-- The nodes listed from a node are its offspring, since the node does not come up again. -/
theorem nodesBelow_eq (hg : t.Grounded (.node id)) (hdepth : t.span (.node id) < depth) :
    t.nodesBelow id = t.offspring depth id := by
  rw [nodesBelow, filterMap_nodeAt?_listing hg (fun x y => hg.span_drops) hdepth,
    List.filter_cons_of_neg (by simp), List.filter_eq_self]
  rintro ⟨path, d⟩ hd
  have hne : d ≠ id := by
    rintro rfl
    exact hg d (beneath_node.mpr .refl) (below_of_mem_offspring hd)
  simpa using hne

/-- The nodes below a node, joined from those below its child nodes. -/
theorem nodesBelow_joined (hn : t.get? id = some n) (hg : t.Grounded (.node id)) :
    t.nodesBelow id = n.heldNodes.flatMap fun e =>
      e :: (t.nodesBelow e.2).map fun x => (e.1 ++ x.1, x.2) := by
  rw [nodesBelow_eq hg (Nat.lt_succ_self _), offspring_succ hn]
  refine List.flatMap_congr fun e he => ?_
  have hholds : t.Holds id e.2 := ⟨n, hn, List.mem_map_of_mem he⟩
  -- The span of the node is a depth that suffices for each of its children.
  rw [branch, nodesBelow_eq (hg.held hholds) (hg.span_drops .refl hholds)]

theorem flattened_succ (hn : t.get? id = some n) (depth : Nat) :
    t.flattened (depth + 1) id = n.held.flatMap fun c => c :: t.flattened depth c := by
  simp only [flattened, childNodes_eq hn]

theorem flattened_eq (t : Tree) (depth : Nat) (id : NodeId) :
    t.flattened depth id = (t.offspring depth id).map (·.2) := by
  induction depth generalizing id with
  | zero => rfl
  | succ depth ih =>
    cases hn : t.get? id with
    | none =>
      have hchildren : t.childNodes id = .error (.unknownNode id) := by
        rw [childNodes, childNodesWithPaths, get_of_get?_none hn]
        rfl
      rw [flattened, hchildren, offspring_unknown hn, List.map_nil]
    | some n =>
      rw [flattened_succ hn, offspring_succ hn, Node.held, List.flatMap_map, List.map_flatMap]
      refine List.flatMap_congr fun e _ => ?_
      rw [ih, branch, List.map_cons, List.map_map]
      rfl

/-! ## The cursor over the fields -/

theorem yields_entries {entries : List (Key × Value)}
    (h : ∀ e ∈ entries, t.Grounded e.2 ∧ t.span e.2 ≤ depth) :
    Yields (t.pathsNext? mode) (entries.map fun e => ([e.1], e.2))
      (t.outlineEntries mode depth entries) := by
  induction entries with
  | nil => exact t.yields_nil mode
  | cons e rest ih =>
    obtain ⟨⟨hg, hspan⟩, hrest⟩ := List.forall_mem_cons.mp h
    exact yields_outline hg hspan [e.1] (ih hrest)

/-- Started at the fields of a node, the cursor that stops at nodes hands out the positions inside
them. -/
theorem yields_fieldWalk (hn : t.get? id = some n) (hg : t.Grounded (.node id)) :
    Yields (t.pathsNext? .nodeBoundary) (n.children.entries.map fun e => ([e.1], e.2))
      (t.fieldWalk n) := by
  refine yields_entries fun e he => ?_
  have hent : e ∈ t.entries .unrestricted (.node id) := by simpa [entries, expand?, hn] using he
  have hlt := hg.span_lt hent
  have hle := t.span_le_reach (.node id)
  have hreach : t.reach (.node id) = 1 + t.extent := rfl
  exact ⟨hg.entry hent, by omega⟩

/-! ## Local and global listings -/

/-- Let no node at or below a known node lie below itself. Its child nodes are those among the
positions inside its fields. The nodes that a listing from it comes to are the child nodes, each of
them followed by the nodes that a listing from the child comes to, with the path of the child in
front; from an unknown child it comes to none. So the descendants are the child nodes flattened all
the way down. -/
theorem listings_compose (hn : t.get? id = some n) (hg : t.Grounded (.node id)) :
    ∃ children : List (Path × NodeId),
      t.childNodesWithPaths id = .ok children ∧
      (∃ inside, Yields (t.pathsNext? .nodeBoundary)
          (n.children.entries.map fun e => ([e.1], e.2)) inside ∧
        children = inside.filterMap nodeAt?) ∧
      (∀ c ∈ id :: children.map (·.2), Yields (t.pathsNext? .unrestricted) [([], .node c)]
        (t.listing (.node c) .unrestricted)) ∧
      (t.nodesBelow id = children.flatMap fun e =>
        e :: (t.nodesBelow e.2).map fun x => (e.1 ++ x.1, x.2)) ∧
      (∀ c ∈ children.map (·.2), t.get? c = none → t.nodesBelow c = []) ∧
      t.childNodes id = .ok (children.map (·.2)) ∧
      t.firstChild id = .ok (children.map (·.2)).head? ∧
      t.lastChild id = .ok (children.map (·.2)).getLast? ∧
      ∀ depth, t.reach (.node id) < depth →
        (t.nodesBelow id).map (·.2) = t.flattened depth id ∧
        ∀ limit, t.descendants id limit = .ok ((t.flattened depth id).take limit) := by
  have hchildren : t.childNodes id = .ok (n.heldNodes.map (·.2)) := childNodes_eq hn
  have hheld : ∀ c ∈ n.heldNodes.map (·.2), t.Grounded (.node c) := by
    intro c hc
    exact hg.held ⟨n, hn, hc⟩
  refine ⟨n.heldNodes, childNodesWithPaths_eq hn,
    ⟨t.fieldWalk n, yields_fieldWalk hn hg, (filterMap_nodeAt?_fieldWalk hn).symm⟩, ?_,
    nodesBelow_joined hn hg, ?_, hchildren, ?_, ?_, ?_⟩
  · intro c hc
    have hc : t.Grounded (.node c) := by
      rcases List.mem_cons.mp hc with rfl | hc
      · exact hg
      · exact hheld c hc
    exact yields_listing hc (t.span_le_reach (.node c))
  · intro c hc hunknown
    rw [nodesBelow_eq (hheld c hc) (Nat.lt_succ_self _), offspring_unknown hunknown]
  · rw [firstChild, hchildren]
    rfl
  · rw [lastChild, hchildren]
    rfl
  · intro depth hdepth
    have hspan : t.span (.node id) < depth := (t.span_le_reach (.node id)).trans_lt hdepth
    rw [nodesBelow_eq hg hspan, flattened_eq]
    exact ⟨rfl, descendants_eq hn hg (fun x y => hg.span_drops) hspan⟩

/-- A map with one name twice, which leads to the same leaf both times. The leaf and the node with
the map refer to a node that is not there. -/
def repeatedName : Tree where
  nodes := #[
    { kind := ⟨"Leaf", ["next"]⟩, fields := [.node ⟨9⟩], arity := rfl },
    { kind := ⟨"Pair", ["first", "second"]⟩,
      fields := [.map ⟨[("a", .node ⟨0⟩), ("a", .list [.null, .node ⟨0⟩])]⟩, .node ⟨9⟩],
      arity := rfl }]

theorem listings_compose_repeatedName :
    repeatedName.Grounded (.node ⟨1⟩) ∧
    repeatedName.childNodesWithPaths ⟨1⟩ =
      .ok [([.name "first", .name "a"], ⟨0⟩), ([.name "first", .name "a", .index 1], ⟨0⟩),
        ([.name "second"], ⟨9⟩)] ∧
    repeatedName.nodesBelow ⟨9⟩ = [] ∧
    repeatedName.nodesBelow ⟨1⟩ =
      ([([.name "first", .name "a"], ⟨0⟩), ([.name "first", .name "a", .index 1], ⟨0⟩),
        ([.name "second"], ⟨9⟩)] : List (Path × NodeId)).flatMap fun e =>
          e :: (repeatedName.nodesBelow e.2).map fun x => (e.1 ++ x.1, x.2) := by
  have hg : repeatedName.Grounded (.node ⟨1⟩) :=
    grounded_of_rank (fun x => if x.number < 2 then x.number + 1 else 0) (by decide) _
  have hlisted : repeatedName.childNodesWithPaths ⟨1⟩ =
      .ok [([.name "first", .name "a"], ⟨0⟩), ([.name "first", .name "a", .index 1], ⟨0⟩),
        ([.name "second"], ⟨9⟩)] := by decide
  obtain ⟨children, hchildren, -, -, hjoined, hunknown, -⟩ := listings_compose rfl hg
  obtain rfl := Except.ok.inj (hchildren.symm.trans hlisted)
  exact ⟨hg, hlisted, hunknown ⟨9⟩ (by decide) rfl, hjoined⟩

end Tree

end Trellis
