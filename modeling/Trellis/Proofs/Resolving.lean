import Trellis.Proofs.Editing
import Trellis.Proofs.Search

/-!
# Where a path leads

Looking up goes on from where it has arrived, so looking up two paths one after another is looking
up the joined path. A path that is found from a value from which every way down ends is one of the
positions that the pre-order cursor hands out. A path that is found to lead to a node has passed
through the node that holds it, and from there on it is the path under which it is held.

Errors are not looked at here.
-/

namespace Trellis

open Relation (ReflTransGen)

namespace Tree

variable {t : Tree} {v w x : Value} {key : Key} {p q : Path} {id : NodeId}

/-! ## Joined paths -/

theorem child_eq_ok {path : Path} : t.child v path key = .ok w ↔
    ∃ c, t.expand? .unrestricted v = some c ∧ c.child? key = some w := by
  unfold child
  cases hc : t.expand? .unrestricted v with
  | none => cases v <;> simp
  | some c =>
    cases hw : c.child? key with
    | some u => simp [hw]
    | none => cases c <;> cases key <;> simp [hw]

theorem resolveFrom_cons_eq_ok {path : Path} : t.resolveFrom v path (key :: p) = .ok x ↔
    ∃ w, t.child v path key = .ok w ∧ t.resolveFrom w (path ++ [key]) p = .ok x := by
  rw [resolveFrom]
  cases hw : t.child v path key with
  | error e => simp [bind, Except.bind]
  | ok w => simp [bind, Except.bind]

/-- Where the value stands only matters for errors. -/
theorem resolveFrom_eq_ok {path : Path} :
    t.resolveFrom v path p = .ok x ↔ t.resolve v p = .ok x := by
  unfold resolve
  -- The path in front is the only thing that differs, and no step that succeeds looks at it.
  have shift : ∀ (p : Path) (v : Value) (a b : Path), t.resolveFrom v a p = .ok x →
      t.resolveFrom v b p = .ok x := by
    intro p
    induction p with
    | nil => intro v a b h; exact h
    | cons key p ih =>
      intro v a b h
      obtain ⟨w, hw, hx⟩ := resolveFrom_cons_eq_ok.mp h
      exact resolveFrom_cons_eq_ok.mpr ⟨w, child_eq_ok.mpr (child_eq_ok.mp hw), ih w _ _ hx⟩
  exact ⟨shift p v path [], shift p v [] path⟩

theorem resolve_nil (t : Tree) (v : Value) : t.resolve v [] = .ok v := rfl

theorem resolve_cons_eq_ok : t.resolve v (key :: p) = .ok x ↔
    ∃ w, (key, w) ∈ t.entries .unrestricted v ∧ t.child v [] key = .ok w ∧
      t.resolve w p = .ok x := by
  unfold resolve
  rw [resolveFrom_cons_eq_ok]
  constructor
  · intro h
    obtain ⟨w, hw, hx⟩ := h
    obtain ⟨c, hc, hk⟩ := child_eq_ok.mp hw
    obtain ⟨before, after, hs⟩ := Children.split_of_child? hk
    refine ⟨w, mem_entries.mpr ⟨c, hc, by simp [hs]⟩, hw, resolveFrom_eq_ok.mp hx⟩
  · intro h
    obtain ⟨w, -, hw, hx⟩ := h
    exact ⟨w, hw, resolveFrom_eq_ok.mpr hx⟩

/-- Looking up a joined path is looking up its parts one after the other. -/
theorem resolve_append_eq_ok : t.resolve v (p ++ q) = .ok x ↔
    ∃ w, t.resolve v p = .ok w ∧ t.resolve w q = .ok x := by
  induction p generalizing v with
  | nil => simp [resolve_nil]
  | cons key p ih =>
    rw [List.cons_append, resolve_cons_eq_ok]
    constructor
    · intro h
      obtain ⟨u, he, hu, hx⟩ := h
      obtain ⟨w, hw, hx⟩ := ih.mp hx
      exact ⟨w, resolve_cons_eq_ok.mpr ⟨u, he, hu, hw⟩, hx⟩
    · intro h
      obtain ⟨w, hw, hx⟩ := h
      obtain ⟨u, he, hu, hw⟩ := resolve_cons_eq_ok.mp hw
      exact ⟨u, he, hu, ih.mpr ⟨w, hw, hx⟩⟩

/-! ## Found paths are listed -/

theorem mem_outline_of_resolve {depth : Nat} (hg : t.Grounded v) (hs : t.span v ≤ depth)
    (h : t.resolve v p = .ok x) : (p, x) ∈ t.outline .unrestricted depth v := by
  induction depth generalizing v p with
  | zero =>
    have := t.span_pos v
    omega
  | succ depth ih =>
    rw [outline_succ]
    cases p with
    | nil =>
      rw [resolve_nil] at h
      simp [Except.ok.inj h]
    | cons key p =>
      obtain ⟨w, he, -, hx⟩ := resolve_cons_eq_ok.mp h
      have hlt : t.span w < t.span v := hg.span_lt he
      have hgw : t.Grounded w := hg.entry he
      have hmem := ih hgw (by omega) hx
      apply List.mem_cons_of_mem
      refine List.mem_flatMap.mpr ⟨(key, w), he, ?_⟩
      exact List.mem_map.mpr ⟨(p, x), hmem, rfl⟩

/-- A path that is found is one of the positions. -/
theorem mem_listing_of_resolve (hg : t.Grounded v) (h : t.resolve v p = .ok x) :
    (p, x) ∈ t.listing v .unrestricted :=
  mem_outline_of_resolve hg (t.span_le_reach v) h

/-! ## Found nodes are held -/

theorem beneath_of_resolve (h : t.resolve v p = .ok w) (hid : t.Beneath w id) :
    t.Beneath v id := by
  induction p generalizing v with
  | nil =>
    rw [resolve_nil] at h
    exact Except.ok.inj h ▸ hid
  | cons key p ih =>
    obtain ⟨u, he, -, hw⟩ := resolve_cons_eq_ok.mp h
    exact beneath_of_entry he (ih hw)

/-- What is found inside a node and is not the node itself holds only nodes below it. -/
theorem below_of_resolve {a : NodeId} (h : t.resolve (.node a) p = .ok w) (hne : w ≠ .node a)
    (hid : t.Beneath w id) : t.Below a id := by
  cases p with
  | nil =>
    rw [resolve_nil] at h
    exact absurd (Except.ok.inj h).symm hne
  | cons key p =>
    obtain ⟨u, he, -, hw⟩ := resolve_cons_eq_ok.mp h
    have hu := beneath_of_resolve hw hid
    rcases entry_cases he with ⟨items, hv, -⟩ | ⟨d, hv, -⟩ | ⟨b, n, hv, hn, hfield⟩
    · cases hv
    · cases hv
    · cases hv
      exact below_of_field hn hfield hu

/-- A node that is found from another one lies at or below it. -/
theorem reaches_of_resolve {a : NodeId} (h : t.resolve (.node a) p = .ok (.node id)) :
    ReflTransGen t.Holds a id :=
  beneath_node.mp (beneath_of_resolve h (beneath_node.mpr .refl))

/-- A held node is found under the path it is held at. -/
theorem resolve_of_held {n : Node} {c : NodeId} (hn : t.get? id = some n) (hd : n.Distinct)
    (h : (p, c) ∈ n.heldNodes) : t.resolve (.node id) p = .ok (.node c) := by
  obtain ⟨name, rest, i, v, rfl, hfield, hl⟩ := Node.leads_of_mem_heldNodes hd h
  exact resolve_of_field hn hd hfield hl

/-- A path that leads to a node passes through the node that holds it, unless the value it starts
from holds it itself. What is left of the path is the one it is held at. -/
theorem holder_of_resolve (h : t.resolve v p = .ok (.node id)) :
    (p, id) ∈ v.heldNodes [] ∨ ∃ a n above path, p = above ++ path ∧
      t.resolve v above = .ok (.node a) ∧ t.get? a = some n ∧ (path, id) ∈ n.heldNodes := by
  induction p generalizing v with
  | nil =>
    rw [resolve_nil] at h
    rw [Except.ok.inj h]
    exact .inl (by simp [Value.heldNodes])
  | cons key p ih =>
    obtain ⟨w, he, hw, hp⟩ := resolve_cons_eq_ok.mp h
    rcases ih hp with hheld | ⟨a, n, above, path, rfl, habove, hn, hheld⟩
    · have hkey : (key :: p, id) ∈ w.heldNodes [key] := by
        rw [Value.heldNodes_eq_map]
        exact List.mem_map.mpr ⟨(p, id), hheld, rfl⟩
      -- The first key is followed from a node, which is then the holder, or from a list or map.
      cases hv : v.asNode? with
      | some a =>
        obtain rfl := Value.eq_node hv
        obtain ⟨c, hc, he⟩ := mem_entries.mp he
        obtain ⟨n, hn, rfl⟩ := Option.map_eq_some_iff.mp hc
        refine .inr ⟨a, n, [], key :: p, rfl, resolve_nil t _, hn, ?_⟩
        rw [n.heldNodes_eq_entries]
        exact List.mem_flatMap.mpr ⟨(key, w), he, hkey⟩
      | none =>
        have hclosed : (key, w) ∈ t.entries .nodeBoundary v := by
          cases v <;> simp_all [entries, expand?, Value.asNode?]
        left
        rw [heldNodes_of_entries t hv]
        exact List.mem_flatMap.mpr ⟨(key, w), hclosed, hkey⟩
    · refine .inr ⟨a, n, key :: above, path, rfl, ?_, hn, hheld⟩
      exact resolve_cons_eq_ok.mpr ⟨w, he, hw, habove⟩

end Tree

end Trellis
