import Trellis.Proofs.Resolving

/-!
# Addresses are positions

Two readings of the same tree: the pre-order cursor hands out paths with values from a stack, and
looking up follows one path key by key. From a value from which every way down ends and no name
repeats they agree: the cursor that enters nodes hands out exactly the paths that are found, and
the cursor that does not enter them stops at the first node on each of these paths. Both list
their paths in the order `Tree.Precedes`, lexicographic by the place of a key in its container.

Nodes may be shared and may be unknown; an unknown one is found, and no path leads on from it.
-/

namespace Trellis

namespace Tree

variable {t : Tree} {mode : Expansion} {v w x : Value} {key : Key} {p q r : Path}

/-! ## The order of paths -/

/-- One path comes before another below `v`: it is cut short, or where the two part its key stands
earlier in the container. -/
inductive Precedes (t : Tree) : Value → Path → Path → Prop where
  | extension {v : Value} {key : Key} {rest : Path} : Precedes t v [] (key :: rest)
  | parting {v : Value} {c : Children} {j k : Key} {m n : Nat} {p q : Path} :
    t.expand? .unrestricted v = some c → c.position? j = some m → c.position? k = some n →
    m < n → Precedes t v (j :: p) (k :: q)
  | within {v w : Value} {c : Children} {key : Key} {p q : Path} :
    t.expand? .unrestricted v = some c → c.child? key = some w → Precedes t w p q →
    Precedes t v (key :: p) (key :: q)

theorem Precedes.ne (h : t.Precedes v p q) : p ≠ q := by
  induction h with
  | extension => simp
  | parting _ hj hk hlt =>
    intro heq
    obtain ⟨rfl, -⟩ := List.cons.inj heq
    have hmn := Option.some.inj (hj.symm.trans hk)
    omega
  | within _ _ _ ih =>
    intro heq
    exact ih (List.cons.inj heq).2

theorem Precedes.trans (h : t.Precedes v p q) (h' : t.Precedes v q r) : t.Precedes v p r := by
  induction h generalizing r with
  | extension =>
    cases h' with
    | parting _ _ _ _ => exact .extension
    | within _ _ _ => exact .extension
  | parting hc hj hk hlt =>
    cases h' with
    | parting hc' hk' hl hlt' =>
      obtain rfl := Option.some.inj (hc.symm.trans hc')
      have hmn := Option.some.inj (hk.symm.trans hk')
      exact .parting hc hj hl (by omega)
    | within _ _ _ => exact .parting hc hj hk hlt
  | within hc hw _ ih =>
    cases h' with
    | parting hc' hj hk hlt => exact .parting hc' hj hk hlt
    | within hc' hw' h' =>
      obtain rfl := Option.some.inj (hc.symm.trans hc')
      obtain rfl := Option.some.inj (hw.symm.trans hw')
      exact .within hc hw (ih h')

instance (t : Tree) (v : Value) : IsStrictOrder Path (t.Precedes v) where
  irrefl _ h := h.ne rfl
  trans _ _ _ := Precedes.trans

/-! ## Listed paths ascend -/

/-- Entries of a container stand in the order of their keys' positions, so everything listed below
one comes before everything listed below a later one. -/
theorem pairwise_outlineEntries {depth : Nat} {c : Children}
    (hc : t.expand? .unrestricted v = some c) (hd : c.Distinct)
    (below : ∀ e ∈ c.entries,
      (t.outline mode depth e.2).Pairwise fun x y => t.Precedes e.2 x.1 y.1) :
    (t.outlineEntries mode depth c.entries).Pairwise fun x y => t.Precedes v x.1 y.1 := by
  rw [outlineEntries, List.pairwise_flatMap]
  constructor
  · intro e he
    obtain ⟨earlier, later, hs⟩ := List.append_of_mem he
    have hchild := Children.child?_of_split hd hs
    rw [under, List.pairwise_map]
    apply (below e he).imp
    intro x y hxy
    exact .within hc hchild hxy
  · rw [List.pairwise_iff_getElem]
    intro i j hi hj hij x hx y hy
    obtain ⟨x', -, rfl⟩ := List.mem_map.mp hx
    obtain ⟨y', -, rfl⟩ := List.mem_map.mp hy
    have hpi := Children.position?_of_entry hd (List.getElem?_eq_getElem hi)
    have hpj := Children.position?_of_entry hd (List.getElem?_eq_getElem hj)
    exact .parting hc hpi hpj hij

theorem pairwise_outline {depth : Nat} (hd : t.DistinctBelow v) :
    (t.outline mode depth v).Pairwise fun x y => t.Precedes v x.1 y.1 := by
  induction depth generalizing v with
  | zero => exact List.pairwise_singleton _ _
  | succ depth ih =>
    rw [outline_succ, List.pairwise_cons]
    constructor
    · intro y hy
      obtain ⟨k, w, q, -, hp, -⟩ := mem_outlineEntries hy
      rw [hp]
      exact .extension
    · cases hc : t.expand? mode v with
      | none => simp [entries, hc]
      | some c =>
        have hu := expand?_unrestricted hc
        simp only [entries, hc]
        apply pairwise_outlineEntries hu (hd.children hu)
        intro e he
        exact ih (hd.entry (mem_entries.mpr ⟨c, hu, he⟩))

theorem pairwise_listing (hw : t.Walkable v) :
    ((t.listing v mode).map (·.1)).Pairwise (t.Precedes v) := by
  rw [List.pairwise_map]
  exact pairwise_outline hw.distinct

theorem nodup_listing (hw : t.Walkable v) : ((t.listing v mode).map (·.1)).Nodup :=
  (pairwise_listing hw).imp Precedes.ne

/-! ## Listed paths are found -/

theorem mem_listing (hw : t.Walkable v) :
    (p, x) ∈ t.listing v .unrestricted ↔ t.resolve v p = .ok x :=
  ⟨resolve_of_mem_listing hw, mem_listing_of_resolve hw.grounded⟩

theorem child_of_entry (hd : t.DistinctBelow v) (he : (key, w) ∈ t.entries .unrestricted v)
    (path : Path) : t.child v path key = .ok w := by
  obtain ⟨c, hc, hmem⟩ := mem_entries.mp he
  obtain ⟨earlier, later, hs⟩ := List.append_of_mem hmem
  exact child_of_split hc (hd.children hc) hs path

/-- A path that the closed cursor hands out meets no node before its end. -/
theorem node_of_mem_outline {depth : Nat} {id : NodeId} (hd : t.DistinctBelow v)
    (h : (p, x) ∈ t.outline .nodeBoundary depth v) (hq : q <+: p)
    (hid : t.resolve v q = .ok (.node id)) : q = p := by
  induction depth generalizing v p q with
  | zero =>
    obtain ⟨rfl, -⟩ : p = [] ∧ x = v := by simpa [outline] using h
    exact List.prefix_nil.mp hq
  | succ depth ih =>
    rw [outline_succ] at h
    rcases List.mem_cons.mp h with h | h
    · obtain ⟨rfl, -⟩ := Prod.mk.inj h
      exact List.prefix_nil.mp hq
    · obtain ⟨k, w, p', he, rfl, hx⟩ := mem_outlineEntries h
      rcases List.prefix_cons_iff.mp hq with rfl | ⟨q', rfl, hq'⟩
      · -- A node at the top would have had no entries.
        obtain rfl : v = .node id := Except.ok.inj hid
        simp [entries, expand?] at he
      · have hu := mem_entries_unrestricted he
        obtain ⟨w', -, hw', hid'⟩ := resolve_cons_eq_ok.mp hid
        obtain rfl : w' = w := Except.ok.inj (hw'.symm.trans (child_of_entry hd hu []))
        rw [ih (hd.entry hu) hx hq' hid']

/-- A path that is found and meets no node before its end is handed out by the closed cursor. -/
theorem mem_outline_of_open {depth : Nat} (hg : t.Grounded v) (hs : t.span v ≤ depth)
    (h : t.resolve v p = .ok x)
    (hopen : ∀ q id, q <+: p → t.resolve v q = .ok (.node id) → q = p) :
    (p, x) ∈ t.outline .nodeBoundary depth v := by
  induction depth generalizing v p with
  | zero =>
    have := t.span_pos v
    omega
  | succ depth ih =>
    rw [outline_succ]
    cases p with
    | nil =>
      obtain rfl : v = x := Except.ok.inj h
      exact List.mem_cons_self
    | cons key p =>
      obtain ⟨w, he, hw, hx⟩ := resolve_cons_eq_ok.mp h
      have hnode : ∀ id, v ≠ .node id := by
        intro id hv
        have hnil := hopen [] id List.nil_prefix (by rw [resolve_nil, hv])
        cases hnil
      have hlt : t.span w < t.span v := hg.span_lt he
      have hgw : t.Grounded w := hg.entry he
      have hmem : (p, x) ∈ t.outline .nodeBoundary depth w := by
        apply ih hgw (by omega) hx
        intro q id hq hid
        have hcons := hopen (key :: q) id (List.cons_prefix_cons.mpr ⟨rfl, hq⟩)
          (resolve_cons_eq_ok.mpr ⟨w, he, hw, hid⟩)
        exact (List.cons.inj hcons).2
      apply List.mem_cons_of_mem
      rw [entries_nodeBoundary hnode]
      exact List.mem_flatMap.mpr ⟨(key, w), he, List.mem_map.mpr ⟨(p, x), hmem, rfl⟩⟩

theorem mem_listing_nodeBoundary (hw : t.Walkable v) :
    (p, x) ∈ t.listing v .nodeBoundary ↔ t.resolve v p = .ok x ∧
      ∀ q id, q <+: p → t.resolve v q = .ok (.node id) → q = p := by
  constructor
  · intro h
    refine ⟨resolve_of_mem_listing hw h, ?_⟩
    intro q id hq hid
    exact node_of_mem_outline hw.distinct h hq hid
  · intro h
    exact mem_outline_of_open hw.grounded (t.span_le_reach v) h.1 h.2

/-- The paths that the cursor hands out are the paths that are found, each once, with the value it
is found with; the cursor that does not enter nodes hands out those of them that meet no node
before their end. Both list them in ascending order. -/
theorem addresses_are_positions (t : Tree) (root : Value) (hw : t.Walkable root) :
    ∃ listed closed : List (Path × Value),
      Yields (t.pathsNext? .unrestricted) [([], root)] listed ∧
      Yields (t.pathsNext? .nodeBoundary) [([], root)] closed ∧
      (∀ p x, (p, x) ∈ listed ↔ t.resolve root p = .ok x) ∧
      (∀ p x, (p, x) ∈ closed ↔ t.resolve root p = .ok x ∧
        ∀ q id, q <+: p → t.resolve root q = .ok (.node id) → q = p) ∧
      (listed.map (·.1)).Nodup ∧ (closed.map (·.1)).Nodup ∧
      (listed.map (·.1)).Pairwise (t.Precedes root) ∧
      (closed.map (·.1)).Pairwise (t.Precedes root) := by
  have hyields : ∀ mode, Yields (t.pathsNext? mode) [([], root)] (t.listing root mode) :=
    fun _ => yields_listing hw.grounded (t.span_le_reach root)
  refine ⟨t.listing root .unrestricted, t.listing root .nodeBoundary, hyields _, hyields _, ?_, ?_,
    nodup_listing hw, nodup_listing hw, pairwise_listing hw, pairwise_listing hw⟩
  · intro p x
    exact mem_listing hw
  · intro p x
    exact mem_listing_nodeBoundary hw

/-- A path through the pair in a list is listed; the closed cursor stops at the pair. -/
theorem addresses_are_positions_shared :
    shared.Walkable (.list [.node ⟨1⟩, .node ⟨7⟩]) ∧ ∃ listed closed : List (Path × Value),
      Yields (shared.pathsNext? .unrestricted) [([], .list [.node ⟨1⟩, .node ⟨7⟩])] listed ∧
      Yields (shared.pathsNext? .nodeBoundary) [([], .list [.node ⟨1⟩, .node ⟨7⟩])] closed ∧
      ([.index 0, .name "second", .name "a"], .node ⟨0⟩) ∈ listed ∧
      ([.index 0, .name "second", .name "a"], .node ⟨0⟩) ∉ closed ∧
      ([.index 1], .node ⟨7⟩) ∈ closed := by
  have hd : shared.Descending := by decide
  have hw : shared.Walkable (.list [.node ⟨1⟩, .node ⟨7⟩]) := hd.walkable (by decide)
  obtain ⟨listed, closed, hl, hc, hfound, hopen, -⟩ := addresses_are_positions shared _ hw
  refine ⟨hw, listed, closed, hl, hc, (hfound _ _).mpr (by decide), ?_, ?_⟩
  · intro hmem
    have hstop := ((hopen _ _).mp hmem).2 [.index 0] ⟨1⟩ ⟨_, rfl⟩ (by decide)
    exact absurd hstop (by decide)
  · apply (hopen _ _).mpr
    refine ⟨by decide, ?_⟩
    intro q id hq hid
    rcases List.prefix_cons_iff.mp hq with rfl | ⟨q', rfl, hq'⟩
    · exact absurd (Except.ok.inj hid) (by simp)
    · rw [List.prefix_nil.mp hq']

end Tree

end Trellis
