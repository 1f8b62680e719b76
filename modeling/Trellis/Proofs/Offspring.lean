import Trellis.Proofs.Linking
import Trellis.Proofs.Search

/-!
# The nodes below a node

`Tree.offspring` lists what lies below a node by going from node to node: every held node, and after
it whatever lies below it, with the paths from the starting node. The pre-order cursors go through
lists and maps one position at a time, and the nodes among the positions they hand out are the same
in the same order. So `Tree.descendants` lists the offspring.

A shared node is listed once for each way to it, and a name may repeat: the paths are what the cursors
hand out, whether looking up leads there or not.
-/

namespace Trellis

open Relation (ReflTransGen TransGen)

namespace Tree

variable {t t' : Tree} {a c d root : NodeId} {n : Node} {v : Value} {path : Path}
  {fuel depth : Nat} {rank : NodeId → Nat}

/-- What lies below a node, in pre-order with the paths from it, down to a depth in nodes. -/
def offspring (t : Tree) : Nat → NodeId → List (Path × NodeId)
  | 0, _ => []
  | depth + 1, id =>
    match t.get? id with
    | none => []
    | some n => n.heldNodes.flatMap fun e =>
      e :: (t.offspring depth e.2).map fun x => (e.1 ++ x.1, x.2)

/-- A held node, and after it what lies below it. -/
def branch (t : Tree) (depth : Nat) (e : Path × NodeId) : List (Path × NodeId) :=
  e :: (t.offspring depth e.2).map fun x => (e.1 ++ x.1, x.2)

theorem offspring_succ (hn : t.get? a = some n) (depth : Nat) :
    t.offspring (depth + 1) a = n.heldNodes.flatMap (t.branch depth) := by
  simp only [offspring, hn]
  rfl

theorem offspring_unknown (hn : t.get? a = none) (depth : Nat) : t.offspring depth a = [] := by
  cases depth with
  | zero => rfl
  | succ depth => simp [offspring, hn]

theorem branch_start (t : Tree) (depth : Nat) (id : NodeId) :
    t.branch depth ([], id) = ([], id) :: t.offspring depth id := by
  simp [branch]

theorem branch_append (t : Tree) (depth : Nat) (p : Path) (e : Path × NodeId) :
    t.branch depth (p ++ e.1, e.2) = (t.branch depth e).map fun x => (p ++ x.1, x.2) := by
  simp [branch]

theorem SameBodies.offspring_eq (h : t.SameBodies t') (depth : Nat) (id : NodeId) :
    t'.offspring depth id = t.offspring depth id := by
  induction depth generalizing id with
  | zero => rfl
  | succ depth ih =>
    cases hn : t'.get? id with
    | none =>
      have hn₀ : t.get? id = none := by simpa [hn] using (h id).symm
      rw [offspring_unknown hn, offspring_unknown hn₀]
    | some n =>
      obtain ⟨m, hm, hb⟩ := h.get? hn
      rw [offspring_succ hn, offspring_succ hm, Node.heldNodes_of_body hb]
      refine List.flatMap_congr fun e _ => ?_
      rw [branch, branch, ih]

theorem length_offspring_succ (hn : t.get? a = some n) (depth : Nat) :
    (t.offspring (depth + 1) a).length =
      n.heldNodes.length + (n.heldNodes.map fun e => (t.offspring depth e.2).length).sum := by
  rw [offspring_succ hn, List.length_flatMap]
  induction n.heldNodes with
  | nil => rfl
  | cons e rest ih =>
    simp only [List.map_cons, List.sum_cons, List.length_cons, branch, List.length_map] at ih ⊢
    omega

/-! ## Ways down -/

/-- From `a` one comes to `d` through held nodes, along a path joined from their paths. -/
inductive Way (t : Tree) : NodeId → Path → NodeId → Prop where
  | here (a : NodeId) : Way t a [] a
  | down {a c d : NodeId} {n : Node} {q rest : Path} : t.get? a = some n →
    (q, c) ∈ n.heldNodes → Way t c rest d → Way t a (q ++ rest) d

theorem exists_way (h : ReflTransGen t.Holds a d) : ∃ path, t.Way a path d := by
  induction h using ReflTransGen.head_induction_on with
  | refl => exact ⟨[], .here d⟩
  | head hac _ ih =>
    obtain ⟨n, hn, hc⟩ := hac
    obtain ⟨rest, hrest⟩ := ih
    obtain ⟨⟨q, c⟩, he, rfl⟩ := List.mem_map.mp hc
    exact ⟨q ++ rest, .down hn he hrest⟩

theorem below_of_mem_offspring (h : (path, d) ∈ t.offspring depth a) : t.Below a d := by
  induction depth generalizing a path with
  | zero => cases h
  | succ depth ih =>
    cases hn : t.get? a with
    | none =>
      rw [offspring_unknown hn] at h
      cases h
    | some n =>
      rw [offspring_succ hn] at h
      obtain ⟨e, he, hd⟩ := List.mem_flatMap.mp h
      have hholds : t.Holds a e.2 := ⟨n, hn, List.mem_map_of_mem (f := (·.2)) he⟩
      rcases List.mem_cons.mp hd with rfl | hd
      · exact .single hholds
      · obtain ⟨x, hx, heq⟩ := List.mem_map.mp hd
        obtain ⟨-, rfl⟩ := Prod.mk.inj heq
        exact .head hholds (ih hx)

/-- Every way down is listed, if the depth suffices. -/
theorem mem_offspring_of_way (h : t.Way a path d)
    (hrank : ∀ x y, ReflTransGen t.Holds a x → t.Holds x y → rank y < rank x)
    (hdepth : rank a < depth) : (path = [] ∧ d = a) ∨ (path, d) ∈ t.offspring depth a := by
  induction h generalizing depth with
  | here a => exact .inl ⟨rfl, rfl⟩
  | @down a c d n q rest hn he _ ih =>
    right
    obtain ⟨depth, rfl⟩ : ∃ k, depth = k + 1 := ⟨depth - 1, by omega⟩
    have hholds : t.Holds a c := ⟨n, hn, List.mem_map_of_mem (f := (·.2)) he⟩
    have hlt := hrank a c .refl hholds
    rw [offspring_succ hn]
    refine List.mem_flatMap.mpr ⟨(q, c), he, ?_⟩
    rcases ih (fun x y hx => hrank x y (.head hholds hx)) (by omega : rank c < depth) with
      ⟨rfl, rfl⟩ | hmem
    · simp [branch]
    · exact List.mem_cons_of_mem _ (List.mem_map.mpr ⟨(rest, d), hmem, rfl⟩)

/-! ## The nodes among the positions -/

/-- The nodes among the positions of a value are those it holds, each followed by what lies below
it. -/
theorem filterMap_nodeAt?_unrestricted (hg : t.Grounded v) (hs : t.span v ≤ depth)
    (hrank : ∀ x y, t.Beneath v x → t.Holds x y → rank y < rank x)
    (hfuel : ∀ x ∈ v.held, rank x < fuel) :
    (t.outline .unrestricted depth v).filterMap nodeAt? =
      (v.heldNodes []).flatMap (t.branch fuel) := by
  induction depth generalizing v fuel with
  | zero =>
    have := t.span_pos v
    omega
  | succ depth ih =>
    -- One level: below a key, the paths on both sides get the key in front.
    have level : ∀ k, ∀ e ∈ t.entries .unrestricted v, (∀ x ∈ e.2.held, rank x < k) →
        (under e.1 (t.outline .unrestricted depth e.2)).filterMap nodeAt? =
          (e.2.heldNodes [e.1]).flatMap (t.branch k) := by
      intro k e he hk
      have hlt := hg.span_lt he
      rw [filterMap_nodeAt?_under, ih (hg.entry he) (by omega)
        (fun x y hx => hrank x y (beneath_of_entry he hx)) hk, List.map_flatMap,
        Value.heldNodes_eq_map [e.1], List.flatMap_map]
      refine List.flatMap_congr fun x _ => ?_
      exact (t.branch_append k [e.1] x).symm
    rw [outline_succ, List.filterMap_cons, outlineEntries, List.filterMap_flatMap]
    cases hv : v.asNode? with
    | none =>
      have hnode : ∀ id, v ≠ .node id := by
        rintro id rfl
        cases hv
      simp only [nodeAt?, hv, Option.map_none]
      rw [heldNodes_of_entries t hv, entries_nodeBoundary hnode, List.flatMap_assoc]
      refine List.flatMap_congr fun e he => ?_
      refine level fuel e he fun x hx => hfuel x ?_
      rw [← Value.map_snd_heldNodes [], heldNodes_of_entries t hv, entries_nodeBoundary hnode,
        List.map_flatMap]
      refine List.mem_flatMap.mpr ⟨e, he, ?_⟩
      rwa [Value.map_snd_heldNodes]
    | some id =>
      obtain rfl := Value.eq_node hv
      have hid : rank id < fuel := hfuel id (by simp)
      obtain ⟨fuel, rfl⟩ : ∃ k, fuel = k + 1 := ⟨fuel - 1, by omega⟩
      simp only [nodeAt?, hv, Option.map_some, Value.heldNodes, List.flatMap_cons,
        List.flatMap_nil, List.append_nil, branch_start]
      congr 1
      cases hn : t.get? id with
      | none => simp [entries, expand?, hn, offspring_unknown hn]
      | some n =>
        have hent : t.entries .unrestricted (.node id) = n.children.entries := by
          simp [entries, expand?, hn]
        rw [offspring_succ hn, n.heldNodes_eq_entries, List.flatMap_assoc, hent]
        refine List.flatMap_congr fun e he => ?_
        refine level fuel e (hent ▸ he) fun x hx => ?_
        have hfield : e.2 ∈ n.fields := n.map_snd_entries ▸ List.mem_map_of_mem (f := (·.2)) he
        have hlt := hrank id x (beneath_node.mpr .refl) (holds_of_field hn hfield hx)
        omega

/-- The nodes among the positions below a root are the root and its offspring. -/
theorem filterMap_nodeAt?_listing (hg : t.Grounded (.node root))
    (hrank : ∀ x y, ReflTransGen t.Holds root x → t.Holds x y → rank y < rank x)
    (hfuel : rank root < fuel) :
    (t.listing (.node root) .unrestricted).filterMap nodeAt? =
      ([], root) :: t.offspring fuel root := by
  rw [listing, filterMap_nodeAt?_unrestricted hg (t.span_le_reach _)
    (fun x y hx => hrank x y (beneath_node.mp hx)) (by simpa using hfuel)]
  simp [Value.heldNodes, branch_start]

theorem mem_filterMap_nodeAt? {listed : List (Path × Value)} :
    (path, d) ∈ listed.filterMap nodeAt? ↔ (path, .node d) ∈ listed := by
  rw [List.mem_filterMap]
  constructor
  · rintro ⟨⟨q, w⟩, hx, heq⟩
    cases hw : w.asNode? with
    | none => simp [nodeAt?, hw] at heq
    | some id =>
      obtain rfl := Value.eq_node hw
      simp only [nodeAt?, hw, Option.map_some, Option.some.injEq, Prod.mk.injEq] at heq
      obtain ⟨rfl, rfl⟩ := heq
      exact hx
  · intro h
    exact ⟨(path, .node d), h, rfl⟩

/-! ## The cursor over nodes -/

/-- Skipping to the next node: the positions passed on the way are used up, so the budget lasts. -/
theorem nodeNext?_of_yields {stack values : List Value}
    (h : Yields (t.preorderNext? .unrestricted) stack values)
    (hfuel : Value.positionsItems stack < fuel) :
    (values.filterMap Value.asNode? = [] ∧ t.nodeNext? fuel stack = none) ∨
      ∃ id stack' values', t.nodeNext? fuel stack = some (id, stack') ∧
        Yields (t.preorderNext? .unrestricted) stack' values' ∧
        values.filterMap Value.asNode? = id :: values'.filterMap Value.asNode? := by
  induction h generalizing fuel with
  | @done stack hs =>
    obtain ⟨fuel, rfl⟩ : ∃ k, fuel = k + 1 := ⟨fuel - 1, by omega⟩
    exact .inl ⟨rfl, by simp [nodeNext?, hs]⟩
  | @item stack stack' v values hs hrest ih =>
    obtain ⟨fuel, rfl⟩ : ∃ k, fuel = k + 1 := ⟨fuel - 1, by omega⟩
    cases hv : v.asNode? with
    | some id =>
      obtain rfl := Value.eq_node hv
      exact .inr ⟨id, stack', values, by simp [nodeNext?, hs], hrest, by simp [Value.asNode?]⟩
    | none =>
      have hnode : ∀ id, v ≠ .node id := by
        rintro id rfl
        cases hv
      have hskip : t.nodeNext? (fuel + 1) stack = t.nodeNext? fuel stack' := by
        cases v <;> simp_all [nodeNext?]
      have hless : Value.positionsItems stack' < fuel := by
        cases stack with
        | nil => cases hs
        | cons u stack =>
          obtain ⟨rfl, rfl⟩ := Prod.mk.inj (Option.some.inj hs)
          have hsum := t.sum_positions_entries u
          rw [entries_nodeBoundary hnode] at hsum
          simp only [Value.positionsItems_eq, List.map_append, List.sum_append, List.map_map,
            List.map_cons, List.sum_cons] at hfuel ⊢
          have hcomp : (t.entries .unrestricted u).map (Value.positions ∘ fun e => e.2) =
              (t.entries .unrestricted u).map fun e => e.2.positions := rfl
          rw [hcomp]
          omega
      rw [hskip, List.filterMap_cons, hv]
      exact ih hless

/-- The cursor over nodes hands out the nodes among what the pre-order cursor hands out. -/
theorem yields_nodes {stack values : List Value}
    (h : Yields (t.preorderNext? .unrestricted) stack values) :
    Yields (fun stack => t.nodeNext? (Value.positionsItems stack + 1) stack) stack
      (values.filterMap Value.asNode?) := by
  generalize hids : values.filterMap Value.asNode? = ids
  induction ids generalizing stack values with
  | nil =>
    rcases nodeNext?_of_yields h (Nat.lt_succ_self _) with ⟨-, hnone⟩ | ⟨id, _, _, -, -, hcons⟩
    · exact .done hnone
    · rw [hids] at hcons
      cases hcons
  | cons id ids ih =>
    rcases nodeNext?_of_yields h (Nat.lt_succ_self _) with ⟨hnil, -⟩ | ⟨_, _, _, hnext, hy, hcons⟩
    · rw [hids] at hnil
      cases hnil
    · rw [hids] at hcons
      obtain ⟨rfl, htail⟩ := List.cons.inj hcons
      exact .item hnext (ih hy htail.symm)

/-- `descendants` lists the offspring. -/
theorem descendants_eq (hn : t.get? root = some n) (hg : t.Grounded (.node root))
    (hrank : ∀ x y, ReflTransGen t.Holds root x → t.Holds x y → rank y < rank x)
    (hfuel : rank root < fuel) (limit : Nat) :
    t.descendants root limit = .ok (((t.offspring fuel root).map (·.2)).take limit) := by
  have hids : ((t.listing (.node root) .unrestricted).map (·.2)).filterMap Value.asNode? =
      root :: (t.offspring fuel root).map (·.2) := by
    have hmap := congrArg (List.map (·.2)) (filterMap_nodeAt?_listing hg hrank hfuel)
    rw [List.map_filterMap] at hmap
    rw [List.filterMap_map]
    refine Eq.trans (List.filterMap_congr fun x _ => ?_) hmap
    cases hx : x.2.asNode? <;> simp [nodeAt?, hx]
  have hall : Yields (fun stack => t.nodeNext? (Value.positionsItems stack + 1) stack)
      [Value.node root] (root :: (t.offspring fuel root).map (·.2)) := by
    rw [← hids]
    exact yields_nodes (yields_values (yields_listing hg (t.span_le_reach (.node root))))
  -- The first node handed out is the root, and the rest of the stack is where `descendants` starts.
  cases hall with
  | item hfirst hrest =>
    have hstack : t.nodeNext? (Value.positionsItems [.node root] + 1) [.node root] =
        some (root, n.children.entries.map (·.2)) := by
      simp [nodeNext?, preorderNext?, entries, expand?, hn]
    obtain ⟨-, rfl⟩ := Prod.mk.inj (Option.some.inj (hstack.symm.trans hfirst))
    simp [descendants, get_of_get? hn, bind, Except.bind, pure, Except.pure,
      hrest.takeFrom_eq limit]

end Tree

end Trellis
