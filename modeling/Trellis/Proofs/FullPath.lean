import Trellis.Proofs.Resolving
import Trellis.Proofs.Stamping

/-!
# Paths from the topmost node

Every attached node records one stretch of the way to it: the node that holds it, and the path from
there. Following these records upwards ends, because nodes that hold lie above what they hold and no
node lies below itself. Joined in order, the stretches are the path at which the node is found from
the topmost one, and there is no other such path.

What is known of neighbours does not matter here, and unattached nodes may well be held: following
the records then stops at them.
-/

namespace Trellis

open Relation (ReflTransGen TransGen)

namespace Tree

variable {t : Tree} {id root : NodeId} {n : Node} {path q : Path}

/-- Ownership is a forest of known nodes with distinct names, and every recorded place is true. -/
structure WellPlaced (t : Tree) : Prop extends Forest t where
  distinct : ∀ {id : NodeId} {n : Node}, t.get? id = some n → n.Distinct
  attached : ∀ {id : NodeId} {n : Node} {a : Attachment}, t.get? id = some n →
    n.attachment = some a → ∃ p, t.get? a.parent = some p ∧ (a.path, id) ∈ p.heldNodes

theorem WellLinked.wellPlaced (hl : t.WellLinked) : t.WellPlaced :=
  { hl.toForest with distinct := hl.distinct, attached := hl.attached }

/-! ## Following records upwards -/

/-- By what is recorded, `id` stands at `path` below `root`, and `root` stands nowhere. -/
inductive Situated (t : Tree) (root : NodeId) : (path : Path) → (id : NodeId) → Prop where
  | top {n : Node} : t.get? root = some n → n.attachment = none → Situated t root [] root
  | under {id : NodeId} {above : Path} {n : Node} {a : Attachment} :
    t.get? id = some n → n.attachment = some a → Situated t root above a.parent →
    Situated t root (above ++ a.path) id

theorem Situated.top_unattached (h : t.Situated root path id) :
    ∃ r, t.get? root = some r ∧ r.attachment = none := by
  induction h with
  | top hn ha => exact ⟨_, hn, ha⟩
  | under _ _ _ ih => exact ih

/-- There is one way up. -/
theorem Situated.unique {root' : NodeId} {path' : Path} (h : t.Situated root path id)
    (h' : t.Situated root' path' id) : root = root' ∧ path = path' := by
  induction h generalizing path' with
  | top hn ha =>
    cases h' with
    | top _ _ => exact ⟨rfl, rfl⟩
    | under hm hma _ =>
      obtain rfl := Option.some.inj (hn.symm.trans hm)
      rw [ha] at hma
      cases hma
  | under hn ha _ ih =>
    cases h' with
    | top hm hma =>
      obtain rfl := Option.some.inj (hn.symm.trans hm)
      rw [ha] at hma
      cases hma
    | under hm hma h' =>
      obtain rfl := Option.some.inj (hn.symm.trans hm)
      obtain rfl := Option.some.inj (ha.symm.trans hma)
      obtain ⟨hroot, habove⟩ := ih h'
      exact ⟨hroot, by rw [habove]⟩

/-- Where records lead upwards along `Holds`, following them ends within the budget: the number of
nodes below rises with every step. `P` says which nodes are met. -/
theorem situated_of_upward {P : NodeId → Prop} (hac : ∀ x, P x → ¬ t.Below x x)
    (hup : ∀ x, P x → ∃ n, t.get? x = some n ∧
      ∀ a, n.attachment = some a → P a.parent ∧ t.Holds a.parent x)
    (hid : P id) : ∃ root path, P root ∧ t.Situated root path id ∧
      t.rootOf id = .ok root ∧ t.fullPath id = .ok path := by
  have climb : ∀ (fuel : Nat) (id : NodeId), P id → t.size - t.population id < fuel →
      ∃ root path, P root ∧ t.Situated root path id ∧
        t.rootOfFrom fuel id = .ok root ∧ t.fullPathFrom fuel id = .ok path := by
    intro fuel
    induction fuel with
    | zero => intro id _ hfuel; omega
    | succ fuel ih =>
      intro id hid hfuel
      obtain ⟨n, hn, hrec⟩ := hup id hid
      cases ha : n.attachment with
      | none =>
        refine ⟨id, [], hid, .top hn ha, ?_, ?_⟩
        · simp [rootOfFrom, get_of_get? hn, ha, bind, Except.bind, pure, Except.pure]
        · simp [fullPathFrom, get_of_get? hn, ha, bind, Except.bind, pure, Except.pure]
      | some a =>
        obtain ⟨hparent, hholds⟩ := hrec a ha
        have hlt := population_lt hholds hn (hac id hid)
        have hle : t.population a.parent < t.size + 1 := t.population_lt_nesting a.parent
        obtain ⟨root, above, hroot, hs, hr, hp⟩ := ih a.parent hparent (by omega)
        refine ⟨root, above ++ a.path, hroot, .under hn ha hs, ?_, ?_⟩
        · simp [rootOfFrom, get_of_get? hn, ha, hr, bind, Except.bind]
        · simp [fullPathFrom, get_of_get? hn, ha, hp, bind, Except.bind, pure, Except.pure]
  have hpos : t.size - t.population id < t.nesting := by
    show t.size - t.population id < t.size + 1
    omega
  exact climb t.nesting id hid hpos

/-- Every node of a well-placed tree is situated, and `rootOf` and `fullPath` say where. -/
theorem WellPlaced.situated (hw : t.WellPlaced) (hn : t.get? id = some n) :
    ∃ root path, t.Situated root path id ∧ t.rootOf id = .ok root ∧ t.fullPath id = .ok path := by
  have hup : ∀ x, (∃ n, t.get? x = some n) → ∃ n, t.get? x = some n ∧
      ∀ a, n.attachment = some a → (∃ p, t.get? a.parent = some p) ∧ t.Holds a.parent x := by
    intro x hx
    obtain ⟨m, hm⟩ := hx
    refine ⟨m, hm, ?_⟩
    intro a ha
    obtain ⟨p, hp, hmem⟩ := hw.attached hm ha
    exact ⟨⟨p, hp⟩, p, hp, List.mem_map_of_mem (f := (·.2)) hmem⟩
  obtain ⟨root, path, -, h⟩ := situated_of_upward (fun x _ => hw.acyclic x) hup ⟨n, hn⟩
  exact ⟨root, path, h⟩

/-! ## The joined path -/

/-- The joined path leads from the topmost node to the node itself. -/
theorem Situated.resolve (hw : t.WellPlaced) (h : t.Situated root path id) :
    t.resolve (.node root) path = .ok (.node id) := by
  induction h with
  | top hn ha => exact resolve_nil t _
  | under hn ha _ ih =>
    obtain ⟨p, hp, hm⟩ := hw.attached hn ha
    exact resolve_append_eq_ok.mpr ⟨_, ih, resolve_of_held hp (hw.distinct hp) hm⟩

/-- No other path leads from the topmost node to the node. -/
theorem Situated.path_unique (hw : t.WellPlaced) (h : t.Situated root path id)
    (hq : t.resolve (.node root) q = .ok (.node id)) : q = path := by
  induction h generalizing q with
  | top hn ha =>
    rcases holder_of_resolve hq with hheld | ⟨holder, m, above, r, -, habove, hm, hheld⟩
    · simpa [Value.heldNodes] using hheld
    · -- A longer path would lead from the node back to itself.
      have hholds : t.Holds holder root := ⟨m, hm, List.mem_map_of_mem (f := (·.2)) hheld⟩
      exact absurd (TransGen.tail' (reaches_of_resolve habove) hholds) (hw.acyclic root)
  | @under id above n a hn ha hs ih =>
    obtain ⟨p, hp, hm⟩ := hw.attached hn ha
    rcases holder_of_resolve hq with hheld | ⟨holder, m, above', r, rfl, habove, hm', hheld⟩
    · obtain ⟨-, rfl⟩ : q = [] ∧ id = root := by simpa [Value.heldNodes] using hheld
      obtain ⟨r, hr, hnone⟩ := hs.top_unattached
      obtain rfl : n = r := Option.some.inj (hn.symm.trans hr)
      rw [hnone] at ha
      cases ha
    · -- Only the recorded parent holds the node, and only at the recorded path.
      obtain rfl : holder = a.parent := hw.one_holder
        ⟨m, hm', List.mem_map_of_mem (f := (·.2)) hheld⟩
        ⟨p, hp, List.mem_map_of_mem (f := (·.2)) hm⟩
      obtain rfl : m = p := Option.some.inj (hm'.symm.trans hp)
      rw [hw.toForest.path_unique hp hheld hm, ih habove]

theorem WellPlaced.walkable (hw : t.WellPlaced) (id : NodeId) : t.Walkable (.node id) where
  grounded := fun x _ => hw.acyclic x
  distinct := ⟨trivial, fun _ _ _ hn => hw.distinct hn⟩

/-- Following the recorded places of any node upwards ends at a node that is not attached. The path
joined on the way leads from there back to the node, it is the only path at which the pre-order
cursor hands the node out, and no other node with the same topmost node has it. -/
theorem full_paths_lead_back (hw : t.WellPlaced) :
    (∀ id n, t.get? id = some n → ∃ root path listed,
      t.rootOf id = .ok root ∧ t.fullPath id = .ok path ∧
      (∃ r, t.get? root = some r ∧ r.attachment = none) ∧
      t.resolve (.node root) path = .ok (.node id) ∧
      Yields (t.pathsNext? .unrestricted) [([], .node root)] listed ∧
      ∀ q, (q, .node id) ∈ listed ↔ q = path) ∧
    ∀ a b root path, t.rootOf a = .ok root → t.rootOf b = .ok root →
      t.fullPath a = .ok path → t.fullPath b = .ok path → a = b := by
  have found : ∀ {id root path}, t.rootOf id = .ok root → t.fullPath id = .ok path →
      t.resolve (.node root) path = .ok (.node id) := by
    intro id root path hroot hpath
    cases hn : t.get? id with
    | none =>
      simp [rootOf, nesting, rootOfFrom, get_of_get?_none hn, bind, Except.bind] at hroot
    | some n =>
      obtain ⟨root', path', hs, hr, hp⟩ := hw.situated hn
      obtain rfl : root' = root := Except.ok.inj (hr.symm.trans hroot)
      obtain rfl : path' = path := Except.ok.inj (hp.symm.trans hpath)
      exact hs.resolve hw
  constructor
  · intro id n hn
    obtain ⟨root, path, hs, hroot, hpath⟩ := hw.situated hn
    have hwalk := hw.walkable root
    refine ⟨root, path, t.listing (.node root) .unrestricted, hroot, hpath, hs.top_unattached,
      hs.resolve hw, yields_listing hwalk.grounded (t.span_le_reach _), ?_⟩
    intro q
    constructor
    · intro hq
      exact hs.path_unique hw (resolve_of_mem_listing hwalk hq)
    · intro hq
      rw [hq]
      exact mem_listing_of_resolve hwalk.grounded (hs.resolve hw)
  · intro a b root path ha hb hpa hpb
    have h := (found ha hpa).symm.trans (found hb hpb)
    simpa using h

/-- A block whose list holds a pair behind a number; the pair holds a leaf in a map. All of them are
attached, and only the pair knows that nothing follows it. -/
def threeLevels : Tree where
  nodes := #[
    { kind := ⟨"Leaf", []⟩, fields := [], arity := Node.arity_leaf,
      attachment := some ⟨⟨1⟩, [.name "second", .name "x"]⟩ },
    { kind := ⟨"Pair", ["first", "second"]⟩, fields := [.null, .map ⟨[("x", .node ⟨0⟩)]⟩],
      arity := rfl, attachment := some ⟨⟨2⟩, [.name "body", .index 1]⟩, next := .absent },
    { kind := ⟨"Block", ["body"]⟩, fields := [.list [.int 5, .node ⟨1⟩]], arity := rfl }]

theorem full_paths_lead_back_threeLevels :
    threeLevels.WellPlaced ∧ threeLevels.rootOf ⟨0⟩ = .ok ⟨2⟩ ∧
    threeLevels.fullPath ⟨0⟩ = .ok [.name "body", .index 1, .name "second", .name "x"] ∧
    threeLevels.resolve (.node ⟨2⟩) [.name "body", .index 1, .name "second", .name "x"] =
      .ok (.node ⟨0⟩) := by
  have hl : threeLevels.WellLinked := Descending.wellLinked (by decide) (by decide)
  have hroot : threeLevels.rootOf ⟨0⟩ = .ok ⟨2⟩ := by decide
  have hpath : threeLevels.fullPath ⟨0⟩ =
      .ok [.name "body", .index 1, .name "second", .name "x"] := by decide
  obtain ⟨root, path, -, hr, hp, -, hres, -⟩ :=
    (full_paths_lead_back hl.wellPlaced).1 ⟨0⟩ _ rfl
  obtain rfl := Except.ok.inj (hroot.symm.trans hr)
  obtain rfl := Except.ok.inj (hpath.symm.trans hp)
  exact ⟨hl.wellPlaced, hroot, hpath, hres⟩

end Tree

end Trellis
