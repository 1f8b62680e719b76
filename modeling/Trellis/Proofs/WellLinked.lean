import Trellis.Linkage
import Trellis.Proofs.Below

/-!
# True linkage

`Tree.WellLinked` says that what the nodes of a tree record about their places and neighbours is
true. Ownership is a forest of known nodes with distinct names; a recorded parent holds the node at
the recorded path; the nodes that one node holds are all attached or all unattached; and every link
that is known leads to the true neighbour and is known from both ends. Parent and path are one
`Attachment`, so a node has both or neither.

Names are distinct in the maps that a node holds and in the field list of its kind. Without that a
recorded path can lead to another entry, since a name is looked up where it first occurs: the search
for a neighbour does not get past a repeated name, and removing and replacing change the entry that
the name is found at.
-/

namespace Trellis

/-- The neighbour on one side of a place in a list, from what stands before and after it. -/
def Side.neighbour : Side → List NodeId → List NodeId → Option NodeId
  | .prev, before, _ => before.getLast?
  | .next, _, after => after.head?

theorem Side.mem_of_neighbour (side : Side) {before after : List NodeId} {x : NodeId}
    (h : side.neighbour before after = some x) : x ∈ before ++ after := by
  cases side with
  | prev => exact List.mem_append_left _ (List.mem_of_getLast? h)
  | next => exact List.mem_append_right _ (List.mem_of_head? h)

namespace Tree

/-- The recorded parent of a node. -/
def parentOf? (t : Tree) (id : NodeId) : Option NodeId := (t.get? id).bind Node.parent?

/-- Every held node is known and held at one place only, and no node lies below itself. -/
structure Forest (t : Tree) : Prop where
  known : ∀ {a b : NodeId}, t.Holds a b → ∃ n, t.get? b = some n
  held_once : ∀ {id : NodeId} {n : Node}, t.get? id = some n → n.held.Nodup
  one_holder : ∀ {a b c : NodeId}, t.Holds a c → t.Holds b c → a = b
  acyclic : ∀ id : NodeId, ¬ t.Below id id

structure WellLinked (t : Tree) : Prop extends Forest t where
  distinct : ∀ {id : NodeId} {n : Node}, t.get? id = some n → n.Distinct
  /-- A recorded parent lists the node at the recorded path. -/
  attached : ∀ {id : NodeId} {n : Node} {a : Attachment}, t.get? id = some n →
    n.attachment = some a → ∃ p, t.get? a.parent = some p ∧ (a.path, id) ∈ p.heldNodes
  /-- The nodes held by one node all record it as their parent, or none has a parent. -/
  uniform : ∀ {id : NodeId} {n : Node}, t.get? id = some n →
    (∀ c ∈ n.held, t.parentOf? c = some id) ∨ (∀ c ∈ n.held, t.parentOf? c = none)
  /-- A node without a parent knows nothing of neighbours. -/
  loose : ∀ {id : NodeId} {n : Node}, t.get? id = some n → n.attachment = none →
    ∀ side, n.link side = .unknown
  /-- A known link of an attached node is true. -/
  linked : ∀ {id : NodeId} {n p : Node} {a : Attachment} {before after : List NodeId},
    t.get? id = some n → n.attachment = some a → t.get? a.parent = some p →
    p.held = before ++ id :: after → ∀ side, n.link side ≠ .unknown →
    n.link side = .ofOption (side.neighbour before after)
  /-- Links are known from both ends. -/
  paired : ∀ {a b : NodeId} {m n : Node}, t.get? a = some m → t.get? b = some n →
    (m.next = .to b ↔ n.prev = .to a)

variable {t : Tree} {id : NodeId} {n : Node}

/-! ## Changing one node -/

theorem get?_update (t : Tree) (id x : NodeId) (f : Node → Node) :
    (t.update id f).get? x = if id = x then (t.get? x).map f else t.get? x := by
  have h : id.number = x.number ↔ id = x := by
    constructor
    · intro h; cases id; cases x; simpa using h
    · rintro rfl; rfl
  simp only [get?, update, Array.getElem?_modify, h]

theorem get?_update_self (t : Tree) (id : NodeId) (f : Node → Node) :
    (t.update id f).get? id = (t.get? id).map f := by
  rw [get?_update, if_pos rfl]

theorem get?_update_of_ne {x : NodeId} (h : id ≠ x) (f : Node → Node) :
    (t.update id f).get? x = t.get? x := by
  rw [get?_update, if_neg h]

theorem ext_get? {t t' : Tree} (h : ∀ x, t.get? x = t'.get? x) : t = t' := by
  obtain ⟨nodes⟩ := t
  obtain ⟨nodes'⟩ := t'
  exact congrArg Tree.mk (Array.ext_getElem? fun i => h ⟨i⟩)

/-- Trees that know the same nodes have as many. -/
theorem nesting_congr {t t' : Tree} (h : ∀ x, t'.get? x = none ↔ t.get? x = none) :
    t'.nesting = t.nesting := by
  have hsize : ∀ {t t' : Tree}, (∀ x, t.get? x = none → t'.get? x = none) → t'.size ≤ t.size := by
    intro t t' h
    have hnone : t.get? ⟨t.size⟩ = none := Array.getElem?_eq_none (Nat.le_refl _)
    exact Array.getElem?_eq_none_iff.mp (h ⟨t.size⟩ hnone)
  exact congrArg (· + 1) (Nat.le_antisymm (hsize fun x => (h x).mpr) (hsize fun x => (h x).mp))

theorem update_congr {f g : Node → Node} (h : ∀ n, t.get? id = some n → f n = g n) :
    t.update id f = t.update id g := by
  refine ext_get? fun x => ?_
  rw [get?_update, get?_update]
  split
  · rename_i hx
    subst hx
    cases hn : t.get? id with
    | none => rfl
    | some n => rw [Option.map_some, Option.map_some, h n hn]
  · rfl

theorem update_eq_self {f : Node → Node} (h : ∀ n, t.get? id = some n → f n = n) :
    t.update id f = t := by
  rw [update_congr (g := fun n => n) h]
  refine ext_get? fun x => ?_
  rw [get?_update]
  split
  · exact Option.map_id_apply
  · rfl

theorem get_of_get? (h : t.get? id = some n) : t.get id = .ok n := by
  simp [get, h]

theorem get_of_get?_none (h : t.get? id = none) : t.get id = .error (.unknownNode id) := by
  simp [get, h]

theorem childNodesWithPaths_eq (h : t.get? id = some n) :
    t.childNodesWithPaths id = .ok n.heldNodes := by
  simp [childNodesWithPaths, get_of_get? h, bind, Except.bind, pure, Except.pure]

theorem heldNodes_of_childNodesWithPaths {listed : List (Path × NodeId)}
    (h : t.childNodesWithPaths id = .ok listed) : ∃ n, t.get? id = some n ∧ n.heldNodes = listed := by
  cases hn : t.get? id with
  | none => simp [childNodesWithPaths, get_of_get?_none hn, bind, Except.bind] at h
  | some n => exact ⟨n, rfl, Except.ok.inj ((childNodesWithPaths_eq hn).symm.trans h)⟩

theorem childNodes_eq (h : t.get? id = some n) : t.childNodes id = .ok n.held := by
  simp [childNodes, childNodesWithPaths_eq h, Node.held, bind, Except.bind, pure, Except.pure]

/-! ## Consequences -/

theorem Forest.get?_held (hf : t.Forest) {c : NodeId} (hn : t.get? id = some n)
    (hc : c ∈ n.held) : ∃ m, t.get? c = some m :=
  hf.known ⟨n, hn, hc⟩

theorem Forest.ne_of_holds (hf : t.Forest) {a b : NodeId} (h : t.Holds a b) : a ≠ b := by
  rintro rfl
  exact hf.acyclic a (.single h)

/-- What lies below a node is not held beside it, and is neither the node nor its holder. -/
theorem Forest.apart_of_below (hf : t.Forest) {parent x : NodeId} {p : Node}
    (hp : t.get? parent = some p) (hid : id ∈ p.held) (hx : t.Below id x) :
    x ≠ id ∧ x ≠ parent ∧ x ∉ p.held := by
  have hholds : t.Holds parent id := ⟨p, hp, hid⟩
  refine ⟨?_, ?_, ?_⟩
  · rintro rfl
    exact hf.acyclic _ hx
  · rintro rfl
    exact hf.acyclic id (hx.tail hholds)
  · intro hxp
    obtain ⟨b, hb, hbx⟩ := Relation.TransGen.tail'_iff.mp hx
    have hparent : b = parent := hf.one_holder hbx ⟨p, hp, hxp⟩
    exact hf.acyclic id (Relation.TransGen.tail' (hparent ▸ hb) hholds)

namespace WellLinked

variable {a : Attachment}

theorem walkable (hl : t.WellLinked) {v : Value} (hv : v.Distinct) : t.Walkable v where
  grounded := fun id _ => hl.acyclic id
  distinct := ⟨hv, fun _ _ _ hn => hl.distinct hn⟩

/-- The place of an attached node among the nodes that its parent holds. -/
theorem place (hl : t.WellLinked) (hn : t.get? id = some n) (ha : n.attachment = some a) :
    ∃ p before after, t.get? a.parent = some p ∧ p.heldNodes = before ++ (a.path, id) :: after := by
  obtain ⟨p, hp, hm⟩ := hl.attached hn ha
  obtain ⟨before, after, h⟩ := List.append_of_mem hm
  exact ⟨p, before, after, hp, h⟩

theorem holds_parent (hl : t.WellLinked) (hn : t.get? id = some n) (ha : n.attachment = some a) :
    t.Holds a.parent id := by
  obtain ⟨p, hp, hm⟩ := hl.attached hn ha
  exact ⟨p, hp, List.mem_map_of_mem (f := (·.2)) hm⟩

/-- The nodes held by the parent of an attached node are all attached to it. -/
theorem parentOf?_held (hl : t.WellLinked) {p : Node} (hn : t.get? id = some n)
    (ha : n.attachment = some a) (hp : t.get? a.parent = some p) :
    ∀ c ∈ p.held, t.parentOf? c = some a.parent := by
  rcases hl.uniform hp with h | h
  · exact h
  · obtain ⟨p', hp', hm⟩ := hl.attached hn ha
    obtain rfl : p' = p := Option.some.inj (hp'.symm.trans hp)
    have := h id (List.mem_map_of_mem (f := (·.2)) hm)
    simp [parentOf?, hn, Node.parent?, ha] at this

end WellLinked

end Tree

end Trellis
