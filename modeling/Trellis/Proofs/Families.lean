import Trellis.Proofs.Rows

/-!
# Families

The nodes that one node holds form a family, and true linkage is a matter of families: within each,
either no node is attached, or all are attached at their places and their links form a `Row`.
Operations that touch one family leave the others as they are.
-/

namespace Trellis

namespace Tree

/-! ## What a tree records -/

/-- The recorded place of a node. -/
def attachmentOf? (t : Tree) (id : NodeId) : Option Attachment := (t.get? id).bind (·.attachment)

/-- What the nodes of a tree know of their neighbours. -/
def slots (t : Tree) : Slots := fun id side => ((t.get? id).map (·.link side)).getD .unknown

/-- A node that is not attached and knows nothing of neighbours. -/
def Unlinked (t : Tree) (id : NodeId) : Prop :=
  t.attachmentOf? id = none ∧ ∀ side, t.slots id side = .unknown

/-- The nodes held by `n`, the node called `id`, are all unlinked, or all are attached where they
are held and linked along. -/
def Family (t : Tree) (id : NodeId) (n : Node) : Prop :=
  (∀ c ∈ n.held, t.Unlinked c) ∨
  ((∀ e ∈ n.heldNodes, t.attachmentOf? e.2 = some ⟨id, e.1⟩) ∧ Row t.slots n.held)

variable {t t' : Tree} {id : NodeId} {n : Node}

theorem attachmentOf?_eq (h : t.get? id = some n) : t.attachmentOf? id = n.attachment := by
  simp [attachmentOf?, h]

theorem slots_eq (h : t.get? id = some n) (side : Side) : t.slots id side = n.link side := by
  simp [slots, h]

theorem attachmentOf?_congr (h : t'.get? id = t.get? id) :
    t'.attachmentOf? id = t.attachmentOf? id := by
  rw [attachmentOf?, h, attachmentOf?]

theorem slots_congr (h : t'.get? id = t.get? id) (side : Side) :
    t'.slots id side = t.slots id side := by
  simp only [slots, h]

theorem Unlinked.congr (hu : t.Unlinked id) (ha : t'.attachmentOf? id = t.attachmentOf? id)
    (hs : ∀ side, t'.slots id side = t.slots id side) : t'.Unlinked id :=
  ⟨ha.trans hu.1, fun side => (hs side).trans (hu.2 side)⟩

theorem parentOf?_eq (t : Tree) (id : NodeId) :
    t.parentOf? id = (t.attachmentOf? id).map (·.parent) := by
  cases h : t.get? id with
  | none => simp [parentOf?, attachmentOf?, h]
  | some n => simp [parentOf?, attachmentOf?, h, Node.parent?]

/-- A family whose members keep their records stays a family. -/
theorem Family.congr (hf : t.Family id n)
    (ha : ∀ c ∈ n.held, t'.attachmentOf? c = t.attachmentOf? c)
    (hs : ∀ c ∈ n.held, ∀ side, t'.slots c side = t.slots c side) : t'.Family id n := by
  rcases hf with h | ⟨hat, hrow⟩
  · exact .inl fun c hc => (h c hc).congr (ha c hc) (hs c hc)
  · refine .inr ⟨fun e he => ?_, hrow.congr hs⟩
    exact (ha e.2 (List.mem_map_of_mem (f := (·.2)) he)).trans (hat e he)

/-- A node is held at one path only. -/
theorem Forest.path_unique (hf : t.Forest) (hn : t.get? id = some n) {p q : Path} {c : NodeId}
    (hp : (p, c) ∈ n.heldNodes) (hq : (q, c) ∈ n.heldNodes) : p = q := by
  have h := List.inj_on_of_nodup_map (hf.held_once hn) hp hq rfl
  exact congrArg Prod.fst h

/-! ## Linkage by families -/

theorem WellLinked.family (hl : t.WellLinked) (hn : t.get? id = some n) : t.Family id n := by
  rcases hl.uniform hn with h | h
  · have hat : ∀ e ∈ n.heldNodes, t.attachmentOf? e.2 = some ⟨id, e.1⟩ := by
      intro e he
      have hpar := h e.2 (List.mem_map_of_mem (f := (·.2)) he)
      rw [parentOf?_eq] at hpar
      obtain ⟨a, ha, rfl⟩ := Option.map_eq_some_iff.mp hpar
      obtain ⟨m, hm, hma⟩ := Option.bind_eq_some_iff.mp ha
      obtain ⟨p, hp, hmem⟩ := hl.attached hm hma
      obtain rfl : p = n := Option.some.inj (hp.symm.trans hn)
      rw [ha, hl.toForest.path_unique hn he hmem]
    have hget : ∀ c ∈ n.held, ∃ m a, t.get? c = some m ∧ m.attachment = some a ∧ a.parent = id := by
      intro c hc
      obtain ⟨e, he, rfl⟩ := List.mem_map.mp hc
      obtain ⟨m, hm, hma⟩ := Option.bind_eq_some_iff.mp (hat e he)
      exact ⟨m, _, hm, hma, rfl⟩
    refine .inr ⟨hat, row_of_links ?_ ?_⟩
    · intro before c after hs side hk
      obtain ⟨m, a, hm, ha, rfl⟩ := hget c (by simp [hs])
      rw [slots_eq hm] at hk ⊢
      exact hl.linked hm ha hn hs side hk
    · intro before x y after hs
      obtain ⟨m, _, hm, -⟩ := hget x (by simp [hs])
      obtain ⟨k, _, hk, -⟩ := hget y (by simp [hs])
      rw [slots_eq hm, slots_eq hk]
      exact hl.paired hm hk
  · refine .inl fun c hc => ?_
    have hnone : t.attachmentOf? c = none := by simpa [parentOf?_eq] using h c hc
    obtain ⟨m, hm⟩ := hl.toForest.get?_held hn hc
    refine ⟨hnone, fun side => ?_⟩
    rw [slots_eq hm]
    exact hl.loose hm (attachmentOf?_eq hm ▸ hnone) side

/-- The family of an attached node is an attached one. -/
theorem WellLinked.attached_family (hl : t.WellLinked) {p : Node} {a : Attachment}
    (hn : t.get? id = some n) (ha : n.attachment = some a) (hp : t.get? a.parent = some p) :
    (∀ e ∈ p.heldNodes, t.attachmentOf? e.2 = some ⟨a.parent, e.1⟩) ∧ Row t.slots p.held := by
  refine (hl.family hp).resolve_left fun hun => ?_
  obtain ⟨q, hq, hm⟩ := hl.attached hn ha
  obtain rfl : q = p := Option.some.inj (hq.symm.trans hp)
  have hnone := (hun id (List.mem_map_of_mem (f := (·.2)) hm)).1
  rw [attachmentOf?_eq hn, ha] at hnone
  cases hnone

theorem WellLinked.unlinked (hl : t.WellLinked) (h : ∀ holder, ¬ t.Holds holder id) :
    t.Unlinked id := by
  cases hn : t.get? id with
  | none => exact ⟨by simp [attachmentOf?, hn], fun side => by simp [slots, hn]⟩
  | some n =>
    have hnone : n.attachment = none := by
      cases ha : n.attachment with
      | none => rfl
      | some a => exact absurd (hl.holds_parent hn ha) (h a.parent)
    refine ⟨(attachmentOf?_eq hn).trans hnone, fun side => ?_⟩
    rw [slots_eq hn]
    exact hl.loose hn hnone side

section OfFamilies

variable (family : ∀ {id : NodeId} {n : Node}, t.get? id = some n → t.Family id n)
  (unheld : ∀ id, (∀ holder, ¬ t.Holds holder id) → t.Unlinked id)

include family unheld in
/-- A node that is not unlinked is held, and its family is an attached one. -/
theorem attached_of_families (hid : ¬ t.Unlinked id) : ∃ holder p path,
    t.get? holder = some p ∧ (path, id) ∈ p.heldNodes ∧
    (∀ e ∈ p.heldNodes, t.attachmentOf? e.2 = some ⟨holder, e.1⟩) ∧ Row t.slots p.held := by
  obtain ⟨holder, p, hp, hm⟩ : ∃ holder, t.Holds holder id := by
    by_contra hno
    exact hid (unheld id fun holder h => hno ⟨holder, h⟩)
  obtain ⟨e, he, rfl⟩ := List.mem_map.mp hm
  rcases family hp with h | ⟨hat, hrow⟩
  · exact absurd (h e.2 hm) hid
  · exact ⟨holder, p, e.1, hp, he, hat, hrow⟩

include family unheld in
/-- A neighbour that a node knows is one that knows it, whatever family they belong to. -/
theorem known_back_of_families {x y : NodeId} (side : Side) (h : t.slots x side = .to y) :
    t.slots y side.opposite = .to x := by
  have hlinked : ¬ t.Unlinked x := fun hu => by simpa [h] using hu.2 side
  obtain ⟨holder, p, path, hp, hm, -, hrow⟩ := attached_of_families family unheld hlinked
  obtain ⟨before, after, hs⟩ : ∃ before after, p.held = before ++ x :: after :=
    List.append_of_mem (List.mem_map_of_mem (f := (·.2)) hm)
  rw [hs] at hrow
  exact hrow.known_back side h

end OfFamilies

/-- A forest with distinct names whose families are linked, and whose unheld nodes are unlinked, is
well-linked. -/
theorem wellLinked_of_families (hf : t.Forest)
    (distinct : ∀ {id : NodeId} {n : Node}, t.get? id = some n → n.Distinct)
    (family : ∀ {id : NodeId} {n : Node}, t.get? id = some n → t.Family id n)
    (unheld : ∀ id, (∀ holder, ¬ t.Holds holder id) → t.Unlinked id) : t.WellLinked := by
  refine { hf with distinct, attached := ?_, uniform := ?_, loose := ?_, linked := ?_, paired := ?_ }
  · intro id n a hn ha
    have hat := (attachmentOf?_eq hn).trans ha
    have hlinked : ¬ t.Unlinked id := fun h => by simpa [hat] using h.1
    obtain ⟨holder, p, path, hp, hm, hall, -⟩ := attached_of_families family unheld hlinked
    have := (hall _ hm).symm.trans hat
    simp only [Option.some.injEq] at this
    subst this
    exact ⟨p, hp, hm⟩
  · intro id n hn
    rcases family hn with h | ⟨hat, -⟩
    · exact .inr fun c hc => by rw [parentOf?_eq, (h c hc).1]; rfl
    · refine .inl fun c hc => ?_
      obtain ⟨e, he, rfl⟩ := List.mem_map.mp hc
      rw [parentOf?_eq, hat e he]
      rfl
  · intro id n hn ha side
    by_contra hne
    obtain ⟨holder, p, path, hp, hm, hall, -⟩ :=
      attached_of_families family unheld fun h => hne ((slots_eq hn side).symm.trans (h.2 side))
    have := (hall _ hm).symm.trans ((attachmentOf?_eq hn).trans ha)
    cases this
  · intro id n p a before after hn ha hp hs side hk
    rcases family hp with h | ⟨-, hrow⟩
    · have := (h id (by simp [hs])).1
      rw [attachmentOf?_eq hn, ha] at this
      cases this
    · rw [hs] at hrow
      rw [← slots_eq hn] at hk ⊢
      exact hrow.link_eq side hk
  · intro a b m n hm hn
    rw [show m.next = t.slots a .next from (slots_eq hm .next).symm,
      show n.prev = t.slots b .prev from (slots_eq hn .prev).symm]
    constructor
    · exact known_back_of_families family unheld .next
    · exact known_back_of_families family unheld .prev

/-! ## Checking linkage -/

instance (t : Tree) (id : NodeId) : Decidable (t.Unlinked id) :=
  decidable_of_iff (t.attachmentOf? id = none ∧ t.slots id .prev = .unknown ∧
    t.slots id .next = .unknown) (by
      refine and_congr_right fun _ => ⟨fun h side => ?_, fun h => ⟨h .prev, h .next⟩⟩
      cases side
      · exact h.1
      · exact h.2)

instance (t : Tree) (id : NodeId) (n : Node) : Decidable (t.Family id n) :=
  inferInstanceAs (Decidable (_ ∨ _))

/-- No node is held twice, families are linked, and unheld nodes are unlinked. -/
def Consistent (t : Tree) : Prop :=
  ∀ i (h : i < t.nodes.size), t.nodes[i].held.Nodup ∧ t.Family ⟨i⟩ t.nodes[i] ∧
    (∀ j (h : j < t.nodes.size), i ≠ j → ∀ c ∈ t.nodes[i].held, c ∉ t.nodes[j].held) ∧
    ((∀ j (h : j < t.nodes.size), ⟨i⟩ ∉ t.nodes[j].held) → t.Unlinked ⟨i⟩)

instance : DecidablePred Consistent := fun t =>
  inferInstanceAs (Decidable (∀ i (h : i < t.nodes.size), t.nodes[i].held.Nodup ∧
    t.Family ⟨i⟩ t.nodes[i] ∧
    (∀ j (h : j < t.nodes.size), i ≠ j → ∀ c ∈ t.nodes[i].held, c ∉ t.nodes[j].held) ∧
    ((∀ j (h : j < t.nodes.size), ⟨i⟩ ∉ t.nodes[j].held) → t.Unlinked ⟨i⟩)))

/-- No node is held twice. -/
def Apart (t : Tree) : Prop :=
  ∀ i (h : i < t.nodes.size), t.nodes[i].held.Nodup ∧
    ∀ j (h : j < t.nodes.size), i ≠ j → ∀ c ∈ t.nodes[i].held, c ∉ t.nodes[j].held

instance : DecidablePred Apart := fun t =>
  inferInstanceAs (Decidable (∀ i (h : i < t.nodes.size), t.nodes[i].held.Nodup ∧
    ∀ j (h : j < t.nodes.size), i ≠ j → ∀ c ∈ t.nodes[i].held, c ∉ t.nodes[j].held))

theorem getElem_of_get? (hn : t.get? id = some n) :
    ∃ h : id.number < t.nodes.size, t.nodes[id.number] = n :=
  Array.getElem?_eq_some_iff.mp hn

/-- Built from the leaves up and with no node held twice, a tree is a forest. -/
theorem Descending.forest (hd : t.Descending) (ha : t.Apart) : t.Forest := by
  constructor
  · rintro a b ⟨n, hn, hb⟩
    have hlt := (hd.get? hn).2 b hb
    obtain ⟨ha, -⟩ := getElem_of_get? hn
    exact ⟨_, Array.getElem?_eq_getElem (hlt.trans ha)⟩
  · intro id n hn
    obtain ⟨h, rfl⟩ := getElem_of_get? hn
    exact (ha _ h).1
  · rintro a b c ⟨m, hm, hcm⟩ ⟨n, hn, hcn⟩
    obtain ⟨hlt, rfl⟩ := getElem_of_get? hm
    obtain ⟨hlt', rfl⟩ := getElem_of_get? hn
    by_contra hne
    refine (ha _ hlt).2 _ hlt' (fun h => hne ?_) c hcm hcn
    cases a
    cases b
    simpa using h
  · exact fun id h => Nat.lt_irrefl _ (hd.lt_of_below h)

/-- A consistent tree built from the leaves up is well-linked. -/
theorem Descending.wellLinked (hd : t.Descending) (hc : t.Consistent) : t.WellLinked := by
  have hapart : t.Apart := fun i h => ⟨(hc i h).1, (hc i h).2.2.1⟩
  refine wellLinked_of_families (hd.forest hapart) (fun hn => (hd.get? hn).1) ?_ ?_
  · intro id n hn
    obtain ⟨h, rfl⟩ := getElem_of_get? hn
    exact (hc _ h).2.1
  · intro id hid
    cases hn : t.get? id with
    | none => exact ⟨by simp [attachmentOf?, hn], fun side => by simp [slots, hn]⟩
    | some n =>
      obtain ⟨h, -⟩ := getElem_of_get? hn
      refine (hc _ h).2.2.2 fun j hj hm => hid ⟨j⟩ ⟨_, Array.getElem?_eq_getElem hj, hm⟩

end Tree

end Trellis
