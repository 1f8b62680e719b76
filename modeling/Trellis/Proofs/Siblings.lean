import Trellis.Proofs.Search
import Trellis.Proofs.Linking

/-!
# Siblings

Asked for a neighbour, a node answers from what is remembered or searches and remembers the answer,
here and at the neighbour found. In a well-linked tree the answer is the true neighbour whatever has
been remembered and whatever has not, and the tree stays well-linked.
-/

namespace Trellis

namespace Tree

/-- The tree once `found` is remembered as the neighbour of `id`, from both ends. -/
def remember (t : Tree) (id : NodeId) (side : Side) (found : Option NodeId) : Tree :=
  match found with
  | none => t.update id (·.setLink side .absent)
  | some other =>
    (t.update id (·.setLink side (.to other))).update other (·.setLink side.opposite (.to id))

variable {t : Tree} {id : NodeId} {n : Node} {side : Side} {found : Option NodeId}

theorem sameBodies_remember (t : Tree) (id : NodeId) (side : Side) (found : Option NodeId) :
    t.SameBodies (t.remember id side found) := by
  cases found with
  | none => exact sameBodies_update t id fun n => n.body_setLink side _
  | some other =>
    exact (sameBodies_update t id fun n => n.body_setLink side _).trans
      (sameBodies_update _ other fun n => n.body_setLink side.opposite _)

theorem attachmentOf?_remember (x : NodeId) :
    (t.remember id side found).attachmentOf? x = t.attachmentOf? x := by
  cases found with
  | none => exact attachmentOf?_update_of fun n => n.attachment_setLink side _
  | some other =>
    exact (attachmentOf?_update_of fun n => n.attachment_setLink side.opposite _).trans
      (attachmentOf?_update_of fun n => n.attachment_setLink side _)

theorem slots_remember (side : Side) (hn : t.get? id = some n)
    (hk : ∀ y, found = some y → y ≠ id ∧ ∃ m, t.get? y = some m) (x : NodeId) (s : Side) :
    (t.remember id side found).slots x s =
      if x = id ∧ s = side then .ofOption found
      else if found = some x ∧ s = side.opposite then .to id
      else t.slots x s := by
  cases found with
  | none => simp [remember, slots_setLink hn, Link.ofOption]
  | some other =>
    obtain ⟨hoi, m, hm⟩ := hk other rfl
    have hio := hoi.symm
    have hm' : (t.update id (·.setLink side (.to other))).get? other = some m := by
      rw [get?_update_of_ne hio, hm]
    rw [remember, slots_setLink hm', slots_setLink hn]
    by_cases hx : x = id
    · subst hx
      simp [hio, hoi, Link.ofOption]
    · simp [hx, eq_comm]

end Tree

namespace Linking

open Trellis.Tree

variable {t : Tree} {id : NodeId} {n p : Node} {side : Side} {a : Attachment}

/-! ## Answers -/

/-- A run succeeds with an answer. -/
def Answers {α : Type} (x : Linking α) (t : Tree) (a : α) : Prop := ∃ t', x.run t = .ok a t'

theorem Answers.unique {α : Type} {x : Linking α} {a b : α} (ha : x.Answers t a)
    (hb : x.Answers t b) : a = b := by
  obtain ⟨t₁, h₁⟩ := ha
  obtain ⟨t₂, h₂⟩ := hb
  rw [h₁] at h₂
  exact (EStateM.Result.ok.inj h₂).1

theorem run_sibling_unknown (h : t.get? id = none) (side : Side) :
    (sibling id side).run t = .error (.unknownNode id) t :=
  run_bind_error (run_ask_error (get_of_get?_none h))

theorem run_sibling_known {found : Option NodeId} (hn : t.get? id = some n)
    (hk : (n.link side).known? = some found) : (sibling id side).run t = .ok found t := by
  rw [sibling, run_bind_ok (run_ask_ok (get_of_get? hn)), hk]
  rfl

theorem run_sibling_loose (hn : t.get? id = some n) (hu : n.link side = .unknown)
    (ha : n.attachment = none) : (sibling id side).run t = .ok none t := by
  rw [sibling, run_bind_ok (run_ask_ok (get_of_get? hn)), hu, ha]
  rfl

section Attached

variable {before after : List (Path × NodeId)} (hl : t.WellLinked) (hn : t.get? id = some n)
  (ha : n.attachment = some a) (hp : t.get? a.parent = some p)
  (h : p.heldNodes = before ++ (a.path, id) :: after)

include hl hp h in
/-- The neighbour of an attached node is another known node with the same parent. -/
theorem neighbour_known {y : NodeId}
    (hy : side.neighbour (before.map (·.2)) (after.map (·.2)) = some y) :
    y ∈ p.held ∧ y ≠ id ∧ ∃ m, t.get? y = some m := by
  have hheld := Node.held_of_split h
  have hmem := side.mem_of_neighbour hy
  have hin : y ∈ p.held := by
    rw [hheld]
    rcases List.mem_append.mp hmem with hm | hm
    · exact List.mem_append_left _ hm
    · exact List.mem_append_right _ (List.mem_cons_of_mem id hm)
  refine ⟨hin, ?_, hl.toForest.get?_held hp hin⟩
  rintro rfl
  have hnd := hl.held_once hp
  rw [hheld, List.nodup_middle] at hnd
  exact (List.nodup_cons.mp hnd).1 hmem

include hl hn ha hp h in
/-- A link of an attached node leads to another known node with the same parent. -/
theorem link_known {y : NodeId} (hy : n.link side = .to y) :
    y ∈ p.held ∧ y ≠ id ∧ ∃ m, t.get? y = some m := by
  have hlink := hl.linked hn ha hp (Node.held_of_split h) side (by simp [hy])
  rw [hy, eq_comm, Link.ofOption_eq_to] at hlink
  exact neighbour_known hl hp h hlink

include hl hn ha hp h in
/-- A search answers the neighbour among the nodes that the parent holds, and remembers it. -/
theorem run_sibling_search (hu : n.link side = .unknown) :
    (sibling id side).run t =
      .ok (side.neighbour (before.map (·.2)) (after.map (·.2)))
        (t.remember id side (side.neighbour (before.map (·.2)) (after.map (·.2)))) := by
  have hw : t.Walkable (.node a.parent) := hl.walkable trivial
  have hfind := findSibling_eq hw hp side h
  rw [sibling, run_bind_ok (run_ask_ok (get_of_get? hn)), hu, ha]
  simp only [Link.known?]
  rw [run_bind_ok (run_ask_ok hfind), run_bind_ok (run_change hn _)]
  cases hnb : side.neighbour (before.map (·.2)) (after.map (·.2)) with
  | none => rfl
  | some other =>
    obtain ⟨-, hne, m, hm⟩ := neighbour_known hl hp h hnb
    have hm' : (t.update id (·.setLink side (.ofOption (some other)))).get? other = some m := by
      rw [get?_update_of_ne (Ne.symm hne), hm]
    simp only
    rw [run_bind_ok (run_change hm' _)]
    rfl

include hl hn ha hp h in
/-- A remembered answer is the neighbour among the nodes that the parent holds. -/
theorem known_eq_neighbour {found : Option NodeId} (hk : (n.link side).known? = some found) :
    found = side.neighbour (before.map (·.2)) (after.map (·.2)) := by
  have hne : n.link side ≠ .unknown := by
    intro hu
    simp [hu, Link.known?] at hk
  rw [hl.linked hn ha hp (Node.held_of_split h) side hne, Link.known?_ofOption] at hk
  exact (Option.some.inj hk).symm

include hl hn ha hp h in
/-- An attached node answers its neighbour, whatever is remembered. -/
theorem run_sibling_attached (side : Side) :
    (sibling id side).Answers t (side.neighbour (before.map (·.2)) (after.map (·.2))) := by
  cases hk : (n.link side).known? with
  | none =>
    have hu : n.link side = .unknown := by
      cases hlink : n.link side <;> simp [hlink, Link.known?] at hk ⊢
    exact ⟨_, run_sibling_search hl hn ha hp h hu⟩
  | some found =>
    rw [← known_eq_neighbour hl hn ha hp h hk]
    exact ⟨t, run_sibling_known hn hk⟩

include hl hn ha hp h in
/-- Remembering a true neighbour changes one cut of one family. -/
theorem wellLinked_remember {found : Option NodeId}
    (hfound : side.neighbour (before.map (·.2)) (after.map (·.2)) = found) :
    (t.remember id side found).WellLinked := by
  have hheld := Node.held_of_split h
  have hknown : ∀ y, found = some y → y ∈ p.held ∧ y ≠ id ∧ ∃ m, t.get? y = some m :=
    fun y hy => neighbour_known hl hp h (hfound.trans hy)
  have hslots := slots_remember side hn fun y hy => (hknown y hy).2
  -- Outside this family no link changes.
  have hout : ∀ x, x ∉ p.held → ∀ s, (t.remember id side found).slots x s = t.slots x s := by
    intro x hx s
    rw [hslots, if_neg, if_neg]
    · rintro ⟨hy, -⟩
      exact hx (hknown x hy).1
    · rintro ⟨rfl, -⟩
      exact hx (by simp [hheld])
  refine hl.of_sameBodies (sameBodies_remember _ _ _ _) ?_ ?_
  · intro holder q hq
    by_cases hpar : holder = a.parent
    · subst hpar
      obtain rfl : p = q := Option.some.inj (hp.symm.trans hq)
      obtain ⟨hat, hrow⟩ := hl.attached_family hn ha hp
      refine .inr ⟨fun e he => (attachmentOf?_remember e.2).trans (hat e he), ?_⟩
      have hnd := hl.held_once hq
      rw [hheld] at hrow hnd ⊢
      subst hfound
      exact hrow.remember hnd side hslots
    · refine (hl.family hq).congr (fun c _ => attachmentOf?_remember c) fun c hc => hout c ?_
      exact fun hcp => hpar (hl.one_holder ⟨q, hq, hc⟩ ⟨p, hp, hcp⟩)
  · intro x hx
    exact (hl.unlinked hx).congr (attachmentOf?_remember x)
      (hout x fun hxp => hx a.parent ⟨p, hp, hxp⟩)

end Attached

/-- A node answers what stands beside it among the nodes that its recorded parent holds. -/
theorem answers_of_split {parent : NodeId} {before after : List NodeId} (hl : t.WellLinked)
    (hp : t.get? parent = some p) (hpar : t.parentOf? id = some parent)
    (h : p.held = before ++ id :: after) (side : Side) :
    (sibling id side).Answers t (side.neighbour before after) := by
  obtain ⟨n, hn, hparent⟩ := Option.bind_eq_some_iff.mp hpar
  obtain ⟨a, ha, rfl⟩ := Option.map_eq_some_iff.mp hparent
  obtain ⟨before, rest, hsplit, rfl, hrest⟩ := List.map_eq_append_iff.mp h
  obtain ⟨⟨path, c⟩, after, rfl, rfl, rfl⟩ := List.map_eq_cons_iff.mp hrest
  obtain ⟨q, hq, hm⟩ := hl.attached hn ha
  obtain rfl : q = p := Option.some.inj (hq.symm.trans hp)
  have hpath : path = a.path := hl.toForest.path_unique hp (by simp [hsplit]) hm
  rw [hpath] at hsplit
  exact run_sibling_attached hl hn ha hp hsplit side

/-- Where the children of a node are cut in two, the nodes on both sides of the cut answer each
other. -/
theorem answers_at_cut {parent : NodeId} {before after : List NodeId} (hl : t.WellLinked)
    (hp : t.get? parent = some p) (hpar : ∀ b ∈ p.held, t.parentOf? b = some parent)
    (h : p.held = before ++ after) :
    (∀ b, before.getLast? = some b → (nextSibling b).Answers t after.head?) ∧
      ∀ b, after.head? = some b → (prevSibling b).Answers t before.getLast? := by
  constructor
  · intro b hb
    obtain ⟨init, rfl⟩ := List.getLast?_eq_some_iff.mp hb
    rw [List.append_assoc, List.singleton_append] at h
    exact answers_of_split hl hp (hpar b (by simp [h])) h .next
  · intro b hb
    obtain ⟨rest, rfl⟩ := List.head?_eq_some_iff.mp hb
    exact answers_of_split hl hp (hpar b (by simp [h])) h .prev

/-- A node at a position among the nodes of its parent answers what stands beside that position. -/
theorem answers_at (hl : t.WellLinked) (hn : t.get? id = some n) (ha : n.attachment = some a)
    (hp : t.get? a.parent = some p) {i : Nat} (hi : p.held[i]? = some id) :
    (nextSibling id).Answers t p.held[i + 1]? ∧
      (prevSibling id).Answers t (if i = 0 then none else p.held[i - 1]?) := by
  have hpath : p.heldNodes[i]? = some (a.path, id) := by
    rw [Node.held, List.getElem?_map, Option.map_eq_some_iff] at hi
    obtain ⟨⟨path, c⟩, he, rfl⟩ := hi
    obtain ⟨p', hp', hm⟩ := hl.attached hn ha
    obtain rfl : p' = p := Option.some.inj (hp'.symm.trans hp)
    rw [hl.toForest.path_unique hp (List.mem_of_getElem? he) hm] at he
    exact he
  have hsplit := split_of_getElem? hpath
  have hlt : i < p.held.length := (List.getElem?_eq_some_iff.mp hi).1
  have hnext := run_sibling_attached hl hn ha hp hsplit .next
  have hprev := run_sibling_attached hl hn ha hp hsplit .prev
  rw [List.map_take, List.map_drop, ← Node.held] at hnext hprev
  constructor
  · simpa [nextSibling, List.head?_drop] using hnext
  · have hlast : (p.held.take i).getLast? = if i = 0 then none else p.held[i - 1]? := by
      rw [List.getLast?_take]
      split
      · rfl
      · rw [List.getElem?_eq_getElem (by omega)]
        rfl
    simpa [prevSibling, hlast] using hprev

/-- Only attached nodes answer with a neighbour. -/
theorem attached_of_answers (hl : t.WellLinked) {b : NodeId} {side : Side}
    (h : (sibling id side).Answers t (some b)) :
    ∃ n a, t.get? id = some n ∧ n.attachment = some a := by
  obtain ⟨t', hrun⟩ := h
  cases hn : t.get? id with
  | none =>
    rw [run_sibling_unknown hn] at hrun
    cases hrun
  | some n =>
    cases ha : n.attachment with
    | some a => exact ⟨n, a, rfl, ha⟩
    | none =>
      rw [run_sibling_loose hn (hl.loose hn ha side) ha] at hrun
      cases hrun

/-- A node and the neighbour it answers name each other. -/
theorem answers_opposite (hl : t.WellLinked) {b : NodeId}
    (h : (sibling id side).Answers t (some b)) : (sibling b side.opposite).Answers t (some id) := by
  obtain ⟨n, a, hn, ha⟩ := attached_of_answers hl h
  obtain ⟨p, before, after, hp, hsplit⟩ := hl.place hn ha
  have hnb := (run_sibling_attached hl hn ha hp hsplit side).unique h
  obtain ⟨hb, -, m, hm⟩ := neighbour_known hl hp hsplit hnb
  obtain ⟨a', ha', hpar⟩ : ∃ a', m.attachment = some a' ∧ a'.parent = a.parent := by
    simpa [parentOf?, hm, Node.parent?] using hl.parentOf?_held hn ha hp b hb
  have hp' : t.get? a'.parent = some p := hpar ▸ hp
  have hid : id ∈ p.held := by simp [Node.held_of_split hsplit]
  obtain ⟨i, hi⟩ := List.mem_iff_getElem?.mp hid
  obtain ⟨hnext, hprev⟩ := answers_at hl hn ha hp hi
  cases side with
  | next =>
    have hat := hnext.unique h
    simpa [prevSibling, hi] using (answers_at hl hm ha' hp' hat).2
  | prev =>
    have hat := hprev.unique h
    cases i with
    | zero => simp at hat
    | succ i => simpa [nextSibling, hi] using (answers_at hl hm ha' hp' hat).1

/-- In a well-linked tree, whatever is remembered: an attached node answers what stands beside it
among the child nodes of its parent, a remembered answer is the one a search would give, and two
nodes name each other as neighbours from both ends or not at all. -/
theorem siblings_are_neighbours (hl : t.WellLinked) :
    (∀ c n a, t.get? c = some n → n.attachment = some a →
      ∃ cs, t.childNodes a.parent = .ok cs ∧ c ∈ cs ∧
        (∀ i, cs[i]? = some c →
          (nextSibling c).Answers t cs[i + 1]? ∧
          (prevSibling c).Answers t (if i = 0 then none else cs[i - 1]?)) ∧
        ∀ side found, (n.link side).known? = some found →
          t.findSibling a.parent side.direction (t.extent + 1) a.path = .ok found) ∧
    ∀ a b, (nextSibling a).Answers t (some b) ↔ (prevSibling b).Answers t (some a) := by
  refine ⟨?_, fun a b => ⟨answers_opposite hl, answers_opposite hl⟩⟩
  intro c n a hn ha
  obtain ⟨p, before, after, hp, hsplit⟩ := hl.place hn ha
  refine ⟨p.held, childNodes_eq hp, by simp [Node.held_of_split hsplit], ?_, ?_⟩
  · intro i hi
    exact answers_at hl hn ha hp hi
  · intro side found hk
    rw [known_eq_neighbour hl hn ha hp hsplit hk]
    exact findSibling_eq (hl.walkable trivial) hp side hsplit

/-- A node that holds three others, in a list, in a map inside it, and in a field of their own. The
first two know each other, the last one knows that it is the last, and nothing else is known. -/
def partlyLinked : Tree :=
  let leaf : Kind := ⟨"Leaf", []⟩
  ⟨#[
    { kind := leaf, fields := [], arity := rfl,
      attachment := some ⟨⟨3⟩, [.name "body", .index 0]⟩, next := .to ⟨1⟩ },
    { kind := leaf, fields := [], arity := rfl,
      attachment := some ⟨⟨3⟩, [.name "body", .index 1, .name "x"]⟩, prev := .to ⟨0⟩ },
    { kind := leaf, fields := [], arity := rfl,
      attachment := some ⟨⟨3⟩, [.name "last"]⟩, next := .absent },
    { kind := ⟨"Block", ["body", "last"]⟩,
      fields := [.list [.node ⟨0⟩, .map ⟨[("x", .node ⟨1⟩)]⟩], .node ⟨2⟩], arity := rfl }]⟩

theorem siblings_are_neighbours_partly :
    partlyLinked.WellLinked ∧ (nextSibling ⟨1⟩).Answers partlyLinked (some ⟨2⟩) ∧
      (prevSibling ⟨1⟩).Answers partlyLinked (some ⟨0⟩) := by
  have hl : partlyLinked.WellLinked := Descending.wellLinked (by decide) (by decide)
  obtain ⟨cs, hcs, -, hat, -⟩ := (siblings_are_neighbours hl).1 ⟨1⟩ _ _ rfl rfl
  obtain rfl : [⟨0⟩, ⟨1⟩, ⟨2⟩] = cs := Except.ok.inj hcs
  exact ⟨hl, hat 1 rfl⟩

/-! ## What is remembered stays true -/

/-- Asking for a neighbour keeps a tree well-linked. -/
theorem wellLinked_sibling (hl : t.WellLinked) (id : NodeId) (side : Side) :
    ((sibling id side).after t).WellLinked := by
  cases hn : t.get? id with
  | none => rwa [after_of_error (run_sibling_unknown hn side)]
  | some n =>
    cases hk : (n.link side).known? with
    | some found => rwa [after_of_ok (run_sibling_known hn hk)]
    | none =>
      have hu : n.link side = .unknown := by
        cases hlink : n.link side <;> simp [hlink, Link.known?] at hk ⊢
      cases ha : n.attachment with
      | none => rwa [after_of_ok (run_sibling_loose hn hu ha)]
      | some a =>
        obtain ⟨p, before, after, hp, hsplit⟩ := hl.place hn ha
        rw [after_of_ok (run_sibling_search hl hn ha hp hsplit hu)]
        exact wellLinked_remember hl hn ha hp hsplit rfl

end Linking

end Trellis
