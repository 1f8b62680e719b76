import Trellis.Proofs.Ownership
import Trellis.Proofs.Replacing

/-!
# What a replacement leaves

A node that nobody holds takes the place of an attached one. It stands where the old node stood: at
the same index among the child nodes, under the same parent and path, and between the same neighbours,
whether these knew the old node or not. Everything below the new node is attached where it is held.
Nobody else gets another place, and of all fields one slot of the parent changes. The old node ends up
with no place and no neighbours, and what lies below it is not touched.

Stamping below the new node could reach further than that only if something below it were also held
elsewhere. So the new node and the old one have to lie apart, before and after the slot is written.
-/

namespace Trellis

open Relation (ReflTransGen TransGen)

namespace Tree

variable {t t' t₁ : Tree} {old new parent x : NodeId} {n p p' : Node} {path : Path}
  {before after : List (Path × NodeId)}

/-- What putting `new` in the place `a` of `old` leaves, as the tree answers it. -/
structure PutInPlace (t : Tree) (old new : NodeId) (a : Attachment) (t' : Tree) : Prop where
  /-- The new node stands at the old one's index, and answers its neighbours as they answer it. -/
  children : ∃ before after, t.childNodes a.parent = .ok (before ++ old :: after) ∧
    t'.childNodes a.parent = .ok (before ++ new :: after) ∧
    (Linking.prevSibling new).Answers t' before.getLast? ∧
    (Linking.nextSibling new).Answers t' after.head? ∧
    (∀ b, before.getLast? = some b → (Linking.nextSibling b).Answers t' (some new)) ∧
    ∀ b, after.head? = some b → (Linking.prevSibling b).Answers t' (some new)
  place : t'.attachmentOf? new = some a
  beneath : ∀ x, t'.Below new x ↔ t.Below new x
  /-- Everything below the new node is attached where it is held. -/
  stamped : ∀ holder listed path c, ReflTransGen t'.Holds new holder →
    t'.childNodesWithPaths holder = .ok listed → (path, c) ∈ listed →
    t'.attachmentOf? c = some ⟨holder, path⟩
  /-- All other nodes stay where they are. -/
  stayed : ∀ x, x ≠ old → x ≠ new → ¬ t.Below new x → t'.attachmentOf? x = t.attachmentOf? x
  /-- The fields of the parent differ in the one slot. -/
  slot : ∃ p p' q, t.get? a.parent = some p ∧ t'.get? a.parent = some q ∧ q.body = p'.body ∧
    Node.Differ (.node old) (.node new) a.path p p'
  bodies : ∀ x, x ≠ a.parent → (t'.get? x).map Node.body = (t.get? x).map Node.body
  subtree : ∀ x, t.Below old x → t'.get? x = t.get? x
  unlinked : t'.Unlinked old

/-! ## Nodes apart from the written one -/

/-- Writing a node changes nothing for what does not lie above it. -/
theorem Rewritten.reaches_iff (hr : t.Rewritten parent p' t')
    (hpar : ¬ ReflTransGen t.Holds new parent) :
    ReflTransGen t'.Holds new x ↔ ReflTransGen t.Holds new x := by
  constructor
  · intro h
    induction h with
    | refl => exact .refl
    | @tail b c _ hbc ih =>
      rcases hr.holds_iff.mp hbc with ⟨rfl, -⟩ | ⟨-, hbc⟩
      · exact absurd ih hpar
      · exact ih.tail hbc
  · intro h
    induction h with
    | refl => exact .refl
    | @tail b c hb hbc ih =>
      refine ih.tail (hr.holds_iff.mpr (.inr ⟨?_, hbc⟩))
      rintro rfl
      exact hpar hb

theorem Rewritten.below_iff (hr : t.Rewritten parent p' t')
    (hpar : ¬ ReflTransGen t.Holds new parent) : t'.Below new x ↔ t.Below new x := by
  unfold Below
  rw [TransGen.tail'_iff, TransGen.tail'_iff]
  refine exists_congr fun b => ?_
  rw [hr.reaches_iff hpar]
  refine and_congr_right fun hb => ?_
  have hne : b ≠ parent := by
    rintro rfl
    exact hpar hb
  rw [hr.holds_iff]
  simp [hne]

section Replaced

variable (hl : t.WellLinked) (hn : t.get? old = some n) (ha : n.attachment = some ⟨parent, path⟩)
  (hp : t.get? parent = some p) (hfree : ∀ holder, ¬ t.Holds holder new) (hne : old ≠ new)
  (hbelow : ¬ t.Below new old) (hr : t.Replaced old new parent p' t₁)
  (hsplit : p.heldNodes = before ++ (path, old) :: after)
  (hset : p'.heldNodes = before ++ (path, new) :: after) (hl₁ : t₁.WellLinked)
  (hst : t₁.Stamped (ReflTransGen t₁.Holds new) t')

include hl hn ha hbelow in
theorem not_reaches_parent : ¬ ReflTransGen t.Holds new parent := fun h =>
  hbelow (TransGen.tail' h (hl.holds_parent hn ha))

include hne hbelow in
theorem not_reaches_old : ¬ ReflTransGen t.Holds new old := by
  intro h
  rcases ReflTransGen.cases_tail h with h | ⟨b, hb, hbo⟩
  · exact hne h
  · exact hbelow (TransGen.tail' hb hbo)

include hl hn ha hbelow hr hst in
/-- What does not lie below the new node is not stamped. -/
theorem Replaced.outside (hx : ¬ t.Below new x) : t'.get? x = t₁.get? x := by
  refine hst.outside fun a hreach hax => hx ?_
  have hpar := not_reaches_parent hl hn ha hbelow
  exact (hr.below_iff hpar).mp (TransGen.tail' hreach hax)

include hl hn ha hfree hbelow hr hst in
/-- The new node is not stamped either, since nobody held it. -/
theorem Replaced.attachmentOf?_new : t'.attachmentOf? new = some ⟨parent, path⟩ := by
  have hout : ¬ t.Below new new := by
    intro h
    obtain ⟨b, -, hb⟩ := TransGen.tail'_iff.mp h
    exact hfree b hb
  rw [attachmentOf?_congr (hr.outside hl hn ha hbelow hst hout), hr.place, attachmentOf?_eq hn, ha]

include hl hn ha hp hfree hbelow hr hsplit hset hl₁ hst in
/-- The new node stands between the neighbours of the old one. -/
theorem Replaced.children :
    t.childNodes parent = .ok (before.map (·.2) ++ old :: after.map (·.2)) ∧
    t'.childNodes parent = .ok (before.map (·.2) ++ new :: after.map (·.2)) ∧
    (Linking.prevSibling new).Answers t' (before.map (·.2)).getLast? ∧
    (Linking.nextSibling new).Answers t' (after.map (·.2)).head? ∧
    (∀ b, (before.map (·.2)).getLast? = some b → (Linking.nextSibling b).Answers t' (some new)) ∧
    ∀ b, (after.map (·.2)).head? = some b → (Linking.prevSibling b).Answers t' (some new) := by
  have hl' := Linking.wellLinked_of_stamped hl₁ hst
  obtain ⟨q, hq, hbody⟩ := (hr.toRewritten.trans hst.sameBodies).holder
  have hids := Node.held_of_split hsplit
  have hids' : q.held = before.map (·.2) ++ new :: after.map (·.2) := by
    rw [Node.held_of_body hbody, Node.held_of_split hset]
  have hids'' : q.held = (before.map (·.2) ++ [new]) ++ after.map (·.2) := by
    rw [hids', List.append_assoc, List.singleton_append]
  -- The new node is attached, so all its siblings are.
  have hfamily : ∀ b ∈ q.held, t'.parentOf? b = some parent := by
    obtain ⟨k, hk, hka⟩ := Option.bind_eq_some_iff.mp
      (hr.attachmentOf?_new hl hn ha hfree hbelow hst)
    exact hl'.parentOf?_held hk hka hq
  -- One cut before the new node and one behind it.
  obtain ⟨hlast, hprev⟩ := Linking.answers_at_cut hl' hq hfamily hids'
  obtain ⟨hnext, hhead⟩ := Linking.answers_at_cut hl' hq hfamily hids''
  rw [List.getLast?_concat] at hnext hhead
  exact ⟨hids ▸ childNodes_eq hp, hids' ▸ childNodes_eq hq, hprev new rfl, hnext new rfl, hlast,
    hhead⟩

include hl₁ hst in
/-- Everything below the new node is attached where it is held. -/
theorem Stamped.attachmentOf?_below {holder c : NodeId} {listed : List (Path × NodeId)} {q : Path}
    (hreach : ReflTransGen t'.Holds new holder) (hlisted : t'.childNodesWithPaths holder = .ok listed)
    (hc : (q, c) ∈ listed) : t'.attachmentOf? c = some ⟨holder, q⟩ := by
  have hsame := hst.sameBodies
  rw [hsame.holds_eq] at hreach
  obtain ⟨k, hk, rfl⟩ := heldNodes_of_childNodesWithPaths hlisted
  obtain ⟨k₁, hk₁, hb⟩ := hsame.get? hk
  rw [Node.heldNodes_of_body hb] at hc
  obtain ⟨m, hm⟩ := hl₁.toForest.get?_held hk₁ (List.mem_map_of_mem (f := (·.2)) hc)
  have hget := hst.inside hreach hk₁ hc
  rw [hm, Option.map_some] at hget
  rw [attachmentOf?_eq hget, Node.attachment_attach]

include hl hn ha hp hfree hne hbelow hr hsplit hst in
/-- A replacement does not touch what lies below the old node. -/
theorem Replaced.get?_of_below (hx : t.Below old x) : t'.get? x = t.get? x := by
  obtain ⟨hxo, hxpar, hxp⟩ :=
    hl.toForest.apart_of_below hp (by simp [Node.held_of_split hsplit]) hx
  have hxn : x ≠ new := by
    rintro rfl
    obtain ⟨b, -, hb⟩ := TransGen.tail'_iff.mp hx
    exact hfree b hb
  have hout : ¬ t.Below new x := by
    intro hnew
    refine not_reaches_old hne hbelow ?_
    exact hl.toForest.reaches_above hfree hx.to_reflTransGen hnew.to_reflTransGen
  rw [hr.outside hl hn ha hbelow hst hout]
  refine get?_eq_of_records (hr.bodies x hxpar) (hr.attachment x hxo hxn) fun s => ?_
  rw [hr.slots x hxo hxn, if_neg]
  intro hto
  rw [slots_eq hn] at hto
  exact hxp (Linking.link_known hl hn ha hp hsplit hto).1

end Replaced

end Tree

namespace Linking

open Trellis.Tree

variable {t : Tree} {old new : NodeId} {n m : Node} {a : Attachment}

/-- In a well-linked tree, an attached node can be replaced by any node that nobody holds, unless it
lies below that node, and this puts the new node in its place. -/
theorem replace_puts_in_place (hl : t.WellLinked) (hn : t.get? old = some n)
    (ha : n.attachment = some a) (hm : t.get? new = some m)
    (hfree : ∀ holder, ¬ t.Holds holder new) (hbelow : ¬ t.Below new old) :
    ∃ t', (replace old new).run t = .ok () t' ∧ t.PutInPlace old new a t' := by
  obtain ⟨parent, path⟩ := a
  obtain ⟨p, hp, -⟩ := hl.attached hn ha
  have hne : old ≠ new := by
    rintro rfl
    exact hfree parent (hl.holds_parent hn ha)
  obtain ⟨root, place, hs, hroot, -⟩ := hl.wellPlaced.situated hn
  have hrn : root ≠ new := by
    rintro rfl
    exact not_reaches_old hne hbelow (reaches_of_resolve (hs.resolve hl.wellPlaced))
  obtain ⟨p', before, after, t₁, t', hrun, hsplit, hset, hdiffer, hr, hl₁, hst⟩ :=
    run_replace hl hn ha hp hm hfree hne hbelow hroot hrn
  have hrw := hr.toRewritten.trans hst.sameBodies
  obtain ⟨q, hq, hbody⟩ := hrw.holder
  refine ⟨t', hrun, ?_⟩
  constructor
  · exact ⟨_, _, hr.children hl hn ha hp hfree hbelow hsplit hset hl₁ hst⟩
  · exact hr.attachmentOf?_new hl hn ha hfree hbelow hst
  · intro x
    exact hrw.below_iff (not_reaches_parent hl hn ha hbelow)
  · intro holder listed q c hreach hlisted hc
    exact hst.attachmentOf?_below hl₁ hreach hlisted hc
  · intro x hxo hxn hx
    rw [attachmentOf?_congr (hr.outside hl hn ha hbelow hst hx), hr.attachment x hxo hxn]
  · exact ⟨p, p', q, hp, hq, hbody, hdiffer⟩
  · exact hrw.bodies
  · intro x hx
    exact hr.get?_of_below hl hn ha hp hfree hne hbelow hsplit hst hx
  · have hold : t'.get? old = t₁.get? old := hr.outside hl hn ha hbelow hst hbelow
    exact hr.unlinked.congr (attachmentOf?_congr hold) (slots_congr hold)

/-- A stack of a leaf and a card behind it, which know each other, and a spare card. Each card holds a
leaf, and neither of these is attached. -/
def spareCard : Tree where
  nodes := #[
    { kind := ⟨"Leaf", []⟩, fields := [], arity := Node.arity_leaf },
    { kind := ⟨"Card", ["front", "back"]⟩, fields := [.node ⟨0⟩, .null], arity := rfl },
    { kind := ⟨"Leaf", []⟩, fields := [], arity := Node.arity_leaf },
    { kind := ⟨"Card", ["front", "back"]⟩, fields := [.node ⟨2⟩, .null], arity := rfl,
      attachment := some ⟨⟨5⟩, [.name "cards", .index 1, .name "x"]⟩, prev := .to ⟨4⟩ },
    { kind := ⟨"Leaf", []⟩, fields := [], arity := Node.arity_leaf,
      attachment := some ⟨⟨5⟩, [.name "cards", .index 0]⟩, next := .to ⟨3⟩ },
    { kind := ⟨"Stack", ["cards"]⟩, fields := [.list [.node ⟨4⟩, .map ⟨[("x", .node ⟨3⟩)]⟩]],
      arity := rfl }]

theorem replace_puts_in_place_spareCard : spareCard.WellLinked ∧ ∃ t',
    (replace ⟨3⟩ ⟨1⟩).run spareCard = .ok () t' ∧
    spareCard.PutInPlace ⟨3⟩ ⟨1⟩ ⟨⟨5⟩, [.name "cards", .index 1, .name "x"]⟩ t' ∧
    t'.attachmentOf? ⟨1⟩ = some ⟨⟨5⟩, [.name "cards", .index 1, .name "x"]⟩ ∧
    t'.get? ⟨2⟩ = spareCard.get? ⟨2⟩ := by
  have hdesc : spareCard.Descending := by decide
  have hl : spareCard.WellLinked := hdesc.wellLinked (by decide)
  have hold : spareCard.get? ⟨3⟩ = some spareCard.nodes[3] := rfl
  have hspare : spareCard.get? ⟨1⟩ = some spareCard.nodes[1] := rfl
  have hfree : ∀ holder, ¬ spareCard.Holds holder ⟨1⟩ := by
    rintro holder ⟨n, hn, hheld⟩
    have hunheld : ∀ i (h : i < spareCard.nodes.size), ⟨1⟩ ∉ spareCard.nodes[i].held := by decide
    obtain ⟨hi, rfl⟩ := getElem_of_get? hn
    exact hunheld _ hi hheld
  have hbelow : ¬ spareCard.Below ⟨1⟩ ⟨3⟩ := fun h =>
    absurd (hdesc.lt_of_below h) (by decide)
  obtain ⟨t', hrun, hput⟩ := replace_puts_in_place hl hold rfl hspare hfree hbelow
  have hheld : spareCard.Holds ⟨3⟩ ⟨2⟩ := ⟨_, hold, by decide⟩
  exact ⟨hl, t', hrun, hput, hput.place, hput.subtree ⟨2⟩ (.single hheld)⟩

end Linking

end Trellis
