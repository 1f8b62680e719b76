import Trellis.Proofs.FullPath
import Trellis.Proofs.Siblings
import Trellis.Proofs.Writing

/-!
# Replacing

A node that nobody holds is put in the place of an attached one. It takes over the place and the
links, neighbours that knew the old node now know the new one, and everything below the new node is
stamped. As long as the old node does not lie below the new one, no node comes to lie below itself.

Before anything is written there are six checks, and the first that fails decides the error.
-/

namespace Trellis

open Relation (ReflTransGen TransGen)

namespace Node

/-- A node with the place and the links of another. -/
def takeOver (m n : Node) : Node :=
  { m with attachment := n.attachment, prev := n.prev, next := n.next }

@[simp] theorem body_takeOver (m n : Node) : (m.takeOver n).body = m.body := rfl

@[simp] theorem link_takeOver (m n : Node) (side : Side) :
    (m.takeOver n).link side = n.link side := by
  cases side <;> rfl

end Node

namespace Tree

/-- What putting `new` in the place of `old` leaves, before anything below `new` is stamped. -/
structure Replaced (t : Tree) (old new parent : NodeId) (p' : Node) (t' : Tree) : Prop
    extends t.Rewritten parent p' t' where
  unlinked : t'.Unlinked old
  place : t'.attachmentOf? new = t.attachmentOf? old
  taken : ∀ s, t'.slots new s = t.slots old s
  attachment : ∀ x, x ≠ old → x ≠ new → t'.attachmentOf? x = t.attachmentOf? x
  slots : ∀ x, x ≠ old → x ≠ new → ∀ s, t'.slots x s =
    if t.slots old s.opposite = .to x then .to new else t.slots x s

/-- The first check that a replacement of `old` by `new` fails. -/
def replacementFault? (t : Tree) (old new : NodeId) : Option TreeError :=
  List.lookup true [
    (old = new, .selfReplacement),
    ((t.get? new).isNone, .unknownNode new),
    ((t.parentOf? new).isSome, .alreadyAttached new),
    ((t.get? old).isNone, .unknownNode old),
    ((t.parentOf? old).isNone, .detached old),
    (t.rootOf old = .ok new, .cyclicReplacement new)]

variable {t t' : Tree} {old new parent : NodeId} {n p p' : Node} {path : Path}
  {before after : List (Path × NodeId)}

/-- What is known when no check fails. -/
theorem passed_of_replacementFault? (h : t.replacementFault? old new = none) :
    old ≠ new ∧ t.rootOf old ≠ .ok new ∧ ∃ m n a, t.get? new = some m ∧ m.attachment = none ∧
      t.get? old = some n ∧ n.attachment = some a := by
  have h : old ≠ new ∧ (t.get? new).isSome ∧ t.parentOf? new = none ∧ (t.get? old).isSome ∧
      (t.parentOf? old).isSome ∧ t.rootOf old ≠ .ok new := by
    simpa [replacementFault?, List.lookup_eq_none_iff] using h
  obtain ⟨hne, hnew, hfresh, hold, ha, hroot⟩ := h
  obtain ⟨m, hm⟩ := Option.isSome_iff_exists.mp hnew
  obtain ⟨n, hn⟩ := Option.isSome_iff_exists.mp hold
  rw [parentOf?_eq, attachmentOf?_eq hm, Option.map_eq_none_iff] at hfresh
  rw [parentOf?_eq, attachmentOf?_eq hn, Option.isSome_map] at ha
  obtain ⟨a, ha⟩ := Option.isSome_iff_exists.mp ha
  exact ⟨hne, hroot, m, n, a, hm, hfresh, hn, ha⟩

section Replaced

variable (hl : t.WellLinked) (hp : t.get? parent = some p)
  (hfree : ∀ holder, ¬ t.Holds holder new) (hsplit : p.heldNodes = before ++ (path, old) :: after)
  (hset : p'.heldNodes = before ++ (path, new) :: after)

include hset in
theorem mem_held_replaced {x : NodeId} :
    x ∈ p'.held ↔ x = new ∨ x ∈ before.map (·.2) ++ after.map (·.2) := by
  rw [Node.held_of_split hset, List.mem_append, List.mem_cons, List.mem_append]
  exact or_left_comm

include hsplit in
theorem mem_held_of_beside {x : NodeId} (hx : x ∈ before.map (·.2) ++ after.map (·.2)) :
    x ∈ p.held := by
  rw [Node.held_of_split hsplit]
  rcases List.mem_append.mp hx with hx | hx
  · exact List.mem_append_left _ hx
  · exact List.mem_append_right _ (List.mem_cons_of_mem _ hx)

include hl hp hfree hsplit in
/-- The nodes beside the old node are neither the old node nor the new one. -/
theorem ne_of_beside {x : NodeId} (hx : x ∈ before.map (·.2) ++ after.map (·.2)) :
    x ≠ old ∧ x ≠ new := by
  have hnd := hl.held_once hp
  rw [Node.held_of_split hsplit, List.nodup_middle] at hnd
  refine ⟨?_, ?_⟩
  · rintro rfl
    exact (List.nodup_cons.mp hnd).1 hx
  · rintro rfl
    exact hfree parent ⟨p, hp, mem_held_of_beside hsplit hx⟩

include hl hp hfree hsplit hset in
/-- A replacement keeps a forest, unless the old node lies below the new one. -/
theorem Forest.replaced (hr : t.Rewritten parent p' t') (hknown : ∃ m, t.get? new = some m)
    (hbelow : ¬ t.Below new old) : t'.Forest := by
  have hx : Exchanged [new] p.held p'.held := by
    refine ⟨before.map (·.2), [old], after.map (·.2), ?_, ?_⟩
    · rw [Node.held_of_split hsplit, List.append_assoc, List.singleton_append]
    · rw [Node.held_of_split hset, List.append_assoc, List.singleton_append]
  have hold : t.Holds parent old := ⟨p, hp, by simp [Node.held_of_split hsplit]⟩
  exact hl.toForest.exchanged hp hr hx hfree hknown fun h => hbelow (TransGen.tail' h hold)

include hl hp hfree hsplit hset in
/-- Nobody holds the old node any more. -/
theorem Rewritten.unheld (hr : t.Rewritten parent p' t') (hne : old ≠ new) (holder : NodeId) :
    ¬ t'.Holds holder old := by
  intro hold
  have hparent : t.Holds parent old := ⟨p, hp, by simp [Node.held_of_split hsplit]⟩
  rcases hr.holds_iff.mp hold with ⟨rfl, hmem⟩ | ⟨hother, hold⟩
  · rcases (mem_held_replaced hset).mp hmem with rfl | hbeside
    · exact hne rfl
    · exact (ne_of_beside hl hp hfree hsplit hbeside).1 rfl
  · exact hother (hl.one_holder hold hparent)

include hl hp hfree hsplit hset in
/-- A replacement keeps a tree well-linked. -/
theorem WellLinked.replaced (hn : t.get? old = some n) (ha : n.attachment = some ⟨parent, path⟩)
    (hr : t.Replaced old new parent p' t') (hknown : ∃ m, t.get? new = some m)
    (hbelow : ¬ t.Below new old) (hd : p'.Distinct) : t'.WellLinked := by
  have hids := Node.held_of_split hsplit
  have hold : old ∈ p.held := by simp [hids]
  obtain ⟨hat, hrow⟩ := hl.attached_family hn ha hp
  refine hl.of_rewritten hp hr.toRewritten
    (Forest.replaced hl hp hfree hsplit hset hr.toRewritten hknown hbelow) hd ?_ ?_ ?_ ?_
  · refine .inr ⟨?_, ?_⟩
    · rintro ⟨path', c⟩ he
      rw [hset, List.mem_append, List.mem_cons, or_left_comm] at he
      rcases he with he | he
      · obtain ⟨rfl, rfl⟩ := Prod.mk.inj he
        rw [hr.place, attachmentOf?_eq hn, ha]
      · have hbeside : c ∈ before.map (·.2) ++ after.map (·.2) := by
          rw [← List.map_append]
          exact List.mem_map_of_mem (f := (·.2)) (List.mem_append.mpr he)
        obtain ⟨h₁, h₂⟩ := ne_of_beside hl hp hfree hsplit hbeside
        rw [hr.attachment c h₁ h₂, hat (path', c)]
        rw [hsplit, List.mem_append, List.mem_cons]
        exact he.imp_right .inr
    · have hnd := hl.held_once hp
      rw [hids] at hrow hnd
      rw [Node.held_of_split hset]
      refine hrow.replace hnd hr.taken fun x hx => ?_
      obtain ⟨h₁, h₂⟩ := ne_of_beside hl hp hfree hsplit hx
      exact hr.slots x h₁ h₂
  · intro x hx hxp
    rcases (mem_held_replaced hset).mp hx with rfl | hx
    · exact hfree
    · exact absurd (mem_held_of_beside hsplit hx) hxp
  · intro x hx hx'
    obtain rfl : x = old := by
      by_contra hxo
      rw [hids, List.mem_append, List.mem_cons] at hx
      refine hx' ((mem_held_replaced hset).mpr (.inr (List.mem_append.mpr ?_)))
      exact hx.imp_right fun h => h.resolve_left hxo
    exact hr.unlinked
  · intro x hxp hxp'
    have hxo : x ≠ old := by
      rintro rfl
      exact hxp hold
    have hxn : x ≠ new := by
      rintro rfl
      exact hxp' ((mem_held_replaced hset).mpr (.inl rfl))
    refine ⟨hr.attachment x hxo hxn, fun s => ?_⟩
    rw [hr.slots x hxo hxn, if_neg fun hto => hxp ?_]
    rw [slots_eq hn] at hto
    exact (Linking.link_known hl hn ha hp hsplit hto).1

end Replaced

end Tree

namespace Linking

open Trellis.Tree

variable {t : Tree} {old new parent : NodeId} {n m p : Node} {path : Path}

/-- The entry of `parent` is written, and `new` takes over from `n`. -/
theorem run_install (hp : t.get? parent = some p) (hm : t.get? new = some m) (hpar : parent ≠ new)
    {i : Nat} {v : Value} {answer : Option Value}
    (hassign : t.assign (.node parent) path (.node new) =
      .ok ⟨t.update parent (·.setField i v), .node parent, answer⟩) :
    ∃ t', (∀ rest : Linking Unit, EStateM.run (do
        let _ ← edit (·.assign (.node parent) path (.node new))
        change new (·.takeOver n)
        rest) t = rest.run t') ∧
      t.Rewritten parent (p.setField i v) t' ∧ t'.get? new = some (m.takeOver n) ∧
      (∀ x, x ≠ parent → x ≠ new → t'.get? x = t.get? x) ∧
      (∀ x, x ≠ new → t'.attachmentOf? x = t.attachmentOf? x) ∧
      ∀ x, x ≠ new → ∀ s, t'.slots x s = t.slots x s := by
  have hm₁ : (t.update parent (·.setField i v)).get? new = some m := by
    rw [get?_update_of_ne hpar, hm]
  refine ⟨(t.update parent (·.setField i v)).update new (·.takeOver n), ?_,
    (rewritten_setField hp i v).trans (sameBodies_update _ _ fun m => m.body_takeOver n),
    ?_, ?_, ?_, ?_⟩
  · intro rest
    rw [run_bind_ok (run_edit_ok hassign), run_bind_ok (run_change hm₁ _)]
  · rw [get?_update_self, hm₁, Option.map_some]
  · intro x hx hx'
    rw [get?_update_of_ne hx'.symm, get?_update_of_ne hx.symm]
  · intro x hx
    rw [attachmentOf?_congr (get?_update_of_ne hx.symm _),
      attachmentOf?_update_of fun k => k.attachment_setField i v]
  · intro x hx s
    rw [slots_congr (get?_update_of_ne hx.symm _),
      slots_update_of fun k => k.link_setField i v]

/-- Putting `new` in the place of `old`, up to stamping what lies below `new`. The old node is left
to be detached. -/
theorem run_takeOver (hl : t.WellLinked) (hn : t.get? old = some n)
    (ha : n.attachment = some ⟨parent, path⟩) (hp : t.get? parent = some p)
    (hm : t.get? new = some m) (hout : new ∉ p.held) (hne : old ≠ new) (hpar : parent ≠ new) :
    ∃ p' before after t',
      (∀ rest : Linking Unit, EStateM.run (do
        let _ ← edit (·.assign (.node parent) path (.node new))
        change new (·.takeOver n)
        relink n.prev .next (.to new)
        relink n.next .prev (.to new)
        rest) t = rest.run t') ∧
      p.heldNodes = before ++ (path, old) :: after ∧
      p'.heldNodes = before ++ (path, new) :: after ∧ p'.Distinct ∧
      Node.Differ (.node old) (.node new) path p p' ∧
      t'.get? old = some n ∧ t.Replaced old new parent p' (t'.update old Node.detach) := by
  obtain ⟨q, hq, hmem⟩ := hl.attached hn ha
  obtain rfl : q = p := Option.some.inj (hq.symm.trans hp)
  obtain ⟨i, v, answer, before, after, hassign, hsplit, hset, hd, hdiffer⟩ :=
    assign_of_held (w := .node new) hp (hl.distinct hp) hmem trivial
  have hlink : ∀ side y, n.link side = .to y →
      y ≠ parent ∧ y ≠ old ∧ y ≠ new ∧ ∃ k, t.get? y = some k := by
    intro side y hy
    obtain ⟨hyp, hyo, hk⟩ := link_known hl hn ha hp hsplit hy
    refine ⟨(hl.toForest.ne_of_holds ⟨q, hp, hyp⟩).symm, hyo, ?_, hk⟩
    rintro rfl
    exact hout hyp
  have hpo : parent ≠ old := hl.toForest.ne_of_holds (hl.holds_parent hn ha)
  obtain ⟨t₂, hrun₂, hrw₂, hnew₂, hget₂, hatt₂, hslots₂⟩ := run_install (n := n) hp hm hpar hassign
  obtain ⟨t₃, hrun₃, hsame₃, hget₃, hatt₃, hslots₃⟩ := run_relink_both (t := t₂)
    (fun side y hy => by
      obtain ⟨hyp, -, hyn, hk⟩ := hlink side y hy
      rwa [hget₂ y hyp hyn]) fun _ => .to new
  have hold₃ : t₃.get? old = some n := by
    rw [hget₃ old fun side h => (hlink side old h).2.1 rfl, hget₂ old hpo.symm hne, hn]
  have hget₄ : ∀ x, x ≠ old → (t₃.update old Node.detach).get? x = t₃.get? x := fun x hx =>
    get?_update_of_ne hx.symm _
  have hsame₄ := hsame₃.trans (sameBodies_update t₃ old Node.body_detach)
  refine ⟨q.setField i v, before, after, t₃, ?_, hsplit, by simpa [Value.heldNodes] using hset, hd,
    hdiffer, hold₃, hrw₂.trans hsame₄, unlinked_detach hold₃, ?_, ?_, ?_, ?_⟩
  · intro rest
    exact (hrun₂ _).trans (hrun₃ rest)
  · rw [attachmentOf?_congr (hget₄ new hne.symm), hatt₃, attachmentOf?_eq hnew₂,
      attachmentOf?_eq hn]
    rfl
  · intro s
    rw [slots_congr (hget₄ new hne.symm), hslots₃, if_neg fun h => (hlink _ new h).2.2.1 rfl,
      slots_eq hnew₂, slots_eq hn, Node.link_takeOver]
  · intro x hxo hxn
    rw [attachmentOf?_congr (hget₄ x hxo), hatt₃, hatt₂ x hxn]
  · intro x hxo hxn s
    rw [slots_congr (hget₄ x hxo), hslots₃, hslots₂ x hxn, slots_eq hn]

/-- A replacement that fails a check leaves the tree as it was. -/
theorem run_replace_fault {e : TreeError} (h : t.replacementFault? old new = some e) :
    (replace old new).run t = .error e t := by
  by_cases hne : old = new
  · obtain rfl : .selfReplacement = e := by simpa [replacementFault?, hne] using h
    rw [replace, if_pos hne]
    rfl
  rw [replace, if_neg hne]
  cases hm : t.get? new with
  | none =>
    obtain rfl : .unknownNode new = e := by
      simpa [replacementFault?, List.lookup_cons, hne, hm] using h
    exact run_bind_error (run_ask_error (get_of_get?_none hm))
  | some m =>
    rw [run_bind_ok (run_ask_ok (get_of_get? hm))]
    cases hfresh : m.attachment with
    | some a =>
      obtain rfl : .alreadyAttached new = e := by
        simpa [replacementFault?, List.lookup_cons, parentOf?_eq, attachmentOf?, hne, hm, hfresh]
          using h
      rfl
    | none =>
      simp only [Option.isSome_none, Bool.false_eq_true, if_false]
      cases hn : t.get? old with
      | none =>
        obtain rfl : .unknownNode old = e := by
          simpa [replacementFault?, List.lookup_cons, parentOf?_eq, attachmentOf?, hne, hm, hfresh,
            hn] using h
        exact run_bind_error (run_ask_error (get_of_get?_none hn))
      | some n =>
        rw [run_bind_ok (run_ask_ok (get_of_get? hn))]
        cases ha : n.attachment with
        | none =>
          obtain rfl : .detached old = e := by
            simpa [replacementFault?, List.lookup_cons, parentOf?_eq, attachmentOf?, hne, hm,
              hfresh, hn, ha] using h
          rfl
        | some a =>
          by_cases hroot : t.rootOf old = .ok new
          · obtain rfl : .cyclicReplacement new = e := by
              simpa [replacementFault?, List.lookup_cons, parentOf?_eq, attachmentOf?, hne, hm,
                hfresh, hn, ha, hroot] using h
            simp only
            rw [run_bind_ok (run_ask_ok hroot), if_pos rfl]
            rfl
          · simp [replacementFault?, List.lookup_cons, parentOf?_eq, attachmentOf?, hne, hm, hfresh,
              hn, ha, hroot] at h

/-- A replacement that passes all checks puts the new node in place; what remains is to stamp below
it and to detach the old one. An unattached node is no sibling of an attached one, so the new node is
not among those whose links are redirected. -/
theorem run_replace_install {root : NodeId} (hl : t.WellLinked) (hn : t.get? old = some n)
    (ha : n.attachment = some ⟨parent, path⟩) (hp : t.get? parent = some p)
    (hm : t.get? new = some m) (hfresh : m.attachment = none) (hne : old ≠ new)
    (hpar : parent ≠ new) (hroot : t.rootOf old = .ok root) (hrn : root ≠ new) :
    ∃ p' before after t₁, (replace old new).run t = EStateM.run (do
        let _ ← stampDescendants new
        change old Node.detach) t₁ ∧
      p.heldNodes = before ++ (path, old) :: after ∧
      p'.heldNodes = before ++ (path, new) :: after ∧ p'.Distinct ∧
      Node.Differ (.node old) (.node new) path p p' ∧
      t₁.get? old = some n ∧ t.Replaced old new parent p' (t₁.update old Node.detach) := by
  have hout : new ∉ p.held := by
    intro hmem
    have hparent := hl.parentOf?_held hn ha hp new hmem
    rw [parentOf?_eq, attachmentOf?_eq hm, hfresh] at hparent
    cases hparent
  obtain ⟨p', before, after, t₁, hrun, hrest⟩ := run_takeOver hl hn ha hp hm hout hne hpar
  refine ⟨p', before, after, t₁, ?_, hrest⟩
  rw [replace, if_neg hne, run_bind_ok (run_ask_ok (get_of_get? hm)), hfresh]
  simp only [Option.isSome_none, Bool.false_eq_true, if_false]
  rw [run_bind_ok (run_ask_ok (get_of_get? hn)), ha]
  simp only
  rw [run_bind_ok (run_ask_ok hroot), if_neg hrn]
  have htake : (fun m : Node => { m with
      attachment := some ⟨parent, path⟩, prev := n.prev, next := n.next }) =
      (·.takeOver n) := by
    funext m
    rw [Node.takeOver, ha]
  simp only [htake]
  exact hrun _

/-- Replacing an attached node by one that nobody holds and that it does not lie below succeeds,
unless that one is the topmost node above it. -/
theorem run_replace {root : NodeId} (hl : t.WellLinked) (hn : t.get? old = some n)
    (ha : n.attachment = some ⟨parent, path⟩) (hp : t.get? parent = some p)
    (hm : t.get? new = some m) (hfree : ∀ holder, ¬ t.Holds holder new) (hne : old ≠ new)
    (hbelow : ¬ t.Below new old) (hroot : t.rootOf old = .ok root) (hrn : root ≠ new) :
    ∃ p' before after t₁ t', (replace old new).run t = .ok () t' ∧
      p.heldNodes = before ++ (path, old) :: after ∧
      p'.heldNodes = before ++ (path, new) :: after ∧
      Node.Differ (.node old) (.node new) path p p' ∧ t.Replaced old new parent p' t₁ ∧
      t₁.WellLinked ∧ t₁.Stamped (ReflTransGen t₁.Holds new) t' := by
  have hpar : parent ≠ new := by
    rintro rfl
    exact hbelow (.single (hl.holds_parent hn ha))
  have hfresh : m.attachment = none := by
    rw [← attachmentOf?_eq hm]
    exact (hl.unlinked hfree).1
  obtain ⟨p', before, after, t₃, hrun, hsplit, hset, hd, hdiffer, hold, hr⟩ :=
    run_replace_install hl hn ha hp hm hfresh hne hpar hroot hrn
  have hl₁ : (t₃.update old Node.detach).WellLinked :=
    WellLinked.replaced hl hp hfree hsplit hset hn ha hr ⟨m, hm⟩ hbelow hd
  have hsame : t₃.SameBodies (t₃.update old Node.detach) :=
    sameBodies_update t₃ old Node.body_detach
  have hunheld : ∀ a, ¬ t₃.Holds a old :=
    (hr.toRewritten.trans hsame.symm).unheld hl hp hfree hsplit hset hne
  obtain ⟨k, hk⟩ := hsame.symm.known (hr.known ⟨m, hm⟩)
  have hforest := hsame.symm.forest hl₁.toForest
  obtain ⟨t₅, hstamp, hst⟩ :=
    run_stampDescendants (hforest.below new) (fun a _ => hforest.acyclic a) hk
  have hold₅ : t₅.get? old = some n := by
    rw [hst.outside fun a _ => hunheld a, hold]
  refine ⟨p', before, after, t₃.update old Node.detach, t₅.update old Node.detach, ?_, hsplit,
    hset, hdiffer, hr, hl₁, ?_⟩
  · rw [hrun, run_bind_ok hstamp]
    exact run_change hold₅ _
  · have hholds : ReflTransGen (t₃.update old Node.detach).Holds new =
        ReflTransGen t₃.Holds new := by
      rw [hsame.holds_eq]
    rw [hholds]
    exact hst.update (fun a _ => hunheld a) Node.body_detach

/-- Replacing, whether it succeeds or fails, keeps a tree well-linked, as long as nobody holds the
new node and the old one does not lie below it. -/
theorem wellLinked_replace (hl : t.WellLinked) (old new : NodeId)
    (hfree : ∀ holder, ¬ t.Holds holder new) (hbelow : ¬ t.Below new old) :
    ((replace old new).after t).WellLinked := by
  cases hfault : t.replacementFault? old new with
  | some e =>
    rw [after_of_error (run_replace_fault hfault)]
    exact hl
  | none =>
    obtain ⟨hne, hrn, m, n, ⟨parent, path⟩, hm, -, hn, ha⟩ := passed_of_replacementFault? hfault
    obtain ⟨root, -, -, hroot, -⟩ := hl.wellPlaced.situated hn
    obtain ⟨p, hp, -⟩ := hl.attached hn ha
    obtain ⟨p', before, after, t₁, t', hrun, -, -, -, -, hl₁, hst⟩ :=
      run_replace hl hn ha hp hm hfree hne hbelow hroot fun h => hrn (h ▸ hroot)
    rw [after_of_ok hrun]
    exact wellLinked_of_stamped hl₁ hst

end Linking

end Trellis
