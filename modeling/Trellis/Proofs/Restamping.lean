import Trellis.Proofs.Stamping
import Trellis.Proofs.Writing

/-!
# Stamping again after edits

A field of a node may also be edited directly, or an entry may be written or erased at a path. Such
edits leave alone what the nodes record, so they ask for a fresh stamp. The stamp writes the records
of everything that lies below its root by then. A node that the edits have let go does not lie there
any more: it is not met, and it keeps the place it had before. What then stands at that place may be
another node.

So after the stamp a recorded place is true if the node lies below the root, or if the fields of the
recorded parent are what they were when the linkage was true. Nothing is said about links, which a
stamp forgets.
-/

namespace Trellis

open Relation (ReflTransGen TransGen)

/-- An edit that goes around the linkage. -/
inductive DirectEdit where
  | field (id : NodeId) (name : String) (change : Value → Value)
  | assign (root : Value) (path : Path) (new : Value)
  | erase (root : Value) (path : Path)

namespace DirectEdit

/-- The tree after an edit; one that fails changes nothing. -/
def after (t : Tree) : DirectEdit → Tree
  | field id name change =>
    match t.modifyField id name fun v => ((), change v) with
    | .ok (_, t') => t'
    | .error _ => t
  | assign root path new =>
    match t.assign root path new with
    | .ok done => done.tree
    | .error _ => t
  | erase root path =>
    match t.erase root path with
    | .ok done => done.tree
    | .error _ => t

/-- The tree after several edits. -/
def run (t : Tree) (edits : List DirectEdit) : Tree := edits.foldl after t

theorem sameRecords_after (t : Tree) (edit : DirectEdit) : t.SameRecords (edit.after t) := by
  cases edit with
  | field id name change =>
    cases hfield : t.fieldEntry id name with
    | error e =>
      have hafter : (field id name change).after t = t := by
        simp [after, Tree.modifyField, hfield, bind, Except.bind]
      rw [hafter]
      exact .refl t
    | ok entry =>
      have hafter : (field id name change).after t =
          t.update id (·.setField entry.1 (change entry.2)) := by
        simp [after, Tree.modifyField, hfield, bind, Except.bind, pure, Except.pure]
      rw [hafter]
      exact t.sameRecords_setField id entry.1 (change entry.2)
  | assign root path new =>
    simp only [after]
    cases h : t.assign root path new with
    | error e => exact .refl t
    | ok done => exact Tree.sameRecords_of_assign h
  | erase root path =>
    simp only [after]
    cases h : t.erase root path with
    | error e => exact .refl t
    | ok done => exact Tree.sameRecords_of_erase h

/-- No number of edits touches what the nodes record. -/
theorem sameRecords_run (t : Tree) (edits : List DirectEdit) : t.SameRecords (run t edits) := by
  induction edits generalizing t with
  | nil => exact .refl t
  | cons edit edits ih => exact (sameRecords_after t edit).trans (ih (edit.after t))

end DirectEdit

namespace Linking

open Trellis.Tree

variable {t t' : Tree} {root : NodeId} {n : Node}

/-- What a fresh stamp leaves recorded: the true place of a node below the root, and for every other
node the place it recorded before. -/
theorem record_of_stamped {c : NodeId} {a : Attachment}
    (hst : (t.update root Node.detach).Stamped (ReflTransGen t.Holds root) t')
    (hc : t'.attachmentOf? c = some a) :
    (∃ p, t'.get? a.parent = some p ∧ (a.path, c) ∈ p.heldNodes) ∨
      (¬ t'.Below root c ∧ t.attachmentOf? c = some a) := by
  have hdetach : t.SameBodies (t.update root Node.detach) :=
    sameBodies_update t root Node.body_detach
  have hsame := hst.sameBodies
  by_cases hheld : ∃ b, ReflTransGen t.Holds root b ∧ t.Holds b c
  · obtain ⟨b, hb, hbc⟩ := hheld
    rw [← hdetach.holds_eq] at hbc
    obtain ⟨m, hm, hcm⟩ := hbc
    obtain ⟨⟨path, c⟩, he, rfl⟩ := List.mem_map.mp hcm
    obtain ⟨p, hp, hbody⟩ := hsame.symm.get? hm
    have hget := hst.inside hb hm he
    obtain rfl : ⟨b, path⟩ = a := by
      rw [attachmentOf?, hget] at hc
      cases hk : (t.update root Node.detach).get? c <;> simp_all
    exact .inl ⟨p, hp, Node.heldNodes_of_body hbody ▸ he⟩
  · right
    have hout : ∀ b, ReflTransGen t.Holds root b → ¬ t.Holds b c := fun b hb hbc =>
      hheld ⟨b, hb, hbc⟩
    have hget : t'.get? c = (t.update root Node.detach).get? c := by
      refine hst.outside ?_
      rw [hdetach.holds_eq]
      exact hout
    rw [attachmentOf?_congr hget] at hc
    refine ⟨?_, ?_⟩
    · rw [hsame.below_eq, hdetach.below_eq]
      intro hbelow
      obtain ⟨b, hb, hbc⟩ := TransGen.tail'_iff.mp hbelow
      exact hout b hb hbc
    · by_cases hroot : root = c
      · subst hroot
        rw [attachmentOf?, get?_update_self] at hc
        cases hk : t.get? root <;> simp_all
      · rwa [attachmentOf?_congr (get?_update_of_ne hroot _)] at hc

/-- A true linkage, direct edits that leave a forest, and a fresh stamp of an unattached root: the
stamp succeeds, and every recorded parent is a known node. The recorded path leads from it to the
node if the node lies below the root and its parent's names are distinct, or if the parent still has
the fields it had before the edits. -/
theorem stamp_after_edits (hl : t.WellLinked) (hn : t.get? root = some n)
    (ha : n.attachment = none) (edits : List DirectEdit)
    (hforest : (DirectEdit.run t edits).Forest) :
    ∃ count t', (stamp root).run (DirectEdit.run t edits) = .ok count t' ∧
      ∀ c a, t'.attachmentOf? c = some a → ∃ p, t'.get? a.parent = some p ∧
        ((t'.Below root c ∧ p.Distinct) ∨
          (∃ m, t.get? a.parent = some m ∧ p.body = m.body) →
        t'.resolve (.node a.parent) a.path = .ok (.node c)) := by
  have hrec := DirectEdit.sameRecords_run t edits
  obtain ⟨m, hm⟩ := hrec.known ⟨n, hn⟩
  have hma : m.attachment = none := by
    rw [← attachmentOf?_eq hm, hrec.attachment, attachmentOf?_eq hn, ha]
  obtain ⟨count, t', hrun, hst⟩ := run_stamp hforest hm hma
  have hsame := (sameBodies_update _ root Node.body_detach).trans hst.sameBodies
  refine ⟨count, t', hrun, ?_⟩
  intro c a hc
  rcases record_of_stamped hst hc with ⟨p, hp, hheld⟩ | ⟨hout, hold⟩
  · refine ⟨p, hp, ?_⟩
    intro htrue
    have hd : p.Distinct := by
      rcases htrue with ⟨-, hd⟩ | ⟨k, hk, hbody⟩
      · exact hd
      · exact Node.distinct_of_body hbody (hl.distinct hk)
    exact resolve_of_held hp hd hheld
  · -- The stamp has not met the node, so it records what it did when the linkage was true.
    rw [hrec.attachment] at hold
    obtain ⟨k, hk, hka⟩ := Option.bind_eq_some_iff.mp hold
    obtain ⟨q, hq, hheld⟩ := hl.attached hk hka
    obtain ⟨p, hp⟩ := hsame.known (hrec.known ⟨q, hq⟩)
    refine ⟨p, hp, ?_⟩
    intro htrue
    rcases htrue with ⟨hbelow, -⟩ | ⟨k', hk', hbody⟩
    · exact absurd hbelow hout
    · obtain rfl : q = k' := Option.some.inj (hq.symm.trans hk')
      exact resolve_of_held hp (Node.distinct_of_body hbody (hl.distinct hq))
        (Node.heldNodes_of_body hbody ▸ hheld)

/-- A block whose list holds two leaves, both attached. -/
def twoLeaves : Tree where
  nodes := #[
    { kind := ⟨"Leaf", []⟩, fields := [], arity := Node.arity_leaf,
      attachment := some ⟨⟨2⟩, [.name "body", .index 0]⟩ },
    { kind := ⟨"Leaf", []⟩, fields := [], arity := Node.arity_leaf,
      attachment := some ⟨⟨2⟩, [.name "body", .index 1]⟩ },
    { kind := ⟨"Block", ["body"]⟩, fields := [.list [.node ⟨0⟩, .node ⟨1⟩]], arity := rfl }]

theorem wellLinked_twoLeaves : twoLeaves.WellLinked :=
  Descending.wellLinked (by decide) (by decide)

/-- Swapping the leaves. -/
def swapLeaves : DirectEdit := .field ⟨2⟩ "body" fun _ => .list [.node ⟨1⟩, .node ⟨0⟩]

/-- Letting the first leaf go. -/
def dropFirst : DirectEdit := .erase (.node ⟨2⟩) [.name "body", .index 0]

theorem stamp_after_edits_swapped :
    (DirectEdit.run twoLeaves [swapLeaves]).Forest ∧ ∃ count t',
    (stamp ⟨2⟩).run (DirectEdit.run twoLeaves [swapLeaves]) = .ok count t' ∧
    t'.attachmentOf? ⟨0⟩ = some ⟨⟨2⟩, [.name "body", .index 1]⟩ ∧
    t'.resolve (.node ⟨2⟩) [.name "body", .index 1] = .ok (.node ⟨0⟩) := by
  have hforest : (DirectEdit.run twoLeaves [swapLeaves]).Forest :=
    Descending.forest (by decide) (by decide)
  have hroot : twoLeaves.get? ⟨2⟩ = some twoLeaves.nodes[2] := rfl
  obtain ⟨count, t', hrun, htrue⟩ :=
    stamp_after_edits wellLinked_twoLeaves hroot rfl [swapLeaves] hforest
  obtain rfl := after_of_ok hrun
  refine ⟨hforest, count, _, hrun, by decide, ?_⟩
  obtain ⟨p, hp, hres⟩ := htrue ⟨0⟩ ⟨⟨2⟩, [.name "body", .index 1]⟩ (by decide)
  have hblock : ∀ q ∈ ((stamp ⟨2⟩).after (DirectEdit.run twoLeaves [swapLeaves])).get? ⟨2⟩,
      ⟨0⟩ ∈ q.held ∧ q.Distinct := by decide
  obtain ⟨hheld, hd⟩ := hblock p hp
  exact hres (.inl ⟨.single ⟨p, hp, hheld⟩, hd⟩)

/-- The leaf that was let go still records the first place, where the other leaf stands now. Removing
it takes out the other leaf. -/
theorem stamp_after_edits_dropped : twoLeaves.WellLinked ∧
    (DirectEdit.run twoLeaves [dropFirst]).Forest ∧ ∃ count t' t'',
    (stamp ⟨2⟩).run (DirectEdit.run twoLeaves [dropFirst]) = .ok count t' ∧
    t'.attachmentOf? ⟨0⟩ = some ⟨⟨2⟩, [.name "body", .index 0]⟩ ∧
    t'.resolve (.node ⟨2⟩) [.name "body", .index 0] = .ok (.node ⟨1⟩) ∧
    (remove ⟨0⟩).run t' = .ok () t'' ∧ t''.childNodes ⟨2⟩ = .ok [] :=
  ⟨wellLinked_twoLeaves, Descending.forest (by decide) (by decide), _, _, _, rfl, by decide,
    by decide, rfl, by decide⟩

end Linking

end Trellis
