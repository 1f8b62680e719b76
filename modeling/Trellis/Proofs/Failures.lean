import Trellis.Proofs.Outcomes

/-!
# What failing calls leave behind

A call that stamps, removes or replaces and fails should leave the tree as it was. It does so in all
cases but two. A node that is referred to and not in the tree is noticed only when its turn comes, and
a way down that comes back to itself is noticed only when the budget is spent; what was written by
then stays written. Nothing is asked of the tree here.

A call that succeeds is not looked at.
-/

namespace Trellis

open Relation (ReflTransGen)

namespace Tree

variable {t t' : Tree} {parent new x : NodeId} {e : TreeError}

/-- What stands in the way of a stamp below a node that was just put in stood there before, unless
the node was put at or below itself. -/
theorem Written.unstampable (h : t.Written (.node parent) [new] t')
    (hnew : ∃ m, t.get? new = some m) (hstop : t'.Unstampable new e) :
    t.Unstampable new e ∨ ((∃ x, e = .endless x) ∧
      ∃ id, ReflTransGen t.Holds parent id ∧ ReflTransGen t.Holds new id) := by
  have hrec := h.sameRecords
  obtain ⟨id, n, i, w, hid, hn, rfl, hx⟩ := h
  have hedge := (rewritten_setField hn i w).edge hn hx
  -- Below the new node its new place is of no use: a way down that comes back to it starts afresh.
  have hreach : ∀ {x}, ReflTransGen (t.update id (·.setField i w)).Holds new x →
      ReflTransGen t.Holds new x := by
    intro x hx
    induction hx with
    | refl => exact .refl
    | tail _ hbc ih =>
      rcases hedge _ _ hbc with hbc | ⟨-, rfl⟩
      · exact ih.tail hbc
      · exact .refl
  rcases hstop with ⟨hend, a, ha, haa⟩ | ⟨x, hx, hunknown, hmet⟩
  · rcases below_of_edge hedge haa with haa | ⟨haid, -⟩
    · exact .inl (.inl ⟨hend, a, hreach ha, haa⟩)
    · exact .inr ⟨hend, id, beneath_node.mp hid, (hreach ha).trans haid⟩
  · have hunknown := (hrec.unknown_iff x).mp hunknown
    rcases Relation.reflTransGen_iff_eq_or_transGen.mp (hreach hmet.to_reflTransGen) with
      rfl | hbelow
    · obtain ⟨m, hm⟩ := hnew
      cases hm.symm.trans hunknown
    · exact .inl (.inr ⟨x, hx, hunknown, hbelow⟩)

end Tree

namespace Linking

open Trellis.Tree

/-- A failing call leaves the tree as it was, unless it is stopped halfway. A stamp is stopped by what
lies below its root. A removal is stopped once the entry is erased, by a node that is not there: a
neighbour that the removed node knows, or one below its parent. A replacement is stopped once the
entry is written, by a neighbour that is not there, by what lies below the new node, or because the
new node, which is there, is put at or below itself. -/
theorem failing_calls_leave (t : Tree) :
    (∀ root e t', (stamp root).run t = .error e t' → t' = t ∨ t.Unstampable root e) ∧
    (∀ id e t', (remove id).run t = .error e t' →
      t' = t ∨ ∃ a done, t.attachmentOf? id = some a ∧
        t.erase (.node a.parent) a.path = .ok done ∧
        t.Missing (fun x => (∃ side, t.slots id side = .to x) ∨ t.Below a.parent x) e) ∧
    ∀ old new e t', (replace old new).run t = .error e t' →
      t' = t ∨ ∃ a done, t.attachmentOf? old = some a ∧ (∃ m, t.get? new = some m) ∧
        t.assign (.node a.parent) a.path (.node new) = .ok done ∧
        (t.Missing (fun x => ∃ side, t.slots old side = .to x) e ∨ t.Unstampable new e ∨
          ((∃ x, e = .endless x) ∧
            ∃ id, ReflTransGen t.Holds a.parent id ∧ ReflTransGen t.Holds new id)) := by
  refine ⟨?_, ?_, ?_⟩
  · intro root e t' hrun
    exact ((ends_stamp t root).of_error hrun).imp_right And.right
  · intro id e t' hrun
    exact (ends_remove t id).of_error hrun
  · intro old new e t' hrun
    rcases (ends_replace t old new).of_error hrun with ⟨h, -⟩ | ⟨a, t₁, hplaced, -, hstop⟩
    · exact .inl h
    right
    obtain ⟨done, hassign, -⟩ := hplaced.assigned
    refine ⟨a, done, hplaced.attached, hplaced.known, hassign, ?_⟩
    rcases hstop with hlink | hstop
    · exact .inl hlink
    right
    -- The entry is written, and stamping below the new node stops.
    rcases hplaced.written with hw | hw
    · rw [hw] at hstop
      exact .inl hstop
    · exact hw.unstampable hplaced.known hstop

/-- Two lists, each with a leaf and then a node that is not there. Only the first leaf is attached. -/
def dangling : Tree where
  nodes := #[
    { kind := ⟨"Leaf", []⟩, fields := [], arity := Node.arity_leaf,
      attachment := some ⟨⟨2⟩, [.name "children", .index 0]⟩ },
    { kind := ⟨"Leaf", []⟩, fields := [], arity := Node.arity_leaf },
    { kind := ⟨"NAry", ["children"]⟩, fields := [.list [.node ⟨0⟩, .node ⟨9⟩]], arity := rfl },
    { kind := ⟨"NAry", ["children"]⟩, fields := [.list [.node ⟨1⟩, .node ⟨9⟩]], arity := rfl }]

/-- A call that is refused leaves even such a tree as it was. -/
theorem failing_calls_leave_dangling : ∃ t',
    (remove ⟨1⟩).run dangling = .error (.detached ⟨1⟩) t' ∧ t' = dangling := by
  refine ⟨_, rfl, ?_⟩
  rcases (failing_calls_leave dangling).2.1 ⟨1⟩ _ _ rfl with h | ⟨a, done, ha, -⟩
  · exact h
  · cases ha

/-- Each of the calls can fail halfway: the leaf of the second list gets attached, the entry of the
first leaf is gone, the second list stands in its place. -/
theorem failing_calls_halfway : ∃ t₁ t₂ t₃,
    (stamp ⟨3⟩).run dangling = .error (.unknownNode ⟨9⟩) t₁ ∧ t₁ ≠ dangling ∧
    (remove ⟨0⟩).run dangling = .error (.unknownNode ⟨9⟩) t₂ ∧ t₂ ≠ dangling ∧
    (replace ⟨0⟩ ⟨3⟩).run dangling = .error (.unknownNode ⟨9⟩) t₃ ∧ t₃ ≠ dangling :=
  ⟨_, _, _, rfl, by decide, rfl, by decide, rfl, by decide⟩

end Linking

end Trellis
