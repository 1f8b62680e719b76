import Trellis.Proofs.Removing
import Trellis.Proofs.Replacing
import Trellis.Proofs.Growing

/-!
# Whole runs

Nodes are added, stamped, asked for their neighbours, removed, copied and replaced, in any order,
starting from the empty tree. Calls may fail. Two of them ask something of the tree at hand: the
fields of a new node have names of their own and hold only what nobody holds yet, and a node may only
be put in the place of another if nobody holds it and the other does not lie below it. Along every
such run the tree is well-linked. Edits that write fields directly are not part of this; they ask for
a fresh stamp.
-/

namespace Trellis

/-- A call that works on the linkage of a tree. -/
inductive Operation where
  | add (kind : Kind) (fields : List Value)
  | stamp (root : NodeId)
  | next (id : NodeId)
  | prev (id : NodeId)
  | remove (id : NodeId)
  | copy (id : NodeId)
  | replace (old new : NodeId)

namespace Operation

/-- The tree after a call, whether it succeeded or failed. -/
def after : Operation → Tree → Tree
  | add kind fields => (Linking.addNode kind fields).after
  | stamp root => (Linking.stamp root).after
  | next id => (Linking.nextSibling id).after
  | prev id => (Linking.prevSibling id).after
  | remove id => (Linking.remove id).after
  | copy id => (Linking.copy id).after
  | replace old new => (Linking.replace old new).after

/-- What a call asks of the tree at hand. -/
def Allowed (t : Tree) : Operation → Prop
  | add kind fields => t.Admits kind fields
  | replace old new => (∀ holder, ¬ t.Holds holder new) ∧ ¬ t.Below new old
  | _ => True

/-- The tree after a run of calls. -/
def run (t : Tree) (calls : List Operation) : Tree := calls.foldl (fun t call => call.after t) t

/-- Every call of a run is allowed when its turn comes. -/
def Permitted : Tree → List Operation → Prop
  | _, [] => True
  | t, call :: rest => call.Allowed t ∧ Permitted (call.after t) rest

/-- One call keeps a tree well-linked. -/
theorem wellLinked_after {t : Tree} (hl : t.WellLinked) {call : Operation}
    (h : call.Allowed t) : (call.after t).WellLinked := by
  cases call with
  | add kind fields => exact Linking.wellLinked_addNode hl h
  | stamp root => exact Linking.wellLinked_stamp hl root
  | next id => exact Linking.wellLinked_sibling hl id .next
  | prev id => exact Linking.wellLinked_sibling hl id .prev
  | remove id => exact Linking.wellLinked_remove hl id
  | copy id => exact Linking.wellLinked_copy hl id
  | replace old new => exact Linking.wellLinked_replace hl old new h.1 h.2

/-- A run keeps a tree well-linked at every step. -/
theorem wellLinked_run {t : Tree} (hl : t.WellLinked) {calls : List Operation}
    (h : Permitted t calls) (k : Nat) : (run t (calls.take k)).WellLinked := by
  induction calls generalizing t k with
  | nil => simpa [run] using hl
  | cons call rest ih =>
    cases k with
    | zero => exact hl
    | succ k => exact ih (wellLinked_after hl h.1) h.2 k

theorem wellLinked_empty : Tree.empty.WellLinked :=
  Tree.Descending.wellLinked (by decide) (by decide)

/-- After every step of every run from the empty tree, the tree is well-linked. -/
theorem runs_are_well_linked (calls : List Operation) (h : Permitted Tree.empty calls) (k : Nat) :
    (run Tree.empty (calls.take k)).WellLinked :=
  wellLinked_run wellLinked_empty h k

/-- Two leaves in a list, stamped; the first is asked for its neighbour and then replaced, and the
second is removed. -/
def shortRun : List Operation :=
  let leaf : Kind := ⟨"Leaf", []⟩
  [.add leaf [], .add leaf [], .add ⟨"Block", ["body"]⟩ [.list [.node ⟨0⟩, .node ⟨1⟩]],
    .stamp ⟨2⟩, .next ⟨0⟩, .add leaf [], .replace ⟨0⟩ ⟨3⟩, .remove ⟨1⟩, .copy ⟨2⟩]

theorem runs_are_well_linked_short : Permitted Tree.empty shortRun ∧
    (run Tree.empty (shortRun.take 8)).WellLinked := by
  have hleaf : ∀ t : Tree, t.Admits ⟨"Leaf", []⟩ [] := fun t =>
    ⟨by simp, by simp, by simp, by simp, by simp⟩
  have hknown : ∀ {t : Tree} {c : NodeId}, (t.get? c).isSome → ∃ n, t.get? c = some n :=
    Option.isSome_iff_exists.mp
  have hunheld : ∀ {t : Tree} {c : NodeId},
      (∀ i (h : i < t.nodes.size), c ∉ t.nodes[i].held) → ∀ holder, ¬ t.Holds holder c := by
    rintro t c hc holder ⟨n, hn, hm⟩
    obtain ⟨hi, rfl⟩ := Array.getElem?_eq_some_iff.mp hn
    exact hc _ hi hm
  have hchildless : ∀ {t : Tree} {a b : NodeId}, (t.get? a).map Node.held = some [] →
      ¬ t.Below a b := by
    intro t a b ha hab
    obtain ⟨c, ⟨n, hn, hm⟩, -⟩ := Relation.TransGen.head'_iff.mp hab
    simp_all
  have h : Permitted Tree.empty shortRun := by
    refine ⟨hleaf _, hleaf _, ⟨by decide, by decide, by decide, ?_, ?_⟩, trivial, trivial,
      hleaf _, ⟨hunheld (by decide), hchildless (by decide)⟩, trivial, trivial, trivial⟩
    · intro c hc
      exact hknown (by revert c; decide)
    · intro c hc
      exact hunheld (by revert c; decide)
  exact ⟨h, runs_are_well_linked shortRun h 8⟩

end Operation

end Trellis
