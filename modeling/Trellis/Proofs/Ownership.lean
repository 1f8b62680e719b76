import Trellis.Proofs.FullPath
import Trellis.Proofs.Outcomes

/-!
# Ownership after a replacement

Who owns a node is a matter of what fields hold. The checks that a replacement makes first look at
records instead: at the parent that the new node records, and at the topmost node that the records of
the old one lead up to. Where every held node records its holder the two agree, and a replacement that
would break ownership is refused.

Where nodes have not been stamped the checks can miss an owner. What they miss then has to be known
otherwise: that nobody holds the new node, and that the recorded parent of the old node does not lie at
or below it. With both, ownership stays a forest, whatever is recorded and however the call ends.
-/

namespace Trellis

open Relation (ReflTransGen TransGen)

namespace Tree

variable {t t' : Tree} {parent new old id : NodeId} {a : Attachment}

/-- A node that nobody holds is above everything that lies above one of its own. -/
theorem Forest.reaches_above (hf : t.Forest) (hfree : ∀ holder, ¬ t.Holds holder new)
    (hparent : ReflTransGen t.Holds parent id) (hnew : ReflTransGen t.Holds new id) :
    ReflTransGen t.Holds new parent := by
  induction hparent with
  | refl => exact hnew
  | @tail b c _ hbc ih =>
    -- The last step to `c` is the same on both ways, since `c` has one holder.
    rcases ReflTransGen.cases_tail hnew with rfl | ⟨b', hb', hbc'⟩
    · exact absurd hbc (hfree b)
    · exact ih (hf.one_holder hbc' hbc ▸ hb')

/-- Writing a node that nobody holds keeps a forest, unless the place lies at or below it. -/
theorem Forest.placed (hf : t.Forest) (hfree : ∀ holder, ¬ t.Holds holder new)
    (h : t.Placed old new a t') (hbelow : ¬ ReflTransGen t.Holds new a.parent) : t'.Forest := by
  rcases h.written with rfl | ⟨id, n, i, w, hid, hn, rfl, hx⟩
  · exact hf
  · refine hf.exchanged hn (rewritten_setField hn i w) hx hfree h.known fun hnew => hbelow ?_
    exact hf.reaches_above hfree (beneath_node.mp hid) hnew

/-- Where every held node records its holder, the records of a node below an unattached one lead up
to that one. -/
theorem Forest.rootOf_of_below (hf : t.Forest)
    (hrec : ∀ a b, t.Holds a b → t.parentOf? b = some a) (hfresh : t.attachmentOf? new = none)
    (hbelow : t.Below new old) : t.rootOf old = .ok new := by
  have hup : ∀ x, ReflTransGen t.Holds new x → ∃ n, t.get? x = some n ∧
      ∀ a, n.attachment = some a → ReflTransGen t.Holds new a.parent ∧ t.Holds a.parent x := by
    intro x hx
    rcases ReflTransGen.cases_tail hx with rfl | ⟨b, hb, hbx⟩
    · obtain ⟨c, ⟨n, hn, -⟩, -⟩ := TransGen.head'_iff.mp hbelow
      refine ⟨n, hn, ?_⟩
      intro a ha
      rw [attachmentOf?_eq hn, ha] at hfresh
      cases hfresh
    · obtain ⟨n, hn⟩ := hf.known hbx
      refine ⟨n, hn, ?_⟩
      intro a ha
      have hpar := hrec b x hbx
      rw [parentOf?_eq, attachmentOf?_eq hn, ha] at hpar
      obtain rfl : a.parent = b := Option.some.inj hpar
      exact ⟨hb, hbx⟩
  obtain ⟨root, path, hroot, hs, hok, -⟩ :=
    situated_of_upward (fun x _ => hf.acyclic x) hup hbelow.to_reflTransGen
  -- The node reached records nothing, so nobody holds it, and only `new` is such a node.
  rcases ReflTransGen.cases_tail hroot with rfl | ⟨b, -, hb⟩
  · exact hok
  · obtain ⟨r, hr, hnone⟩ := hs.top_unattached
    have hpar := hrec b root hb
    rw [parentOf?_eq, attachmentOf?_eq hr, hnone] at hpar
    cases hpar

end Tree

namespace Linking

open Trellis.Tree

variable {t : Tree} {old new : NodeId}

/-- A replacement that the recorded parents rule out is refused before anything is written. -/
theorem run_replace_refused (hf : t.Forest)
    (hrec : ∀ a b, t.Holds a b → t.parentOf? b = some a)
    (h : t.Below new old ∨ ∃ holder, t.Holds holder new) :
    ∃ e, (replace old new).run t = .error e t ∧ e.isLinkage := by
  unfold replace
  by_cases hne : old = new
  · rw [if_pos hne]
    exact ⟨_, rfl, rfl⟩
  rw [if_neg hne]
  obtain ⟨m, hm⟩ : ∃ m, t.get? new = some m := by
    rcases h with h | ⟨holder, h⟩
    · obtain ⟨c, ⟨n, hn, -⟩, -⟩ := TransGen.head'_iff.mp h
      exact ⟨n, hn⟩
    · exact hf.known h
  rw [run_bind_ok (run_ask_ok (get_of_get? hm))]
  cases hfresh : m.attachment with
  | some a => exact ⟨_, rfl, rfl⟩
  | none =>
    have hat : t.attachmentOf? new = none := (attachmentOf?_eq hm).trans hfresh
    have hbelow : t.Below new old := by
      rcases h with h | ⟨holder, h⟩
      · exact h
      · have hpar := hrec holder new h
        rw [parentOf?_eq, hat] at hpar
        cases hpar
    obtain ⟨b, -, hb⟩ := TransGen.tail'_iff.mp hbelow
    obtain ⟨n, hn⟩ := hf.known hb
    simp only [Option.isSome_none, Bool.false_eq_true, if_false]
    rw [run_bind_ok (run_ask_ok (get_of_get? hn))]
    cases ha : n.attachment with
    | none => exact ⟨_, rfl, rfl⟩
    | some a =>
      simp only
      rw [run_bind_ok (run_ask_ok (hf.rootOf_of_below hrec hat hbelow)), if_pos rfl]
      exact ⟨_, rfl, rfl⟩

/-- Replacing in a forest. If nobody holds the new node and the recorded parent of the old one does
not lie at or below it, then ownership is a forest afterwards, and the call ends if the way up from
the old node does. If every held node records its holder, then a new node that is held, or that the
old one lies below, is refused, and the tree stays as it was. -/
theorem replace_keeps_forest (hf : t.Forest) (old new : NodeId) :
    ((∀ holder, ¬ t.Holds holder new) →
      (∀ a, t.attachmentOf? old = some a → ¬ ReflTransGen t.Holds new a.parent) →
      ((replace old new).after t).Forest ∧
      ((∀ x, t.rootOf old ≠ .error (.endless x)) →
        ∀ x t', (replace old new).run t ≠ .error (.endless x) t')) ∧
    ((∀ a b, t.Holds a b → t.parentOf? b = some a) →
      (t.Below new old ∨ ∃ holder, t.Holds holder new) →
      ∃ e, (replace old new).run t = .error e t ∧ e.isLinkage) := by
  refine ⟨fun hfree hbelow => ⟨?_, ?_⟩, fun hrec h => run_replace_refused hf hrec h⟩
  · refine ((ends_replace t old new).mono ?_ ?_).after
    · intro _ t' ⟨a, t₁, hplaced, hsame⟩
      exact hsame.forest (hf.placed hfree hplaced (hbelow a hplaced.attached))
    · intro e t' h
      rcases h with ⟨rfl, -⟩ | ⟨a, t₁, hplaced, hsame, -⟩
      · exact hf
      · exact hsame.forest (hf.placed hfree hplaced (hbelow a hplaced.attached))
  · intro hroot x t' hrun
    rcases (ends_replace t old new).of_error hrun with ⟨-, h⟩ | ⟨a, t₁, hplaced, -, hstop⟩
    · exact hroot x (h x rfl)
    · have hforest := hf.placed hfree hplaced (hbelow a hplaced.attached)
      rcases hstop with ⟨y, hy, -⟩ | ⟨-, b, -, hb⟩ | ⟨y, hy, -⟩
      · cases hy
      · exact hforest.acyclic b hb
      · cases hy

/-- A block that holds a leaf, and a leaf to spare. -/
def spareLeaf : Tree where
  nodes := #[
    { kind := ⟨"Leaf", []⟩, fields := [], arity := Node.arity_leaf },
    { kind := ⟨"Leaf", []⟩, fields := [], arity := Node.arity_leaf,
      attachment := some ⟨⟨2⟩, [.name "body", .index 0]⟩ },
    { kind := ⟨"Block", ["body"]⟩, fields := [.list [.node ⟨1⟩]], arity := rfl }]

theorem replace_keeps_forest_spareLeaf : ((replace ⟨1⟩ ⟨0⟩).after spareLeaf).Forest ∧
    ∃ e, (replace ⟨1⟩ ⟨2⟩).run spareLeaf = .error e spareLeaf ∧ e.isLinkage := by
  have hdesc : spareLeaf.Descending := by decide
  have hf : spareLeaf.Forest := hdesc.forest (by decide)
  refine ⟨((replace_keeps_forest hf ⟨1⟩ ⟨0⟩).1 ?_ ?_).1,
    (replace_keeps_forest hf ⟨1⟩ ⟨2⟩).2 ?_ (.inl (.single ⟨spareLeaf.nodes[2], rfl, by decide⟩))⟩
  · intro holder ⟨n, hn, hm⟩
    have hunheld : ∀ i (h : i < spareLeaf.nodes.size), ⟨0⟩ ∉ spareLeaf.nodes[i].held := by decide
    obtain ⟨hi, rfl⟩ := getElem_of_get? hn
    exact hunheld _ hi hm
  · intro a ha hreach
    obtain rfl : (⟨⟨2⟩, [.name "body", .index 0]⟩ : Attachment) = a :=
      Option.some.inj (show _ = some a from ha)
    rcases ReflTransGen.cases_head hreach with h | ⟨b, ⟨n, hn, hb⟩, -⟩
    · cases h
    · cases Option.some.inj (hn.symm.trans (show spareLeaf.get? ⟨0⟩ = some spareLeaf.nodes[0] from rfl))
      cases hb
  · intro a b ⟨n, hn, hb⟩
    have hrec : ∀ i (h : i < spareLeaf.nodes.size), ∀ c ∈ spareLeaf.nodes[i].held,
        spareLeaf.parentOf? c = some ⟨i⟩ := by decide
    obtain ⟨hi, rfl⟩ := getElem_of_get? hn
    exact hrec _ hi b hb

/-- A list that holds a leaf and another list, of which only the leaf in the inner list is attached. -/
def halfStamped : Tree where
  nodes := #[
    { kind := ⟨"Leaf", []⟩, fields := [], arity := Node.arity_leaf,
      attachment := some ⟨⟨2⟩, [.name "children", .index 0]⟩ },
    { kind := ⟨"Leaf", []⟩, fields := [], arity := Node.arity_leaf },
    { kind := ⟨"NAry", ["children"]⟩, fields := [.list [.node ⟨0⟩]], arity := rfl },
    { kind := ⟨"NAry", ["children"]⟩, fields := [.list [.node ⟨1⟩, .node ⟨2⟩]], arity := rfl }]

/-- In a forest that is not stamped throughout, a node that is held already is accepted and then has
two holders, and a node that the old one lies below is put below itself, where stamping does not
end. -/
theorem replace_breaks_halfStamped : halfStamped.Forest ∧
    (∃ t', (replace ⟨0⟩ ⟨1⟩).run halfStamped = .ok () t' ∧ ¬ t'.Forest) ∧
    halfStamped.Below ⟨3⟩ ⟨0⟩ ∧
    ∃ x t', (replace ⟨0⟩ ⟨3⟩).run halfStamped = .error (.endless x) t' := by
  refine ⟨Descending.forest (by decide) (by decide), ⟨_, rfl, ?_⟩, ?_, ⟨_, _, rfl⟩⟩
  · intro hf
    have hinner : ∀ n ∈ ((replace ⟨0⟩ ⟨1⟩).after halfStamped).get? ⟨2⟩, ⟨1⟩ ∈ n.held := by decide
    have houter : ∀ n ∈ ((replace ⟨0⟩ ⟨1⟩).after halfStamped).get? ⟨3⟩, ⟨1⟩ ∈ n.held := by decide
    have hsame : (⟨2⟩ : NodeId) = ⟨3⟩ :=
      hf.one_holder ⟨_, rfl, hinner _ rfl⟩ ⟨_, rfl, houter _ rfl⟩
    cases hsame
  · have hinner : halfStamped.Holds ⟨2⟩ ⟨0⟩ := ⟨halfStamped.nodes[2], rfl, by decide⟩
    have houter : halfStamped.Holds ⟨3⟩ ⟨2⟩ := ⟨halfStamped.nodes[3], rfl, by decide⟩
    exact .tail (.single houter) hinner

end Linking

end Trellis
