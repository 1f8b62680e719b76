import Trellis.Proofs.Removal
import Trellis.Proofs.Replacement

/-!
# Which calls fail

In a well-linked tree a call that moves nodes or asks about their places fails on a check or not at
all. Every recorded path leads to its node, so looking it up, stepping along it, writing there and
erasing there never fail, although each of them could. `Tree.removalFault?` and
`Tree.replacementFault?` name the checks.

There is one way around the checks of a replacement: the new node is held by a node that was not
stamped, and the old one lies below it. What stamping then does is not said, but even then no error is
about a path.
-/

namespace Trellis

open Relation (ReflTransGen TransGen)

namespace Tree

variable {t t' : Tree} {new parent : NodeId} {p' : Node}

/-- Writing a node of a forest leaves a forest below every node that does not lie above it. -/
theorem Rewritten.forestBelow (hr : t.Rewritten parent p' t') (hf : t.Forest)
    (hpar : ¬ ReflTransGen t.Holds new parent) : t'.ForestBelow new := by
  have hholds : ∀ {a b}, ReflTransGen t'.Holds new a → t'.Holds a b → t.Holds a b := by
    intro a b ha hab
    rcases hr.holds_iff.mp hab with ⟨rfl, -⟩ | ⟨-, hab⟩
    · exact absurd ((hr.reaches_iff hpar).mp ha) hpar
    · exact hab
  constructor
  · intro a b ha hab
    exact hr.known (hf.known (hholds ha hab))
  · intro a n ha hn
    rcases hr.cases hn with ⟨rfl, -⟩ | ⟨-, m, hm, hbody⟩
    · exact absurd ((hr.reaches_iff hpar).mp ha) hpar
    · exact Node.held_of_body hbody ▸ hf.held_once hm
  · intro a b c ha hb hac hbc
    exact hf.one_holder (hholds ha hac) (hholds hb hbc)

theorem Rewritten.acyclic_below (hr : t.Rewritten parent p' t') (hf : t.Forest)
    (hpar : ¬ ReflTransGen t.Holds new parent) {a : NodeId} (ha : t'.Below new a) :
    ¬ t'.Below a a := by
  have hreach := ((hr.below_iff hpar).mp ha).to_reflTransGen
  intro haa
  exact hf.acyclic a ((hr.below_iff fun h => hpar (hreach.trans h)).mp haa)

/-- The errors that calls about linkage end in, whatever they are called with. -/
inductive Raised (t : Tree) : TreeError → Prop where
  | remove {id : NodeId} {e : TreeError} {t' : Tree} :
    (Linking.remove id).run t = .error e t' → Raised t e
  | replace {old new : NodeId} {e : TreeError} {t' : Tree} :
    (Linking.replace old new).run t = .error e t' → Raised t e
  | sibling {id : NodeId} {side : Side} {e : TreeError} {t' : Tree} :
    (Linking.sibling id side).run t = .error e t' → Raised t e
  | rootOf {id : NodeId} {e : TreeError} : t.rootOf id = .error e → Raised t e
  | fullPath {id : NodeId} {e : TreeError} : t.fullPath id = .error e → Raised t e
  | firstChild {id : NodeId} {e : TreeError} : t.firstChild id = .error e → Raised t e
  | lastChild {id : NodeId} {e : TreeError} : t.lastChild id = .error e → Raised t e

end Tree

namespace Linking

open Trellis.Tree

variable {t : Tree} {old new id : NodeId} {n m : Node} {a : Attachment}

/-- The run fails with the given error and leaves the tree as it was, or, if there is none,
succeeds. -/
def FailsWith {α : Type} (x : Linking α) (t : Tree) : Option TreeError → Prop
  | some e => x.run t = .error e t
  | none => ∃ a t', x.run t = .ok a t'

section FailsWith

variable {α : Type} {x : Linking α} {fault? : Option TreeError} {e : TreeError} {t' : Tree}

theorem FailsWith.refused (h : x.FailsWith t fault?) (hfault : fault? = some e) :
    x.run t = .error e t := by
  rwa [hfault] at h

theorem FailsWith.succeeds (h : x.FailsWith t fault?) (hfault : fault? = none) :
    ∃ a t', x.run t = .ok a t' := by
  rwa [hfault] at h

theorem FailsWith.of_error (h : x.FailsWith t fault?) (hrun : x.run t = .error e t') :
    fault? = some e := by
  cases hfault : fault? with
  | some e' =>
    obtain ⟨rfl, -⟩ := EStateM.Result.error.inj ((h.refused hfault).symm.trans hrun)
    rfl
  | none =>
    obtain ⟨a, t'', hok⟩ := h.succeeds hfault
    cases hok.symm.trans hrun

end FailsWith

/-! ## Removing and replacing -/

theorem remove_failsWith (hl : t.WellLinked) (id : NodeId) :
    (remove id).FailsWith t (t.removalFault? id) := by
  rcases run_remove_cases hl id with ⟨e, hfault, hrun⟩ | ⟨hfault, n, parent, above, last, hn, ha, hne⟩
  · rw [hfault]
    exact hrun
  · rw [hfault]
    obtain ⟨p, hp, -⟩ := hl.attached hn ha
    obtain ⟨-, -, -, -, -, t', -, hrun, -⟩ := run_remove hl hn ha hp hne
    exact ⟨(), t', hrun⟩

/-- A replacement that passes all checks gets as far as stamping below the new node. -/
theorem run_replace_passed (hl : t.WellLinked) (hfault : t.replacementFault? old new = none) :
    ∃ n parent p' t₁, t.Holds parent old ∧ t.Rewritten parent p' t₁ ∧ t₁.get? old = some n ∧
      (replace old new).run t = EStateM.run (do
        let _ ← stampDescendants new
        change old Node.detach) t₁ := by
  obtain ⟨hne, hrn, m, n, ⟨parent, path⟩, hm, hfresh, hn, ha⟩ := passed_of_replacementFault? hfault
  obtain ⟨root, place, hs, hroot, -⟩ := hl.wellPlaced.situated hn
  obtain ⟨p, hp, -⟩ := hl.attached hn ha
  -- The new node is unattached, so as a parent it would be the topmost node.
  have hpar : parent ≠ new := by
    rintro rfl
    have htop : t.Situated parent _ old := .under hn ha (.top hm hfresh)
    exact hrn ((hs.unique htop).1 ▸ hroot)
  obtain ⟨p', before, after, t₁, hrun, -, -, -, -, hold, hr⟩ :=
    run_replace_install hl hn ha hp hm hfresh hne hpar hroot fun h => hrn (h ▸ hroot)
  refine ⟨n, parent, p', t₁, hl.holds_parent hn ha, ?_, hold, hrun⟩
  exact hr.toRewritten.trans (sameBodies_update t₁ old Node.body_detach).symm

theorem replace_failsWith (hl : t.WellLinked)
    (hapart : ¬ t.Below new old ∨ t.rootOf old = .ok new) :
    (replace old new).FailsWith t (t.replacementFault? old new) := by
  cases hfault : t.replacementFault? old new with
  | some e => exact run_replace_fault hfault
  | none =>
    obtain ⟨-, hrn, m, -, -, hm, -⟩ := passed_of_replacementFault? hfault
    have hbelow := hapart.resolve_right hrn
    obtain ⟨n, parent, p', t₁, hhold, hr, hold, hrun⟩ := run_replace_passed hl hfault
    have hpar : ¬ ReflTransGen t.Holds new parent := fun h => hbelow (TransGen.tail' h hhold)
    obtain ⟨k, hk⟩ := hr.known ⟨m, hm⟩
    obtain ⟨t₂, hstamp, hst⟩ := run_stampDescendants (hr.forestBelow hl.toForest hpar)
      (fun a => hr.acyclic_below hl.toForest hpar) hk
    obtain ⟨k', hk'⟩ := hst.sameBodies.known ⟨n, hold⟩
    refine ⟨(), t₂.update old Node.detach, ?_⟩
    rw [hrun, run_bind_ok hstamp, run_change hk']

/-! ## Asking -/

theorem sibling_succeeds (hl : t.WellLinked) (hn : t.get? id = some n) (side : Side) :
    ∃ found t', (sibling id side).run t = .ok found t' := by
  cases ha : n.attachment with
  | some a =>
    obtain ⟨p, hp, hmem⟩ := hl.attached hn ha
    obtain ⟨before, after, hsplit⟩ := List.append_of_mem hmem
    exact ⟨_, run_sibling_attached hl hn ha hp hsplit side⟩
  | none => exact ⟨_, t, run_sibling_loose hn (hl.loose hn ha side) ha⟩

/-- Every question about the place of a node and about its children has an answer. -/
structure AnswersAll (t : Tree) (id : NodeId) : Prop where
  sibling : ∀ side, ∃ found t', (sibling id side).run t = .ok found t'
  rootOf : ∃ root, t.rootOf id = .ok root
  fullPath : ∃ path, t.fullPath id = .ok path
  firstChild : ∃ child, t.firstChild id = .ok child
  lastChild : ∃ child, t.lastChild id = .ok child

theorem answersAll (hl : t.WellLinked) (hn : t.get? id = some n) : AnswersAll t id := by
  obtain ⟨root, path, -, hroot, hpath⟩ := hl.wellPlaced.situated hn
  have hchildren := childNodes_eq hn
  constructor
  · exact sibling_succeeds hl hn
  · exact ⟨root, hroot⟩
  · exact ⟨path, hpath⟩
  · exact ⟨n.held.head?, by rw [firstChild, hchildren]; rfl⟩
  · exact ⟨n.held.getLast?, by rw [lastChild, hchildren]; rfl⟩

/-! ## Errors -/

theorem error_of_removalFault? {e : TreeError} (h : t.removalFault? id = some e)
    (haddress : e.isAddress) : ∃ x, e = .unknownNode x := by
  unfold removalFault? at h
  split at h
  · exact ⟨id, (Option.some.inj h).symm⟩
  · cases h
    cases haddress
  · obtain ⟨p, -, rfl⟩ := Option.map_eq_some_iff.mp h
    cases haddress
  · cases h

theorem error_of_replacementFault? {e : TreeError} (h : t.replacementFault? old new = some e)
    (haddress : e.isAddress) : ∃ x, e = .unknownNode x := by
  obtain ⟨checks, rest, hlist, -⟩ := List.lookup_eq_some_iff.mp h
  have hmem : (true, e) ∈ checks ++ (true, e) :: rest := by simp
  rw [← hlist] at hmem
  simp only [List.mem_cons, Prod.mk.injEq, List.not_mem_nil, or_false] at hmem
  rcases hmem with ⟨-, rfl⟩ | ⟨-, rfl⟩ | ⟨-, rfl⟩ | ⟨-, rfl⟩ | ⟨-, rfl⟩ | ⟨-, rfl⟩
  · cases haddress
  · exact ⟨new, rfl⟩
  · cases haddress
  · exact ⟨old, rfl⟩
  · cases haddress
  · cases haddress

theorem error_of_unstampable {e : TreeError} (h : t.Unstampable new e) (haddress : e.isAddress) :
    ∃ x, e = .unknownNode x := by
  rcases h with ⟨hend, -⟩ | hmissing
  · obtain ⟨x, rfl⟩ := hend
    cases haddress
  · obtain ⟨x, hx, -⟩ := hmissing
    exact ⟨x, hx⟩

/-- A question that can be answered for every node that is there, and refuses one that is not. -/
theorem error_of_question {α : Type} {answer : Except TreeError α} {e : TreeError}
    (known : ∀ n, t.get? id = some n → ∃ a, answer = .ok a)
    (unknown : t.get id = .error (.unknownNode id) → answer = .error (.unknownNode id))
    (h : answer = .error e) : ∃ x, e = .unknownNode x := by
  cases hn : t.get? id with
  | none => exact ⟨id, Except.error.inj (h.symm.trans (unknown (get_of_get?_none hn)))⟩
  | some n =>
    obtain ⟨a, ha⟩ := known n hn
    cases h.symm.trans ha

/-- Of the errors about addresses, only that of an unknown node is ever met. -/
theorem error_of_raised (hl : t.WellLinked) {e : TreeError} (h : t.Raised e)
    (haddress : e.isAddress) : ∃ x, e = .unknownNode x := by
  cases h with
  | remove hrun => exact error_of_removalFault? ((remove_failsWith hl _).of_error hrun) haddress
  | @replace old new e t' hrun =>
    cases hfault : t.replacementFault? old new with
    | some e' =>
      obtain ⟨rfl, -⟩ := EStateM.Result.error.inj ((run_replace_fault hfault).symm.trans hrun)
      exact error_of_replacementFault? hfault haddress
    | none =>
      obtain ⟨-, -, m, -, -, hm, -⟩ := passed_of_replacementFault? hfault
      obtain ⟨n, parent, p', t₁, -, hr, -, hpassed⟩ := run_replace_passed hl hfault
      have hends : Ends (do
          let _ ← stampDescendants new
          change old Node.detach) t₁ (fun _ _ => True)
          fun e _ => e.isAddress → ∃ x, e = .unknownNode x := by
        apply ends_bind (P := fun _ _ => True)
        · have hstamp := ends_stampDescendants new (hr.known ⟨m, hm⟩) (.refl t₁)
          apply hstamp.mono (fun _ _ _ => trivial)
          intro e t' hstop
          exact error_of_unstampable hstop.2
        · intro _ t' _
          exact ends_change (fun _ _ => trivial) fun _ _ => ⟨old, rfl⟩
      exact hends.of_error (hpassed.symm.trans hrun) haddress
  | @sibling id side e t' hrun =>
    cases hn : t.get? id with
    | none =>
      obtain ⟨rfl, -⟩ := EStateM.Result.error.inj ((run_sibling_unknown hn side).symm.trans hrun)
      exact ⟨id, rfl⟩
    | some n =>
      obtain ⟨found, t'', hok⟩ := sibling_succeeds hl hn side
      cases hok.symm.trans hrun
  | rootOf h =>
    apply error_of_question (fun n hn => (answersAll hl hn).rootOf) _ h
    intro hget
    simp [rootOf, nesting, rootOfFrom, hget, bind, Except.bind]
  | fullPath h =>
    apply error_of_question (fun n hn => (answersAll hl hn).fullPath) _ h
    intro hget
    simp [fullPath, nesting, fullPathFrom, hget, bind, Except.bind]
  | firstChild h =>
    apply error_of_question (fun n hn => (answersAll hl hn).firstChild) _ h
    intro hget
    simp [firstChild, childNodes, childNodesWithPaths, hget, bind, Except.bind]
  | lastChild h =>
    apply error_of_question (fun n hn => (answersAll hl hn).lastChild) _ h
    intro hget
    simp [lastChild, childNodes, childNodesWithPaths, hget, bind, Except.bind]

/-- Which calls fail in a well-linked tree, with which error, and that nothing has changed then. A
removal fails on its fault. So does a replacement, unless the old node lies below the new one and the
records lead up to another root; `replacementFault?` is the first check that applies. Questions about
a known node never fail. Whatever the calls are given, none of them reports a path that does not
lead anywhere. -/
theorem linkage_calls_fail_exactly (hl : t.WellLinked) :
    (∀ id, (remove id).FailsWith t (t.removalFault? id)) ∧
    (∀ old new, ¬ t.Below new old ∨ t.rootOf old = .ok new →
      (replace old new).FailsWith t (t.replacementFault? old new)) ∧
    (∀ id n, t.get? id = some n → AnswersAll t id) ∧
    ∀ e, t.Raised e → e.isAddress → ∃ x, e = .unknownNode x := by
  refine ⟨remove_failsWith hl, ?_, ?_, ?_⟩
  · intro old new hapart
    exact replace_failsWith hl hapart
  · intro id n hn
    exact answersAll hl hn
  · intro e he haddress
    exact error_of_raised hl he haddress

/-- A leaf that makes up a field stays, one in a list does not. The grid is above all its nodes, and
what is attached does not replace anything; a leaf that the spare card holds and that was never
attached does. -/
theorem linkage_calls_fail_exactly_raggedGrid :
    (remove ⟨0⟩).run raggedGrid = .error (.fixedField "Cell" "value") raggedGrid ∧
    (∃ a t', (remove ⟨2⟩).run raggedGrid = .ok a t') ∧
    (replace ⟨2⟩ ⟨4⟩).run raggedGrid = .error (.cyclicReplacement ⟨4⟩) raggedGrid ∧
    (replace ⟨9⟩ ⟨0⟩).run raggedGrid = .error (.alreadyAttached ⟨0⟩) raggedGrid ∧
    (∃ found t', (prevSibling ⟨3⟩).run raggedGrid = .ok found t') ∧
    ¬ raggedGrid.Raised .emptyPath ∧
    ∃ a t', (replace ⟨4⟩ ⟨0⟩).run spareCard = .ok a t' := by
  have hdesc : raggedGrid.Descending := by decide
  have hdesc' : spareCard.Descending := by decide
  obtain ⟨hremove, hreplace, hask, hraised⟩ :=
    linkage_calls_fail_exactly (hdesc.wellLinked (by decide))
  obtain ⟨-, hreplace', -⟩ := linkage_calls_fail_exactly (hdesc'.wellLinked (by decide))
  have hroot : raggedGrid.rootOf ⟨2⟩ = .ok ⟨4⟩ := by decide
  have hapart : ¬ raggedGrid.Below ⟨0⟩ ⟨9⟩ := fun h => absurd (hdesc.lt_of_below h) (by decide)
  have hapart' : ¬ spareCard.Below ⟨0⟩ ⟨4⟩ := fun h => absurd (hdesc'.lt_of_below h) (by decide)
  refine ⟨?_, ?_, ?_, ?_, (hask ⟨3⟩ _ rfl).sibling .prev, ?_, ?_⟩
  · exact (hremove ⟨0⟩).refused (by decide)
  · exact (hremove ⟨2⟩).succeeds (by decide)
  · exact (hreplace ⟨2⟩ ⟨4⟩ (.inr hroot)).refused (by decide)
  · exact (hreplace ⟨9⟩ ⟨0⟩ (.inl hapart)).refused (by decide)
  · intro hempty
    obtain ⟨x, hx⟩ := hraised _ hempty rfl
    cases hx
  · exact (hreplace' ⟨4⟩ ⟨0⟩ (.inl hapart')).succeeds (by decide)

end Linking

end Trellis
