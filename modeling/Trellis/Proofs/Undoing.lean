import Trellis.Proofs.Commuting
import Trellis.Proofs.Replacement

/-!
# Replacing back

After `new` has taken the place of `old`, nobody holds `old`, so it can take its place back. The second
replacement undoes the first: the entry of the parent is written twice and ends with its old value, and
the links that were led from `old` to `new` are led back. That no other link is led to `old` on the way
needs links to be known from both ends: whoever is known to `old` knew `old`.

What lies below `old` or `new` is not as it was, since it has been stamped. Everything else is, and so
every node outside answers its siblings as it did.
-/

namespace Trellis

open Relation (ReflTransGen TransGen)

/-! ## Writing back -/

namespace Value

variable {u u' v v' v'' : Value} {keys : List Key}

theorem Differ.symm (h : Differ u u' keys v v') : Differ u' u keys v' v := by
  induction h with
  | here => exact .here
  | item _ ih => exact .item ih
  | entry _ ih => exact .entry ih

/-- There is one way to write at a place. -/
theorem Differ.unique (h : Differ u u' keys v v') (h' : Differ u u' keys v v'') (hd : v.Distinct) :
    v' = v'' := by
  have hwrite := h.editAt (f := fun _ => .ok ((), u')) hd rfl []
  have hwrite' := h'.editAt (f := fun _ => .ok ((), u')) hd rfl []
  exact (Prod.mk.inj (Except.ok.inj (hwrite.symm.trans hwrite'))).2

end Value

namespace Node

variable {u u' : Value} {path : Path} {n n' m m' : Node}

/-- Writing the old value back gives the old fields back. -/
theorem Differ.back (h : Differ u u' path n n') (h' : Differ u' u path m m')
    (hm : m.body = n'.body) (hd : n'.Distinct) : m'.body = n.body := by
  obtain ⟨name, rest, i, v, v', rfl, hfield, hv, rfl⟩ := h
  obtain ⟨name', rest', j, w, w', hpath, hfield', hw, rfl⟩ := h'
  obtain ⟨hname, rfl⟩ := List.cons.inj hpath
  obtain rfl := Key.name.inj hname
  obtain ⟨hkind, hfields⟩ := Prod.mk.inj hm
  obtain ⟨hi, hvi⟩ := namedField?_eq_some.mp hfield
  obtain ⟨hj, hwj⟩ := namedField?_eq_some.mp hfield'
  have hkind : m.kind = n.kind := hkind
  have hfields : m.fields = n.fields.set i v' := hfields
  obtain ⟨hlt, rfl⟩ := List.getElem?_eq_some_iff.mp hvi
  rw [hkind, hi] at hj
  obtain rfl := Option.some.inj hj
  rw [hfields, List.getElem?_set_self hlt] at hwj
  obtain rfl := Option.some.inj hwj
  have hdv : v'.Distinct := hd.2 v' (List.mem_set hlt v')
  obtain rfl := hw.unique hv.symm hdv
  show (m.kind, m.fields.set i n.fields[i]) = (n.kind, n.fields)
  rw [hkind, hfields, List.set_set, List.set_getElem_self]

end Node

namespace Tree

variable {t t' t'' : Tree} {old new parent x : NodeId} {n m p p' : Node} {path : Path}

/-- `t'` is `t` with `new` in the place of `old`, and what lies below `new` stamped: `Replaced`, as far
as it is known of the nodes that do not lie below `new`. -/
structure Swapped (t : Tree) (old new parent : NodeId) (path : Path) (p p' : Node) (t' : Tree) :
    Prop extends t.Rewritten parent p' t' where
  wellLinked : t'.WellLinked
  differ : Node.Differ (.node old) (.node new) path p p'
  unheld : ∀ holder, ¬ t'.Holds holder old
  unlinked : t'.Unlinked old
  place : t'.attachmentOf? new = some ⟨parent, path⟩
  taken : ∀ s, t'.slots new s = t.slots old s
  attachment : ∀ x, ¬ t.Below new x → x ≠ old → x ≠ new → t'.attachmentOf? x = t.attachmentOf? x
  slots : ∀ x, ¬ t.Below new x → x ≠ old → x ≠ new → ∀ s, t'.slots x s =
    if t.slots old s.opposite = .to x then .to new else t.slots x s

section Swapped

variable (hl : t.WellLinked) (hn : t.get? old = some n) (ha : n.attachment = some ⟨parent, path⟩)
  (hfree : ∀ holder, ¬ t.Holds holder new) (hbelow : ¬ t.Below new old)
  (h : t.Swapped old new parent path p p' t')

include hfree in
theorem not_below_of_free (x : NodeId) : ¬ t.Below x new := by
  intro hx
  obtain ⟨b, -, hb⟩ := TransGen.tail'_iff.mp hx
  exact hfree b hb

include hl hn ha in
theorem not_reaches_parent_of_old : ¬ ReflTransGen t.Holds old parent := fun h =>
  hl.acyclic old (TransGen.tail' h (hl.holds_parent hn ha))

include hl hn ha h in
/-- The same nodes lie below the old node, which may go back to its place. -/
theorem Swapped.below_old : t'.Below old x ↔ t.Below old x :=
  h.below_iff (not_reaches_parent_of_old hl hn ha)

variable {q q' : Node} (hp : t.get? parent = some p) (hq : t'.get? parent = some q)
  (h' : t'.Swapped new old parent path q q' t'')

include h h' hp hq in
/-- The entry of the parent is what it was, and nothing else was written. -/
theorem Swapped.bodies_back : t.SameBodies t'' := by
  intro x
  by_cases hx : x = parent
  · subst hx
    obtain ⟨k, hk, hkp⟩ := h.holder
    obtain rfl : q = k := Option.some.inj (hq.symm.trans hk)
    have hd : p'.Distinct := Node.distinct_of_body hkp.symm (h.wellLinked.distinct hq)
    obtain ⟨k', hk', hkq⟩ := h'.holder
    rw [hk', hp, Option.map_some, Option.map_some, hkq, h.differ.back h'.differ hkp hd]
  · exact (h'.bodies x hx).trans (h.bodies x hx)

include hl hn ha hfree hbelow h h' hp hq in
/-- What does not lie below one of the two nodes records what it did. -/
theorem Swapped.records_back (hxo : ¬ t.Below old x) (hxn : ¬ t.Below new x) :
    t''.get? x = t.get? x := by
  have hxo' : ¬ t'.Below old x := fun hx => hxo ((h.below_old hl hn ha).mp hx)
  by_cases hold : x = old
  · subst hold
    apply get?_eq_of_records (h.bodies_back hp hq h' x)
    · rw [h'.place, attachmentOf?_eq hn, ha]
    · intro s
      rw [h'.taken, h.taken]
  by_cases hnew : x = new
  · subst hnew
    obtain ⟨hat, hslots⟩ := h'.unlinked
    obtain ⟨hat₀, hslots₀⟩ := hl.unlinked hfree
    apply get?_eq_of_records (h.bodies_back hp hq h' x)
    · rw [hat, hat₀]
    · intro s
      rw [hslots, hslots₀]
  · apply get?_eq_of_records (h.bodies_back hp hq h' x)
    · rw [h'.attachment x hxo' hnew hold, h.attachment x hxn hold hnew]
    · intro s
      rw [h'.slots x hxo' hnew hold, h.slots x hxn hold hnew, h.taken]
      by_cases hlink : t.slots old s.opposite = .to x
      · have hback := hl.reciprocal.back hlink
        rw [Side.opposite_opposite] at hback
        rw [if_pos hlink, hback]
      · rw [if_neg hlink, if_neg hlink]

end Swapped

end Tree

namespace Linking

open Trellis.Tree

variable {t t' : Tree} {old new parent x : NodeId} {n m : Node} {path : Path} {a : Attachment}

theorem run_replace_swapped (hl : t.WellLinked) (hn : t.get? old = some n)
    (ha : n.attachment = some ⟨parent, path⟩) (hm : t.get? new = some m)
    (hfree : ∀ holder, ¬ t.Holds holder new) (hbelow : ¬ t.Below new old) :
    ∃ p p' t', t.get? parent = some p ∧ (replace old new).run t = .ok () t' ∧
      t.Swapped old new parent path p p' t' := by
  obtain ⟨p, hp, -⟩ := hl.attached hn ha
  have hne : old ≠ new := by
    rintro rfl
    exact hfree parent (hl.holds_parent hn ha)
  obtain ⟨root, place, hs, hroot, -⟩ := hl.wellPlaced.situated hn
  have hrn : root ≠ new := by
    rintro rfl
    exact not_reaches_old hne hbelow (reaches_of_resolve (hs.resolve hl.wellPlaced))
  obtain ⟨p', before, after, t₁, t', hrun, hsplit, hset, hdiffer, hr, hl₁, hst⟩ :=
    run_replace hl hn ha hp hm hfree hne hbelow hroot hrn
  have hrw := hr.toRewritten.trans hst.sameBodies
  have hout : ∀ {x}, ¬ t.Below new x → t'.get? x = t₁.get? x := fun hx =>
    hr.outside hl hn ha hbelow hst hx
  have hnew := hout (not_below_of_free hfree new)
  refine ⟨p, p', t', hp, hrun, ?_⟩
  refine ⟨hrw, wellLinked_of_stamped hl₁ hst, hdiffer, hrw.unheld hl hp hfree hsplit hset hne,
    ?_, ?_, ?_, ?_, ?_⟩
  · exact hr.unlinked.congr (attachmentOf?_congr (hout hbelow)) (slots_congr (hout hbelow))
  · exact hr.attachmentOf?_new hl hn ha hfree hbelow hst
  · intro s
    rw [slots_congr hnew, hr.taken]
  · intro x hx hxo hxn
    rw [attachmentOf?_congr (hout hx), hr.attachment x hxo hxn]
  · intro x hx hxo hxn s
    rw [slots_congr (hout hx), hr.slots x hxo hxn]

/-! ## Siblings -/

theorem answers_iff {α : Type} {y : Linking α} {a : α} (h : y.Answers t a) (h' : y.Answers t' a)
    (found : α) : y.Answers t' found ↔ y.Answers t found := by
  constructor
  · intro hfound
    exact hfound.unique h' ▸ h
  · intro hfound
    exact hfound.unique h ▸ h'

/-- What a node answers is a matter of its own records and of what the fields hold. -/
theorem sibling_answers_congr (hl : t.WellLinked) (hl' : t'.WellLinked) (hb : t.SameBodies t')
    (hx : t'.get? x = t.get? x) (side : Side) (found : Option NodeId) :
    (sibling x side).Answers t' found ↔ (sibling x side).Answers t found := by
  cases hn : t.get? x with
  | none =>
    have hfail := run_sibling_unknown hn side
    have hfail' := run_sibling_unknown (hx.trans hn) side
    simp [Answers, hfail, hfail']
  | some n =>
    have hn' := hx.trans hn
    cases ha : n.attachment with
    | none =>
      exact answers_iff ⟨t, run_sibling_loose hn (hl.loose hn ha side) ha⟩
        ⟨t', run_sibling_loose hn' (hl'.loose hn' ha side) ha⟩ found
    | some a =>
      obtain ⟨p, before, after, hp, hsplit⟩ := hl.place hn ha
      obtain ⟨p', hp', hbody⟩ := hb.symm.get? hp
      have hsplit' := (Node.heldNodes_of_body hbody).symm.trans hsplit
      exact answers_iff (run_sibling_attached hl hn ha hp hsplit side)
        (run_sibling_attached hl' hn' ha hp' hsplit' side) found

/-! ## Replacing back -/

/-- What replacing there and back leaves. All fields are as they were; so are the place and the links
of every node that does not lie below one of the two, and what it answers when asked for siblings. -/
structure Restored (t : Tree) (old new : NodeId) (t'' : Tree) : Prop where
  fields : ∀ x, (t''.get? x).map Node.body = (t.get? x).map Node.body
  records : ∀ x, ¬ t.Below old x → ¬ t.Below new x → t''.get? x = t.get? x
  siblings : ∀ x, ¬ t.Below old x → ¬ t.Below new x → ∀ side found,
    (sibling x side).Answers t'' found ↔ (sibling x side).Answers t found

/-- In a well-linked tree, an attached node that is replaced by one that nobody holds, and that it does
not lie below, can take its place back, and then everything outside the two is as it was. -/
theorem replacing_back_restores (hl : t.WellLinked) (hn : t.get? old = some n)
    (ha : n.attachment = some a) (hm : t.get? new = some m)
    (hfree : ∀ holder, ¬ t.Holds holder new) (hbelow : ¬ t.Below new old) :
    ∃ t' t'', (replace old new).run t = .ok () t' ∧ (replace new old).run t' = .ok () t'' ∧
      Restored t old new t'' := by
  obtain ⟨parent, path⟩ := a
  obtain ⟨p, p', t', hp, hrun, h⟩ := run_replace_swapped hl hn ha hm hfree hbelow
  -- Now the new node is attached, and the old one is held by nobody.
  obtain ⟨k, hk, hka⟩ := Option.bind_eq_some_iff.mp h.place
  obtain ⟨o, ho⟩ := h.known ⟨n, hn⟩
  have hbelow' : ¬ t'.Below old new := fun hx =>
    not_below_of_free hfree old ((h.below_old hl hn ha).mp hx)
  obtain ⟨q, q', t'', hq, hrun', h'⟩ :=
    run_replace_swapped h.wellLinked hk hka ho h.unheld hbelow'
  have hrecords : ∀ x, ¬ t.Below old x → ¬ t.Below new x → t''.get? x = t.get? x :=
    fun x hxo hxn => h.records_back hl hn ha hfree hbelow hp hq h' hxo hxn
  refine ⟨t', t'', hrun, hrun', ?_⟩
  constructor
  · exact h.bodies_back hp hq h'
  · exact hrecords
  · intro x hxo hxn side found
    exact sibling_answers_congr hl h'.wellLinked (h.bodies_back hp hq h') (hrecords x hxo hxn) side
      found

/-- The leaf of the stack knew the old card, then the spare one, and knows the old card again. -/
theorem replacing_back_restores_spareCard : spareCard.WellLinked ∧ ∃ t' t'',
    (replace ⟨3⟩ ⟨1⟩).run spareCard = .ok () t' ∧ (replace ⟨1⟩ ⟨3⟩).run t' = .ok () t'' ∧
    Restored spareCard ⟨3⟩ ⟨1⟩ t'' ∧ t''.get? ⟨4⟩ = spareCard.get? ⟨4⟩ ∧
    (nextSibling ⟨4⟩).Answers t'' (some ⟨3⟩) := by
  have hdesc : spareCard.Descending := by decide
  have hl : spareCard.WellLinked := hdesc.wellLinked (by decide)
  have hapart : ∀ {a b : NodeId}, a.number ≤ b.number → ¬ spareCard.Below a b := fun hle h =>
    absurd (hdesc.lt_of_below h) (Nat.not_lt.mpr hle)
  have hfree : ∀ holder, ¬ spareCard.Holds holder ⟨1⟩ := by
    intro holder hholds
    obtain ⟨n, hn, hheld⟩ := hholds
    have hunheld : ∀ i (h : i < spareCard.nodes.size), ⟨1⟩ ∉ spareCard.nodes[i].held := by decide
    obtain ⟨hi, rfl⟩ := getElem_of_get? hn
    exact hunheld _ hi hheld
  have hold : spareCard.get? ⟨3⟩ = some spareCard.nodes[3] := rfl
  obtain ⟨t', t'', hrun, hrun', hback⟩ :=
    replacing_back_restores hl hold rfl rfl hfree (hapart (by decide))
  have h3 : ¬ spareCard.Below ⟨3⟩ ⟨4⟩ := hapart (by decide)
  have h1 : ¬ spareCard.Below ⟨1⟩ ⟨4⟩ := hapart (by decide)
  refine ⟨hl, t', t'', hrun, hrun', hback, hback.records ⟨4⟩ h3 h1, ?_⟩
  exact (hback.siblings ⟨4⟩ h3 h1 .next _).mpr ⟨_, rfl⟩

end Linking

end Trellis
