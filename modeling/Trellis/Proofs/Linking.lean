import Trellis.Copy
import Trellis.Proofs.Families

/-!
# Runs of linking operations

A run reads the tree, changes single nodes and may fail on the way; `Linking.after` is the tree it
leaves in either case. Most changes only touch what a node records about its place and neighbours.
They keep its body, which is its kind and its fields, and with it everything that is said about
holding and lying below.
-/

namespace Trellis

namespace Linking

section Run

variable {α β : Type} {x : Linking α} {f : α → Linking β} {t t' : Tree} {a : α} {e : TreeError}

theorem run_bind_ok (h : x.run t = .ok a t') : (x >>= f).run t = (f a).run t' := by
  simp only [bind, EStateM.bind, EStateM.run] at h ⊢
  rw [h]

theorem run_bind_error (h : x.run t = .error e t') : (x >>= f).run t = .error e t' := by
  simp only [bind, EStateM.bind, EStateM.run] at h ⊢
  rw [h]

theorem run_ask_ok {question : Tree → Except TreeError α} (h : question t = .ok a) :
    (ask question).run t = .ok a t := by
  rw [ask, run_bind_ok (x := get) rfl, h]
  rfl

theorem run_ask_error {question : Tree → Except TreeError α} (h : question t = .error e) :
    (ask question).run t = .error e t := by
  rw [ask, run_bind_ok (x := get) rfl, h]
  rfl

theorem run_change {id : NodeId} {n : Node} (h : t.get? id = some n) (f : Node → Node) :
    (change id f).run t = .ok () (t.update id f) := by
  rw [change, run_bind_ok (run_ask_ok (Tree.get_of_get? h))]
  rfl

theorem run_edit_ok {operation : Tree → Except TreeError (Edited α)} {done : Edited α}
    (h : operation t = .ok done) : (edit operation).run t = .ok done.answer done.tree := by
  rw [edit, run_bind_ok (run_ask_ok h)]
  rfl

theorem run_edit_error {operation : Tree → Except TreeError (Edited α)}
    (h : operation t = .error e) : (edit operation).run t = .error e t := by
  rw [edit, run_bind_error (run_ask_error h)]

/-- The tree after a run, whether it succeeded or failed. -/
def after (x : Linking α) (t : Tree) : Tree :=
  match x.run t with
  | .ok _ t' => t'
  | .error _ t' => t'

theorem after_of_ok (h : x.run t = .ok a t') : x.after t = t' := by
  rw [after, h]

theorem after_of_error (h : x.run t = .error e t') : x.after t = t' := by
  rw [after, h]

theorem after_bind_ok (h : x.run t = .ok a t') : (x >>= f).after t = (f a).after t' := by
  rw [after, run_bind_ok h, after]

/-- A question that fails ends a run and leaves the tree as it was. -/
theorem after_bind_ask_error {question : Tree → Except TreeError α} (h : question t = .error e) :
    (ask question >>= f).after t = t :=
  after_of_error (run_bind_error (run_ask_error h))

/-- Changes to different nodes, one after another, are each made. -/
theorem run_forM_change {ι : Type} (key : ι → NodeId) (f : ι → Node → Node) (l : List ι)
    (t : Tree) (hknown : ∀ i ∈ l, ∃ n, t.get? (key i) = some n) (hnd : (l.map key).Nodup) :
    ∃ t', (l.forM fun i => change (key i) (f i)).run t = .ok () t' ∧
      (∀ i ∈ l, t'.get? (key i) = (t.get? (key i)).map (f i)) ∧
      ∀ y, y ∉ l.map key → t'.get? y = t.get? y := by
  induction l generalizing t with
  | nil => exact ⟨t, rfl, by simp, by simp⟩
  | cons i l ih =>
    obtain ⟨hi, hnd⟩ := List.nodup_cons.mp hnd
    obtain ⟨n, hn⟩ := hknown i (by simp)
    have hne : ∀ j ∈ l, key i ≠ key j := by
      intro j hj h
      exact hi (h ▸ List.mem_map_of_mem hj)
    obtain ⟨t', hrun, hin, hout⟩ := ih (t.update (key i) (f i)) (fun j hj => by
      rw [Tree.get?_update_of_ne (hne j hj)]
      exact hknown j (List.mem_cons_of_mem i hj)) hnd
    refine ⟨t', ?_, ?_, ?_⟩
    · rw [List.forM, run_bind_ok (run_change hn (f i))]
      exact hrun
    · intro j hj
      rcases List.mem_cons.mp hj with rfl | hj
      · rw [hout _ hi, Tree.get?_update_self]
      · rw [hin j hj, Tree.get?_update_of_ne (hne j hj)]
    · intro y hy
      simp only [List.map_cons, List.mem_cons, not_or] at hy
      rw [hout y hy.2, Tree.get?_update_of_ne (Ne.symm hy.1)]

end Run

end Linking

namespace Node

/-! ## What a change of a node keeps -/

/-- What a node is apart from its linkage. -/
def body (n : Node) : Kind × List Value := (n.kind, n.fields)

variable {m n : Node}

theorem heldNodes_of_body (h : m.body = n.body) : m.heldNodes = n.heldNodes := by
  obtain ⟨hk, hf⟩ := Prod.mk.inj h
  rw [heldNodes, heldNodes, namedFields, namedFields, hk, hf]

theorem held_of_heldNodes (h : m.heldNodes = n.heldNodes) : m.held = n.held := by
  rw [held, held, h]

theorem held_of_body (h : m.body = n.body) : m.held = n.held :=
  held_of_heldNodes (heldNodes_of_body h)

theorem distinct_of_body (h : m.body = n.body) (hn : n.Distinct) : m.Distinct := by
  obtain ⟨hk, hf⟩ := Prod.mk.inj h
  rwa [Distinct, hk, hf]

@[simp] theorem body_setLink (n : Node) (side : Side) (l : Link) :
    (n.setLink side l).body = n.body := by
  cases side <;> rfl

@[simp] theorem attachment_setLink (n : Node) (side : Side) (l : Link) :
    (n.setLink side l).attachment = n.attachment := by
  cases side <;> rfl

theorem link_setLink (n : Node) (side s : Side) (l : Link) :
    (n.setLink side l).link s = if s = side then l else n.link s := by
  cases side <;> cases s <;> rfl

@[simp] theorem body_detach (n : Node) : n.detach.body = n.body := rfl

@[simp] theorem attachment_detach (n : Node) : n.detach.attachment = none := rfl

@[simp] theorem link_detach (n : Node) (side : Side) : n.detach.link side = .unknown := by
  cases side <;> rfl

theorem detach_eq_self (ha : n.attachment = none) (hl : ∀ side, n.link side = .unknown) :
    n.detach = n := by
  obtain ⟨kind, fields, arity, attachment, prev, next⟩ := n
  obtain rfl : attachment = none := ha
  obtain rfl : prev = .unknown := hl .prev
  obtain rfl : next = .unknown := hl .next
  rfl

@[simp] theorem body_attach (n : Node) (a : Attachment) : (n.attach a).body = n.body := rfl

@[simp] theorem attachment_attach (n : Node) (a : Attachment) :
    (n.attach a).attachment = some a := rfl

@[simp] theorem link_attach (n : Node) (a : Attachment) (side : Side) :
    (n.attach a).link side = .unknown := by
  cases side <;> rfl

@[simp] theorem body_renumber (n : Node) (depth index : Nat) :
    (n.renumber depth index).body = n.body := rfl

@[simp] theorem link_renumber (n : Node) (depth index : Nat) (side : Side) :
    (n.renumber depth index).link side = n.link side := by
  cases side <;> rfl

@[simp] theorem attachment_setField (n : Node) (i : Nat) (v : Value) :
    (n.setField i v).attachment = n.attachment := rfl

@[simp] theorem link_setField (n : Node) (i : Nat) (v : Value) (side : Side) :
    (n.setField i v).link side = n.link side := by
  cases side <;> rfl

/-- A node is its body and its records. -/
theorem eq_of_records (hb : m.body = n.body) (ha : m.attachment = n.attachment)
    (hs : ∀ side, m.link side = n.link side) : m = n := by
  obtain ⟨kind, fields, arity, attachment, prev, next⟩ := m
  obtain ⟨kind', fields', arity', attachment', prev', next'⟩ := n
  obtain ⟨rfl, rfl⟩ := Prod.mk.inj (show (kind, fields) = (kind', fields') from hb)
  obtain rfl : attachment = attachment' := ha
  obtain rfl : prev = prev' := hs .prev
  obtain rfl : next = next' := hs .next
  rfl

end Node

namespace Tree

variable {t t' t'' : Tree} {id x : NodeId} {n : Node}

/-- Two trees whose nodes hold the same nodes, at the same paths and in the same order. -/
def SameHeld (t t' : Tree) : Prop :=
  ∀ x, (t'.get? x).map Node.heldNodes = (t.get? x).map Node.heldNodes

theorem SameHeld.symm (h : t.SameHeld t') : t'.SameHeld t := fun x => (h x).symm

theorem SameHeld.get? (h : t.SameHeld t') {n' : Node} (hn : t'.get? x = some n') :
    ∃ n, t.get? x = some n ∧ n'.heldNodes = n.heldNodes := by
  have := h x
  rw [hn, Option.map_some, eq_comm, Option.map_eq_some_iff] at this
  obtain ⟨n, hn, hheld⟩ := this
  exact ⟨n, hn, hheld.symm⟩

theorem SameHeld.holds_of (h : t.SameHeld t') {a b : NodeId} (hab : t'.Holds a b) :
    t.Holds a b := by
  obtain ⟨n', hn', hb⟩ := hab
  obtain ⟨n, hn, hheld⟩ := h.get? hn'
  exact ⟨n, hn, Node.held_of_heldNodes hheld ▸ hb⟩

theorem SameHeld.holds_eq (h : t.SameHeld t') : t'.Holds = t.Holds := by
  funext a b
  exact propext ⟨h.holds_of, h.symm.holds_of⟩

theorem SameHeld.forest (h : t.SameHeld t') (hf : t.Forest) : t'.Forest where
  known := by
    intro a b hab
    obtain ⟨n, hn⟩ := hf.known (h.holds_of hab)
    obtain ⟨n', hn', -⟩ := h.symm.get? hn
    exact ⟨n', hn'⟩
  held_once := by
    intro id n' hn'
    obtain ⟨n, hn, hheld⟩ := h.get? hn'
    exact Node.held_of_heldNodes hheld ▸ hf.held_once hn
  one_holder := fun ha hb => hf.one_holder (h.holds_of ha) (h.holds_of hb)
  acyclic := by
    rw [Below, h.holds_eq]
    exact hf.acyclic

/-- Linkage of a tree whose nodes hold what they held: only families with changed records need to be
looked at. -/
theorem WellLinked.of_sameHeld (hl : t.WellLinked) (h : t.SameHeld t')
    (distinct : ∀ {id : NodeId} {n : Node}, t'.get? id = some n → n.Distinct)
    (family : ∀ {id : NodeId} {n : Node}, t.get? id = some n → t'.Family id n)
    (unheld : ∀ id, (∀ holder, ¬ t.Holds holder id) → t'.Unlinked id) : t'.WellLinked := by
  refine wellLinked_of_families (h.forest hl.toForest) distinct ?_ ?_
  · intro id n' hn'
    obtain ⟨n, hn, hheld⟩ := h.get? hn'
    have hfam := family hn
    rwa [Family, Node.held_of_heldNodes hheld, hheld]
  · intro id hun
    exact unheld id fun holder hh => hun holder (h.holds_eq ▸ hh)

/-- Two trees that differ at most in what their nodes record. -/
def SameBodies (t t' : Tree) : Prop :=
  ∀ x, (t'.get? x).map Node.body = (t.get? x).map Node.body

theorem SameBodies.refl (t : Tree) : t.SameBodies t := fun _ => rfl

theorem SameBodies.symm (h : t.SameBodies t') : t'.SameBodies t := fun x => (h x).symm

theorem SameBodies.trans (h : t.SameBodies t') (h' : t'.SameBodies t'') : t.SameBodies t'' :=
  fun x => (h' x).trans (h x)

theorem SameBodies.get? (h : t.SameBodies t') {n' : Node} (hn : t'.get? x = some n') :
    ∃ n, t.get? x = some n ∧ n'.body = n.body := by
  have := h x
  rw [hn, Option.map_some, eq_comm, Option.map_eq_some_iff] at this
  obtain ⟨n, hn, hb⟩ := this
  exact ⟨n, hn, hb.symm⟩

theorem SameBodies.known (h : t.SameBodies t') (hx : ∃ n, t.get? x = some n) :
    ∃ n', t'.get? x = some n' := by
  obtain ⟨n, hn⟩ := hx
  obtain ⟨n', hn', -⟩ := h.symm.get? hn
  exact ⟨n', hn'⟩

theorem sameBodies_update (t : Tree) (id : NodeId) {f : Node → Node}
    (h : ∀ n, (f n).body = n.body) : t.SameBodies (t.update id f) := by
  intro x
  rw [get?_update]
  split
  · rw [Option.map_map]
    congr 1
    exact funext h
  · rfl

theorem SameBodies.sameHeld (h : t.SameBodies t') : t.SameHeld t' := by
  intro x
  have hx := h x
  cases hn : t.get? x with
  | none =>
    rw [hn, Option.map_none, Option.map_eq_none_iff] at hx
    rw [hx]
  | some n =>
    rw [hn, Option.map_some, Option.map_eq_some_iff] at hx
    obtain ⟨n', hn', hb⟩ := hx
    rw [hn', Option.map_some, Option.map_some, Node.heldNodes_of_body hb]

theorem SameBodies.holds_of (h : t.SameBodies t') {a b : NodeId} (hab : t'.Holds a b) :
    t.Holds a b :=
  h.sameHeld.holds_of hab

theorem SameBodies.holds_eq (h : t.SameBodies t') : t'.Holds = t.Holds := h.sameHeld.holds_eq

theorem SameBodies.below_eq (h : t.SameBodies t') : t'.Below = t.Below := by
  rw [Below, Below, h.holds_eq]

theorem SameBodies.forest (h : t.SameBodies t') (hf : t.Forest) : t'.Forest :=
  h.sameHeld.forest hf

theorem WellLinked.of_sameBodies (hl : t.WellLinked) (h : t.SameBodies t')
    (family : ∀ {id : NodeId} {n : Node}, t.get? id = some n → t'.Family id n)
    (unheld : ∀ id, (∀ holder, ¬ t.Holds holder id) → t'.Unlinked id) : t'.WellLinked := by
  refine hl.of_sameHeld h.sameHeld ?_ family unheld
  intro id n' hn'
  obtain ⟨n, hn, hb⟩ := h.get? hn'
  exact Node.distinct_of_body hb (hl.distinct hn)

/-! ## One changed body -/

/-- Two trees whose nodes have the same bodies, but for one node that has the body of `p'` in the
second tree. -/
structure Rewritten (t : Tree) (parent : NodeId) (p' : Node) (t' : Tree) : Prop where
  holder : ∃ n, t'.get? parent = some n ∧ n.body = p'.body
  bodies : ∀ x, x ≠ parent → (t'.get? x).map Node.body = (t.get? x).map Node.body

theorem Rewritten.cases {parent : NodeId} {p' n' : Node} (h : t.Rewritten parent p' t')
    (hn' : t'.get? x = some n') : (x = parent ∧ n'.body = p'.body) ∨
      (x ≠ parent ∧ ∃ n, t.get? x = some n ∧ n'.body = n.body) := by
  by_cases hpar : x = parent
  · subst hpar
    obtain ⟨m, hm, hb⟩ := h.holder
    rw [hm] at hn'
    exact .inl ⟨rfl, Option.some.inj hn' ▸ hb⟩
  · have hb := h.bodies x hpar
    rw [hn', Option.map_some, eq_comm, Option.map_eq_some_iff] at hb
    obtain ⟨m, hm, hb⟩ := hb
    exact .inr ⟨hpar, m, hm, hb.symm⟩

theorem Rewritten.get? {parent : NodeId} {p' : Node} (h : t.Rewritten parent p' t')
    (hx : x ≠ parent) (hn : t.get? x = some n) : ∃ n', t'.get? x = some n' ∧ n'.body = n.body := by
  have hb := h.bodies x hx
  rwa [hn, Option.map_some, Option.map_eq_some_iff] at hb

theorem Rewritten.known {parent : NodeId} {p' : Node} (h : t.Rewritten parent p' t')
    (hx : ∃ n, t.get? x = some n) : ∃ n', t'.get? x = some n' := by
  by_cases hpar : x = parent
  · obtain ⟨m, hm, -⟩ := h.holder
    exact ⟨m, hpar ▸ hm⟩
  · obtain ⟨n, hn⟩ := hx
    obtain ⟨n', hn', -⟩ := h.get? hpar hn
    exact ⟨n', hn'⟩

theorem Rewritten.holds_iff {parent a b : NodeId} {p' : Node} (h : t.Rewritten parent p' t') :
    t'.Holds a b ↔ (a = parent ∧ b ∈ p'.held) ∨ (a ≠ parent ∧ t.Holds a b) := by
  constructor
  · rintro ⟨n', hn', hb⟩
    rcases h.cases hn' with ⟨rfl, hbody⟩ | ⟨hpar, n, hn, hbody⟩
    · exact .inl ⟨rfl, Node.held_of_body hbody ▸ hb⟩
    · exact .inr ⟨hpar, n, hn, Node.held_of_body hbody ▸ hb⟩
  · rintro (⟨rfl, hb⟩ | ⟨hpar, n, hn, hb⟩)
    · obtain ⟨n', hn', hbody⟩ := h.holder
      exact ⟨n', hn', Node.held_of_body hbody ▸ hb⟩
    · obtain ⟨n', hn', hbody⟩ := h.get? hpar hn
      exact ⟨n', hn', Node.held_of_body hbody ▸ hb⟩

/-- What happens to the records afterwards does not matter. -/
theorem Rewritten.trans {parent : NodeId} {p' : Node} (h : t.Rewritten parent p' t')
    (hs : t'.SameBodies t'') : t.Rewritten parent p' t'' where
  holder := by
    obtain ⟨m, hm, hb⟩ := h.holder
    obtain ⟨k, hk, hbk⟩ := hs.symm.get? hm
    exact ⟨k, hk, hbk.symm.trans hb⟩
  bodies := fun x hx => (hs x).trans (h.bodies x hx)

theorem rewritten_setField {parent : NodeId} {p : Node} (hp : t.get? parent = some p) (i : Nat)
    (v : Value) : t.Rewritten parent (p.setField i v) (t.update parent (·.setField i v)) where
  holder := ⟨p.setField i v, by rw [get?_update_self, hp, Option.map_some], rfl⟩
  bodies := fun x hx => by rw [get?_update_of_ne hx.symm]

/-- Linkage of a tree in which one node holds other nodes than before. What it took in was unheld,
what it let go is unlinked, and the records of all other nodes outside its family are kept. -/
theorem WellLinked.of_rewritten {parent : NodeId} {p p' : Node} (hl : t.WellLinked)
    (hp : t.get? parent = some p) (hc : t.Rewritten parent p' t') (hf : t'.Forest)
    (hd : p'.Distinct) (family : t'.Family parent p')
    (taken : ∀ x ∈ p'.held, x ∉ p.held → ∀ holder, ¬ t.Holds holder x)
    (gone : ∀ x ∈ p.held, x ∉ p'.held → t'.Unlinked x)
    (kept : ∀ x, x ∉ p.held → x ∉ p'.held →
      t'.attachmentOf? x = t.attachmentOf? x ∧ ∀ s, t'.slots x s = t.slots x s) :
    t'.WellLinked := by
  refine wellLinked_of_families hf ?_ ?_ ?_
  · intro a n' hn'
    rcases hc.cases hn' with ⟨rfl, hb⟩ | ⟨-, m, hm, hb⟩
    · exact Node.distinct_of_body hb hd
    · exact Node.distinct_of_body hb (hl.distinct hm)
  · intro a n' hn'
    rcases hc.cases hn' with ⟨rfl, hb⟩ | ⟨hpar, m, hm, hb⟩
    · rwa [Family, Node.held_of_body hb, Node.heldNodes_of_body hb]
    · rw [Family, Node.held_of_body hb, Node.heldNodes_of_body hb]
      have hout : ∀ c ∈ m.held, c ∉ p.held ∧ c ∉ p'.held := by
        intro c hcm
        have hcp : c ∉ p.held := fun h => hpar (hl.one_holder ⟨m, hm, hcm⟩ ⟨p, hp, h⟩)
        exact ⟨hcp, fun h => taken c h hcp a ⟨m, hm, hcm⟩⟩
      refine (hl.family hm).congr (fun c hcm => ?_) fun c hcm => ?_
      · exact (kept c (hout c hcm).1 (hout c hcm).2).1
      · exact (kept c (hout c hcm).1 (hout c hcm).2).2
  · intro x hx
    have hxp' : x ∉ p'.held := fun h => hx parent (hc.holds_iff.mpr (.inl ⟨rfl, h⟩))
    by_cases hxp : x ∈ p.held
    · exact gone x hxp hxp'
    · obtain ⟨ha, hs⟩ := kept x hxp hxp'
      refine (hl.unlinked fun holder hh => ?_).congr ha hs
      by_cases hpar : holder = parent
      · subst hpar
        obtain ⟨m, hm, hxm⟩ := hh
        exact hxp (Option.some.inj (hp.symm.trans hm) ▸ hxm)
      · exact hx holder (hc.holds_iff.mpr (.inr ⟨hpar, hh⟩))

/-! ## Records after a change -/

theorem attachmentOf?_update_of {f : Node → Node} (h : ∀ n, (f n).attachment = n.attachment) :
    (t.update id f).attachmentOf? x = t.attachmentOf? x := by
  rw [attachmentOf?, attachmentOf?, get?_update]
  split
  · cases t.get? x <;> simp [h]
  · rfl

theorem slots_update_of {f : Node → Node} (h : ∀ n side, (f n).link side = n.link side)
    (side : Side) : (t.update id f).slots x side = t.slots x side := by
  rw [slots, slots, get?_update]
  split
  · cases t.get? x <;> simp [h]
  · rfl

theorem unlinked_detach (hn : t.get? id = some n) : (t.update id Node.detach).Unlinked id := by
  have hid : (t.update id Node.detach).get? id = some n.detach := by
    rw [get?_update_self, hn, Option.map_some]
  refine ⟨?_, fun side => ?_⟩
  · rw [attachmentOf?_eq hid, Node.attachment_detach]
  · rw [slots_eq hid, Node.link_detach]

theorem get?_eq_of_records (hb : (t'.get? x).map Node.body = (t.get? x).map Node.body)
    (ha : t'.attachmentOf? x = t.attachmentOf? x) (hs : ∀ s, t'.slots x s = t.slots x s) :
    t'.get? x = t.get? x := by
  cases hn : t.get? x with
  | none => simpa [hn] using hb
  | some n =>
    cases hn' : t'.get? x with
    | none => simp [hn, hn'] at hb
    | some n' =>
      rw [hn, hn', Option.map_some, Option.map_some, Option.some.injEq] at hb
      rw [attachmentOf?_eq hn, attachmentOf?_eq hn'] at ha
      have hlink : ∀ s, n'.link s = n.link s := by
        intro s
        rw [← slots_eq hn', ← slots_eq hn, hs]
      rw [Node.eq_of_records hb ha hlink]

theorem slots_setLink (hn : t.get? id = some n) (side s : Side) (l : Link) :
    (t.update id (·.setLink side l)).slots x s = if x = id ∧ s = side then l else t.slots x s := by
  rw [slots, slots, get?_update]
  by_cases hx : id = x
  · subst hx
    simp [hn, Node.link_setLink]
  · simp [hx, Ne.symm hx]

/-- The tree once the neighbour that a link leads to, if any, knows what lies on its side. -/
def relinked (t : Tree) (l : Link) (side : Side) (target : Link) : Tree :=
  match l with
  | .to other => t.update other (·.setLink side target)
  | _ => t

variable {l : Link} {side : Side} {target : Link}

theorem sameBodies_relinked : t.SameBodies (t.relinked l side target) := by
  match l with
  | .to other => exact sameBodies_update t other fun n => n.body_setLink side target
  | .unknown => exact .refl t
  | .absent => exact .refl t

theorem attachmentOf?_relinked : (t.relinked l side target).attachmentOf? x = t.attachmentOf? x := by
  match l with
  | .to other => exact attachmentOf?_update_of fun n => n.attachment_setLink side target
  | .unknown => rfl
  | .absent => rfl

theorem slots_relinked (hl : ∀ y, l = .to y → ∃ n, t.get? y = some n) (s : Side) :
    (t.relinked l side target).slots x s =
      if l = .to x ∧ s = side then target else t.slots x s := by
  match l with
  | .to other =>
    obtain ⟨n, hn⟩ := hl other rfl
    rw [relinked, slots_setLink hn]
    simp [eq_comm]
  | .unknown => simp [relinked]
  | .absent => simp [relinked]

theorem get?_relinked_of_ne (h : l ≠ .to x) : (t.relinked l side target).get? x = t.get? x := by
  match l with
  | .to other => exact get?_update_of_ne (fun ho : other = x => h (congrArg Link.to ho)) _
  | .unknown => rfl
  | .absent => rfl

end Tree

namespace Linking

open Trellis.Tree

theorem run_relink {t : Tree} {l : Link} (hl : ∀ y, l = .to y → ∃ n, t.get? y = some n)
    (side : Side) (target : Link) :
    (relink l side target).run t = .ok () (t.relinked l side target) := by
  match l with
  | .to other =>
    obtain ⟨n, hn⟩ := hl other rfl
    exact run_change hn _
  | .unknown => rfl
  | .absent => rfl

/-- Both neighbours that a node knows are told what lies on its side now. -/
theorem run_relink_both {t : Tree} {n : Node}
    (hlink : ∀ side y, n.link side = .to y → ∃ m, t.get? y = some m) (target : Side → Link) :
    ∃ t', (∀ rest : Linking Unit, EStateM.run (do
        relink n.prev .next (target .next)
        relink n.next .prev (target .prev)
        rest) t = rest.run t') ∧
      t.SameBodies t' ∧ (∀ x, (∀ side, n.link side ≠ .to x) → t'.get? x = t.get? x) ∧
      (∀ x, t'.attachmentOf? x = t.attachmentOf? x) ∧
      ∀ x s, t'.slots x s = if n.link s.opposite = .to x then target s else t.slots x s := by
  have hprev : ∀ y, n.prev = .to y → ∃ m, t.get? y = some m := hlink .prev
  have hsame : t.SameBodies (t.relinked n.prev .next (target .next)) := sameBodies_relinked
  have hnext : ∀ y, n.next = .to y →
      ∃ m, (t.relinked n.prev .next (target .next)).get? y = some m := fun y hy =>
    hsame.known (hlink .next y hy)
  refine ⟨(t.relinked n.prev .next (target .next)).relinked n.next .prev (target .prev),
    ?_, hsame.trans sameBodies_relinked, ?_, ?_, ?_⟩
  · intro rest
    rw [run_bind_ok (run_relink hprev _ _), run_bind_ok (run_relink hnext _ _)]
  · intro x hx
    have hxn : n.next ≠ .to x := hx .next
    have hxp : n.prev ≠ .to x := hx .prev
    rw [get?_relinked_of_ne hxn, get?_relinked_of_ne hxp]
  · intro x
    rw [attachmentOf?_relinked, attachmentOf?_relinked]
  · intro x s
    rw [slots_relinked hnext, slots_relinked hprev]
    by_cases h : n.link s.opposite = .to x
    · rw [if_pos h]
      cases s with
      | prev => simp [show n.next = .to x from h]
      | next => simp [show n.prev = .to x from h]
    · rw [if_neg h]
      cases s with
      | prev => simp [show n.next ≠ .to x from h]
      | next => simp [show n.prev ≠ .to x from h]

end Linking

end Trellis
