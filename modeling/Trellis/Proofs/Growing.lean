import Trellis.Proofs.Linking

/-!
# Adding and copying

A tree only grows at its end: nodes that are there stay as they are, and a new node is unlinked. It
may hold what nobody holds yet. A copy adds nodes one after another, each holding copies that were
made before it and that nobody holds until then, so the tree stays well-linked at every step, also
when a copy fails on the way.
-/

namespace Trellis

namespace Tree

variable {t t' t'' : Tree} {kind : Kind} {fields : List Value} {id x : NodeId} {n : Node}

/-! ## Adding -/

/-- Fields that a new node may have: neither its kind nor a map in them repeats a name, and what they
hold is known, held by nobody yet and held once. -/
structure Admits (t : Tree) (kind : Kind) (fields : List Value) : Prop where
  names : kind.fields.Nodup
  distinct : ∀ v ∈ fields, v.Distinct
  held_once : (fields.flatMap Value.held).Nodup
  known : ∀ c ∈ fields.flatMap Value.held, ∃ n, t.get? c = some n
  unheld : ∀ c ∈ fields.flatMap Value.held, ∀ holder, ¬ t.Holds holder c

/-- What adding a node leaves. -/
structure Added (t : Tree) (kind : Kind) (fields : List Value) (id : NodeId) (t' : Tree) : Prop where
  fresh : t.get? id = none
  kept : ∀ x, x ≠ id → t'.get? x = t.get? x
  node : ∃ n, t'.get? id = some n ∧ n.body = (kind, fields) ∧ n.attachment = none ∧
    ∀ side, n.link side = .unknown

theorem added_of_add (h : t.add kind fields = .ok (id, t')) : t.Added kind fields id t' := by
  rw [add] at h
  split at h
  · split at h
    · obtain ⟨rfl, rfl⟩ := Prod.mk.inj (Except.ok.inj h)
      refine ⟨by simp [get?, size], ?_, ?_⟩
      · intro x hx
        have hne : x.number ≠ t.nodes.size := by
          intro h
          exact hx (by cases x; exact congrArg NodeId.mk h)
        simp [get?, Array.getElem?_push, hne]
      · refine ⟨⟨kind, fields, by assumption, none, .unknown, .unknown⟩, by simp [get?, size], rfl,
          rfl, fun side => ?_⟩
        cases side <;> rfl
    · cases h
  · cases h

theorem Added.held (h : t.Added kind fields id t') (hn : t'.get? id = some n) :
    n.held = fields.flatMap Value.held := by
  obtain ⟨m, hm, hb, -⟩ := h.node
  obtain rfl : m = n := Option.some.inj (hm.symm.trans hn)
  rw [m.held_eq, (Prod.mk.inj hb).2]

theorem Added.holds_iff (h : t.Added kind fields id t') {a b : NodeId} :
    t'.Holds a b ↔ (a = id ∧ b ∈ fields.flatMap Value.held) ∨ t.Holds a b := by
  constructor
  · rintro ⟨n, hn, hb⟩
    by_cases ha : a = id
    · subst ha
      exact .inl ⟨rfl, h.held hn ▸ hb⟩
    · exact .inr ⟨n, h.kept a ha ▸ hn, hb⟩
  · rintro (⟨rfl, hb⟩ | ⟨n, hn, hb⟩)
    · obtain ⟨n, hn, -⟩ := h.node
      exact ⟨n, hn, h.held hn ▸ hb⟩
    · have ha : a ≠ id := by
        rintro rfl
        rw [h.fresh] at hn
        cases hn
      exact ⟨n, by rw [h.kept a ha, hn], hb⟩

theorem Added.known (h : t.Added kind fields id t') (hx : ∃ n, t.get? x = some n) :
    x ≠ id ∧ ∃ n, t'.get? x = some n := by
  obtain ⟨n, hn⟩ := hx
  have hne : x ≠ id := by
    rintro rfl
    rw [h.fresh] at hn
    cases hn
  exact ⟨hne, n, by rw [h.kept x hne, hn]⟩

/-- Nobody holds the node that was added. -/
theorem Added.unheld (h : t.Added kind fields id t') (hf : t.Admits kind fields) (hl : t.Forest)
    (holder : NodeId) : ¬ t'.Holds holder id := by
  intro hh
  rcases h.holds_iff.mp hh with ⟨-, hb⟩ | hb
  · exact (h.known (hf.known id hb)).1 rfl
  · exact (h.known (hl.known hb)).1 rfl

theorem Forest.added (hl : t.Forest) (h : t.Added kind fields id t') (hf : t.Admits kind fields) :
    t'.Forest := by
  have hunheld := h.unheld hf hl
  constructor
  · intro a b hab
    rcases h.holds_iff.mp hab with ⟨-, hb⟩ | hab
    · exact (h.known (hf.known b hb)).2
    · exact (h.known (hl.known hab)).2
  · intro a n hn
    by_cases ha : a = id
    · subst ha
      exact h.held hn ▸ hf.held_once
    · exact hl.held_once (h.kept a ha ▸ hn)
  · intro a b c ha hb
    rcases h.holds_iff.mp ha with ⟨rfl, hc⟩ | ha
    · rcases h.holds_iff.mp hb with ⟨rfl, -⟩ | hb
      · rfl
      · exact absurd hb (hf.unheld c hc b)
    · rcases h.holds_iff.mp hb with ⟨rfl, hc⟩ | hb
      · exact absurd ha (hf.unheld c hc a)
      · exact hl.one_holder ha hb
  · -- A way back to a node would not pass the new one, which nobody holds.
    have hbelow : ∀ {a b}, t'.Below a b → a = id ∨ t.Below a b := by
      intro a b hab
      induction hab with
      | single hab =>
        rcases h.holds_iff.mp hab with ⟨rfl, -⟩ | hab
        · exact .inl rfl
        · exact .inr (.single hab)
      | @tail b c hab hbc ih =>
        rcases h.holds_iff.mp hbc with ⟨rfl, -⟩ | hbc
        · obtain ⟨holder, -, hh⟩ := Relation.TransGen.tail'_iff.mp hab
          exact absurd hh (hunheld holder)
        · exact ih.imp_right fun ih => ih.tail hbc
    intro a haa
    rcases hbelow haa with rfl | haa
    · obtain ⟨holder, -, hh⟩ := Relation.TransGen.tail'_iff.mp haa
      exact hunheld holder hh
    · exact hl.acyclic a haa

/-- Adding a node with admissible fields keeps a tree well-linked. -/
theorem WellLinked.added (hl : t.WellLinked) (h : t.Added kind fields id t')
    (hf : t.Admits kind fields) : t'.WellLinked := by
  have hkept : ∀ {c}, (∃ n, t.get? c = some n) → t'.get? c = t.get? c := fun hc =>
    h.kept _ (h.known hc).1
  refine wellLinked_of_families (hl.toForest.added h hf) ?_ ?_ ?_
  · intro a n hn
    by_cases ha : a = id
    · subst ha
      obtain ⟨m, hm, hb, -⟩ := h.node
      obtain rfl : m = n := Option.some.inj (hm.symm.trans hn)
      obtain ⟨hkind, hfields⟩ := Prod.mk.inj hb
      exact ⟨by rw [hkind]; exact hf.names, by rw [hfields]; exact hf.distinct⟩
    · exact hl.distinct (h.kept a ha ▸ hn)
  · intro a n hn
    by_cases ha : a = id
    · subst ha
      rw [Family, h.held hn]
      refine .inl fun c hc => ?_
      have hsame := hkept (hf.known c hc)
      exact (hl.unlinked (hf.unheld c hc)).congr (attachmentOf?_congr hsame) (slots_congr hsame)
    · rw [h.kept a ha] at hn
      have hsame : ∀ c ∈ n.held, t'.get? c = t.get? c := fun c hc =>
        hkept (hl.toForest.get?_held hn hc)
      exact (hl.family hn).congr (fun c hc => attachmentOf?_congr (hsame c hc))
        fun c hc => slots_congr (hsame c hc)
  · intro x hx
    by_cases hxid : x = id
    · subst hxid
      obtain ⟨n, hn, -, ha, hlink⟩ := h.node
      exact ⟨(attachmentOf?_eq hn).trans ha, fun side => (slots_eq hn side).trans (hlink side)⟩
    · have hsame := h.kept x hxid
      refine (hl.unlinked fun holder hh => ?_).congr (attachmentOf?_congr hsame) (slots_congr hsame)
      exact hx holder (h.holds_iff.mpr (.inr hh))

/-! ## Growth -/

/-- A tree grew: what was there stays, and what comes to be held was not there before. -/
structure Grown (t t' : Tree) : Prop where
  kept : ∀ {x : NodeId} {n : Node}, t.get? x = some n → t'.get? x = some n
  held : ∀ {a c : NodeId}, t'.Holds a c → t.Holds a c ∨ t.get? c = none

/-- Nodes that were not there in `t`, are there in `t'`, and that nobody holds. -/
structure Spare (t t' : Tree) (ids : List NodeId) : Prop where
  nodup : ids.Nodup
  fresh : ∀ c ∈ ids, t.get? c = none
  known : ∀ c ∈ ids, ∃ n, t'.get? c = some n
  unheld : ∀ c ∈ ids, ∀ holder, ¬ t'.Holds holder c

theorem Grown.refl (t : Tree) : t.Grown t := ⟨id, .inl⟩

theorem Grown.fresh (h : t.Grown t') (hx : t'.get? x = none) : t.get? x = none := by
  cases hn : t.get? x with
  | none => rfl
  | some n =>
    rw [h.kept hn] at hx
    cases hx

theorem Grown.trans (h : t.Grown t') (h' : t'.Grown t'') : t.Grown t'' := by
  refine ⟨fun hn => h'.kept (h.kept hn), fun hh => ?_⟩
  rcases h'.held hh with hh | hnone
  · exact h.held hh
  · exact .inr (h.fresh hnone)

theorem spare_nil (t t' : Tree) : t.Spare t' [] :=
  ⟨by simp, by simp, by simp, by simp⟩

/-- Spare nodes stay spare while more are made. -/
theorem Spare.append {ids ids' : List NodeId} (h : t.Spare t' ids)
    (h' : t'.Spare t'' ids') (hg : t.Grown t') (hg' : t'.Grown t'') :
    t.Spare t'' (ids ++ ids') := by
  have hne : ∀ c ∈ ids, t'.get? c ≠ none := by
    intro c hc hnone
    obtain ⟨n, hn⟩ := h.known c hc
    rw [hn] at hnone
    cases hnone
  constructor
  · refine List.nodup_append.mpr ⟨h.nodup, h'.nodup, ?_⟩
    rintro c hc _ hc' rfl
    exact hne c hc (h'.fresh c hc')
  · intro c hc
    rcases List.mem_append.mp hc with hc | hc
    · exact h.fresh c hc
    · exact hg.fresh (h'.fresh c hc)
  · intro c hc
    rcases List.mem_append.mp hc with hc | hc
    · obtain ⟨n, hn⟩ := h.known c hc
      exact ⟨n, hg'.kept hn⟩
    · exact h'.known c hc
  · intro c hc holder hh
    rcases List.mem_append.mp hc with hc | hc
    · rcases hg'.held hh with hh | hnone
      · exact h.unheld c hc holder hh
      · exact hne c hc hnone
    · exact h'.unheld c hc holder hh

/-- A tree that has grown by spare nodes and then by one that holds them. -/
theorem Added.grown (h : t'.Added kind fields id t'') (hg : t.Grown t')
    (hs : t.Spare t' (fields.flatMap Value.held)) : t.Grown t'' := by
  refine ⟨fun hn => ?_, fun hh => ?_⟩
  · have hn' := hg.kept hn
    rw [h.kept _ (h.known ⟨_, hn'⟩).1, hn']
  · rcases h.holds_iff.mp hh with ⟨-, hc⟩ | hh
    · exact .inr (hs.fresh _ hc)
    · exact hg.held hh

end Tree

/-- A list of pairs with distinct names is a dictionary as it stands. -/
theorem Dict.ofPairs_of_nodup {α : Type} {pairs : List (String × α)}
    (h : (pairs.map (·.1)).Nodup) : Dict.ofPairs pairs = ⟨pairs⟩ := by
  have hset : ∀ (entries : List (String × α)) (name : String) (v : α),
      name ∉ entries.map (·.1) → Dict.insert ⟨entries⟩ name v = ⟨entries ++ [(name, v)]⟩ := by
    intro entries name v hn
    have hgo : Dict.set?.go name v entries = none := by
      induction entries with
      | nil => rfl
      | cons e rest ih =>
        obtain ⟨hne, hr⟩ := not_or.mp (List.mem_cons.not.mp hn)
        rw [Dict.set?.go, if_neg (Ne.symm hne), ih hr]
        rfl
    simp [Dict.insert, Dict.put, Dict.set?, hgo]
  have hfold : ∀ done : List (String × α), ((done ++ pairs).map (·.1)).Nodup →
      pairs.foldl (fun d pair => d.insert pair.1 pair.2) ⟨done⟩ = (⟨done ++ pairs⟩ : Dict α) := by
    clear h
    induction pairs with
    | nil => simp
    | cons e rest ih =>
      intro done hnd
      rw [List.foldl_cons, hset done e.1 e.2, ih]
      · simp
      · simpa using hnd
      · rw [List.map_append, List.map_cons] at hnd
        exact fun hm => (List.nodup_append.mp hnd).2.2 e.1 hm e.1 (by simp) rfl
  exact hfold [] h

/-- Pairs with the names of a dictionary are a dictionary: building one anew changes nothing. -/
theorem Dict.Distinct.ofPairs {α β : Type} {entries : List (String × α)} {pairs : List (String × β)}
    (hd : Dict.Distinct ⟨entries⟩) (hp : pairs.map (·.1) = entries.map (·.1)) :
    Dict.ofPairs pairs = ⟨pairs⟩ := by
  apply Dict.ofPairs_of_nodup
  rw [hp]
  exact hd

namespace Linking

open Trellis.Tree

variable {α β γ : Type} {x : Linking α} {y : Linking β} {P : α → Prop} {Q : β → Prop}
  {R : γ → Prop} {ids : α → List NodeId} {ids' : β → List NodeId} {ids'' : γ → List NodeId}

/-! ## Copying -/

/-- A run that copies. It keeps a tree well-linked, also if it fails; if it succeeds, the tree has
grown, the nodes named by the answer are spare, and the answer has a property. -/
def Copies (x : Linking α) (P : α → Prop) (ids : α → List NodeId) : Prop :=
  ∀ t, t.WellLinked →
    match x.run t with
    | .ok a t' => t'.WellLinked ∧ t.Grown t' ∧ t.Spare t' (ids a) ∧ P a
    | .error _ t' => t'.WellLinked

theorem copies_pure {a : α} (ha : P a) (hids : ids a = []) : Copies (pure a) P ids := by
  intro t hl
  refine ⟨hl, .refl t, ?_, ha⟩
  rw [hids]
  exact spare_nil t t

theorem Copies.map {g : α → β} (hx : Copies x P ids) (hQ : ∀ a, P a → Q (g a))
    (hids : ∀ a, P a → ids' (g a) = ids a) : Copies (do return g (← x)) Q ids' := by
  intro t hl
  have h := hx t hl
  cases hrun : x.run t with
  | error e t' =>
    rw [hrun] at h
    rw [run_bind_error hrun]
    exact h
  | ok a t' =>
    rw [hrun] at h
    obtain ⟨hl', hg, hs, ha⟩ := h
    rw [run_bind_ok hrun]
    exact ⟨hl', hg, hids a ha ▸ hs, hQ a ha⟩

/-- Two copying runs one after another. -/
theorem Copies.pair {g : α → β → γ} (hx : Copies x P ids) (hy : Copies y Q ids')
    (hR : ∀ a b, P a → Q b → R (g a b)) (hids : ∀ a b, ids'' (g a b) = ids a ++ ids' b) :
    Copies (do
      let a ← x
      return g a (← y)) R ids'' := by
  intro t hl
  have h := hx t hl
  cases hrun : x.run t with
  | error e t' =>
    rw [hrun] at h
    rw [run_bind_error hrun]
    exact h
  | ok a t' =>
    rw [hrun] at h
    obtain ⟨hl', hg, hs, ha⟩ := h
    rw [run_bind_ok hrun]
    have h' := hy t' hl'
    cases hrun' : y.run t' with
    | error e t'' =>
      rw [hrun'] at h'
      rw [run_bind_error hrun']
      exact h'
    | ok b t'' =>
      rw [hrun'] at h'
      obtain ⟨hl'', hg', hs', hb⟩ := h'
      rw [run_bind_ok hrun']
      refine ⟨hl'', hg.trans hg', ?_, hR a b ha hb⟩
      rw [hids]
      exact hs.append hs' hg hg'

/-- Every node is copied into one spare node. -/
def CopiesNodes (f : NodeId → Linking NodeId) : Prop :=
  ∀ id, Copies (f id) (fun _ => True) fun c => [c]

section Nodes

variable {f : NodeId → Linking NodeId}

mutual

/-- Copying the nodes of a value gives a value whose nodes are spare. -/
theorem copies_value (hf : CopiesNodes f) : ∀ v : Value, v.Distinct →
    Copies (v.replaceNodes f) Value.Distinct Value.held
  | .node id, _ => (hf id).map (fun _ _ => trivial) fun _ _ => rfl
  | .list items, hd => (copies_items hf items (Value.distinct_list.mp hd)).map
      (fun _ => Value.distinct_list.mpr) fun _ _ => Value.held_list _
  | .map ⟨entries⟩, hd => by
    have hdm := Value.distinct_map.mp hd
    refine (copies_entries hf entries hdm.2).map (fun pairs hp => ?_) fun pairs hp => ?_
    · rw [hdm.1.ofPairs hp.1, Value.distinct_map]
      exact ⟨by rw [Dict.Distinct, Dict.names, hp.1]; exact hdm.1, hp.2⟩
    · rw [hdm.1.ofPairs hp.1, Value.held_map]
  | .null, _ => copies_pure trivial rfl
  | .bool _, _ => copies_pure trivial rfl
  | .int _, _ => copies_pure trivial rfl
  | .text _, _ => copies_pure trivial rfl

theorem copies_items (hf : CopiesNodes f) : ∀ items : List Value, (∀ v ∈ items, v.Distinct) →
    Copies (Value.replaceInItems f items) (fun ws => ∀ w ∈ ws, w.Distinct)
      fun ws => ws.flatMap Value.held
  | [], _ => copies_pure (by simp) rfl
  | v :: rest, hd => (copies_value hf v (hd v (by simp))).pair
      (copies_items hf rest fun w hw => hd w (List.mem_cons_of_mem v hw))
      (fun w ws hw hws => List.forall_mem_cons.mpr ⟨hw, hws⟩) fun w ws => List.flatMap_cons

theorem copies_entries (hf : CopiesNodes f) :
    ∀ entries : List (String × Value), (∀ e ∈ entries, e.2.Distinct) →
    Copies (Value.replaceInEntries f entries)
      (fun pairs => pairs.map (·.1) = entries.map (·.1) ∧ ∀ e ∈ pairs, e.2.Distinct)
      fun pairs => pairs.flatMap fun e => e.2.held
  | [], _ => copies_pure (by simp) rfl
  | (name, v) :: rest, hd => (copies_value hf v (hd (name, v) (by simp))).pair
      (copies_entries hf rest fun e he => hd e (List.mem_cons_of_mem _ he))
      (fun w pairs hw hp => ⟨by simp [hp.1], List.forall_mem_cons.mpr ⟨hw, hp.2⟩⟩)
      fun w pairs => List.flatMap_cons

end

end Nodes

theorem run_addNode_ok {t t' : Tree} {kind : Kind} {fields : List Value} {id : NodeId}
    (h : t.add kind fields = .ok (id, t')) : (addNode kind fields).run t = .ok id t' := by
  rw [addNode, run_bind_ok (run_ask_ok h)]
  rfl

theorem run_addNode_error {t : Tree} {kind : Kind} {fields : List Value} {e : TreeError}
    (h : t.add kind fields = .error e) : (addNode kind fields).run t = .error e t :=
  run_bind_error (run_ask_error h)

/-- Copying a node gives a spare node. -/
theorem copies_copyWithin (fuel : Nat) : CopiesNodes (copyWithin fuel) := by
  induction fuel with
  | zero => exact fun id t hl => hl
  | succ fuel ih =>
    intro id t hl
    rw [copyWithin]
    cases hn : t.get? id with
    | none =>
      rw [run_bind_error (run_ask_error (get_of_get?_none hn))]
      exact hl
    | some n =>
      rw [run_bind_ok (run_ask_ok (get_of_get? hn))]
      have hd := hl.distinct hn
      have h := copies_items ih n.fields hd.2 t hl
      cases hrun : (Value.replaceInItems (copyWithin fuel) n.fields).run t with
      | error e t' =>
        rw [hrun] at h
        rw [run_bind_error hrun]
        exact h
      | ok fields t' =>
        rw [hrun] at h
        obtain ⟨hl', hg, hs, hdf⟩ := h
        rw [run_bind_ok hrun]
        cases hadd : t'.add n.kind fields with
        | error e =>
          rw [run_addNode_error hadd]
          exact hl'
        | ok added =>
          obtain ⟨c, t''⟩ := added
          have ha := added_of_add hadd
          have hadmit : t'.Admits n.kind fields := ⟨hd.1, hdf, hs.nodup, hs.known, hs.unheld⟩
          rw [run_addNode_ok hadd]
          refine ⟨hl'.added ha hadmit, ha.grown hg hs, ?_, trivial⟩
          refine ⟨by simp, ?_, ?_, ?_⟩
          · simpa using hg.fresh ha.fresh
          · obtain ⟨m, hm, -⟩ := ha.node
            simpa using ⟨m, hm⟩
          · simpa using ha.unheld hadmit hl'.toForest

theorem wellLinked_copy {t : Tree} (hl : t.WellLinked) (id : NodeId) :
    ((copy id).after t).WellLinked := by
  have h := copies_copyWithin t.nesting id t hl
  have hrun : (copy id).run t = (copyWithin t.nesting id).run t := rfl
  rw [after, hrun]
  split
  · rename_i hc
    rw [hc] at h
    exact h.1
  · rename_i hc
    rw [hc] at h
    exact h

/-- Adding a node with admissible fields, whether it succeeds or fails, keeps a tree
well-linked. -/
theorem wellLinked_addNode {t : Tree} {kind : Kind} {fields : List Value} (hl : t.WellLinked)
    (hf : t.Admits kind fields) : ((addNode kind fields).after t).WellLinked := by
  cases hadd : t.add kind fields with
  | error e =>
    rw [after_of_error (run_addNode_error hadd)]
    exact hl
  | ok added =>
    obtain ⟨id, t'⟩ := added
    rw [after_of_ok (run_addNode_ok hadd)]
    exact hl.added (added_of_add hadd) hf

end Linking

end Trellis
