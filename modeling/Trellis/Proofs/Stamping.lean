import Trellis.Proofs.Offspring

/-!
# Stamping

`stampBelow` attaches the nodes that a node holds and goes on below each of them. What it leaves is
told by the nodes it has passed through: whatever these hold is attached where it is held, and
nothing else has changed. That the nodes below the root form a forest is all it needs; parents and
links recorded before do not matter. Its budget suffices because the number of nodes below drops at
every step down.
-/

namespace Trellis

open Relation (ReflTransGen TransGen)

namespace Tree

variable {t t' t'' : Tree} {a b c x root : NodeId} {n : Node} {path : Path}
  {holders holders' : NodeId → Prop}

/-! ## The number of nodes below -/

open Classical in
/-- The number of known nodes below a node. -/
noncomputable def population (t : Tree) (id : NodeId) : Nat :=
  ((Finset.range t.size).filter fun i => t.Below id ⟨i⟩).card

theorem population_lt (hab : t.Holds a b) (hb : t.get? b = some n) (hac : ¬ t.Below b b) :
    t.population b < t.population a := by
  classical
  refine Finset.card_lt_card (Finset.ssubset_iff.mpr ⟨b.number, ?_, ?_⟩)
  · intro hmem
    exact hac (Finset.mem_filter.mp hmem).2
  · refine Finset.insert_subset_iff.mpr ⟨?_, ?_⟩
    · exact Finset.mem_filter.mpr ⟨Finset.mem_range.mpr (lt_size_of_get? hb), .single hab⟩
    · intro i hi
      obtain ⟨hi, hbelow⟩ := Finset.mem_filter.mp hi
      exact Finset.mem_filter.mpr ⟨hi, TransGen.head hab hbelow⟩

theorem population_lt_nesting (t : Tree) (id : NodeId) : t.population id < t.nesting := by
  classical
  have h := Finset.card_filter_le (Finset.range t.size) fun i => t.Below id ⟨i⟩
  rw [Finset.card_range] at h
  exact Nat.lt_succ_of_le h

theorem nesting_update (t : Tree) (id : NodeId) (f : Node → Node) :
    (t.update id f).nesting = t.nesting := by
  simp [nesting, size, update]

/-- Where nothing below a root lies below itself, the number of nodes below drops at every step down
from it. -/
theorem population_drops (hknown : ∀ d, t.Below root d → ∃ m, t.get? d = some m)
    (hac : ∀ d, t.Below root d → ¬ t.Below d d) (a b : NodeId) (ha : ReflTransGen t.Holds root a)
    (hab : t.Holds a b) : t.population b < t.population a := by
  have hb : t.Below root b := TransGen.tail' ha hab
  obtain ⟨m, hm⟩ := hknown b hb
  exact population_lt hab hm (hac b hb)

/-! ## Stamped trees -/

/-- `t'` is `t` with the nodes that the `holders` hold attached where they are held. -/
structure Stamped (t : Tree) (holders : NodeId → Prop) (t' : Tree) : Prop where
  inside : ∀ {a c : NodeId} {n : Node} {path : Path}, holders a → t.get? a = some n →
    (path, c) ∈ n.heldNodes → t'.get? c = (t.get? c).map (·.attach ⟨a, path⟩)
  outside : ∀ {x : NodeId}, (∀ a, holders a → ¬ t.Holds a x) → t'.get? x = t.get? x

/-- The nodes below `root` are known, and each is held at one place among them. -/
structure ForestBelow (t : Tree) (root : NodeId) : Prop where
  known : ∀ {a b : NodeId}, ReflTransGen t.Holds root a → t.Holds a b → ∃ n, t.get? b = some n
  held_once : ∀ {a : NodeId} {n : Node}, ReflTransGen t.Holds root a → t.get? a = some n →
    n.held.Nodup
  one_holder : ∀ {a b c : NodeId}, ReflTransGen t.Holds root a → ReflTransGen t.Holds root b →
    t.Holds a c → t.Holds b c → a = b

theorem Forest.below (hf : t.Forest) (root : NodeId) : t.ForestBelow root where
  known := fun _ hab => hf.known hab
  held_once := fun _ hn => hf.held_once hn
  one_holder := fun _ _ ha hb => hf.one_holder ha hb

theorem ForestBelow.known_below (hf : t.ForestBelow root) (d : NodeId) (hd : t.Below root d) :
    ∃ n, t.get? d = some n := by
  obtain ⟨b, hb, hbd⟩ := TransGen.tail'_iff.mp hd
  exact hf.known hb hbd

theorem ForestBelow.child (hf : t.ForestBelow root) (hc : t.Holds root c) : t.ForestBelow c where
  known := fun ha => hf.known (.head hc ha)
  held_once := fun ha => hf.held_once (.head hc ha)
  one_holder := fun ha hb => hf.one_holder (.head hc ha) (.head hc hb)

theorem SameBodies.forestBelow (h : t.SameBodies t') (hf : t.ForestBelow root) :
    t'.ForestBelow root where
  known := by
    intro a b ha hab
    rw [h.holds_eq] at ha hab
    exact h.known (hf.known ha hab)
  held_once := by
    intro a n' ha hn'
    obtain ⟨n, hn, hb⟩ := h.get? hn'
    exact Node.held_of_body hb ▸ hf.held_once (h.holds_eq ▸ ha) hn
  one_holder := by
    rw [h.holds_eq]
    exact hf.one_holder

theorem Stamped.sameBodies (h : t.Stamped holders t') : t.SameBodies t' := by
  intro x
  by_cases hx : ∃ a, holders a ∧ t.Holds a x
  · obtain ⟨a, ha, n, hn, hm⟩ := hx
    obtain ⟨⟨path, c⟩, he, rfl⟩ := List.mem_map.mp hm
    rw [h.inside ha hn he, Option.map_map]
    rfl
  · rw [h.outside fun a ha hh => hx ⟨a, ha, hh⟩]

theorem stamped_none (t : Tree) : t.Stamped (fun _ => False) t :=
  ⟨fun h => h.elim, fun _ => rfl⟩

theorem Stamped.congr (h : t.Stamped holders t') (hh : ∀ a, holders' a ↔ holders a) :
    t.Stamped holders' t' := by
  obtain rfl : holders' = holders := funext fun a => propext (hh a)
  exact h

/-- Stamping twice stamps for both sets of holders; where they meet, both write the same. -/
theorem Stamped.trans (hf : t.ForestBelow root) (h : t.Stamped holders t')
    (h' : t'.Stamped holders' t'') (hsub : ∀ a, holders a → ReflTransGen t.Holds root a)
    (hsub' : ∀ a, holders' a → ReflTransGen t.Holds root a) :
    t.Stamped (fun a => holders a ∨ holders' a) t'' := by
  have hsame := h.sameBodies
  constructor
  · intro a c n path ha hn hm
    have hhold : t.Holds a c := ⟨n, hn, List.mem_map_of_mem (f := (·.2)) hm⟩
    by_cases hs' : holders' a
    · obtain ⟨n', hn', hb⟩ := hsame.symm.get? hn
      rw [h'.inside hs' hn' (Node.heldNodes_of_body hb ▸ hm)]
      by_cases hs : holders a
      · rw [h.inside hs hn hm, Option.map_map]
        rfl
      · rw [h.outside fun b hb hbc => hs ?_]
        exact hf.one_holder (hsub b hb) (hsub' a hs') hbc hhold ▸ hb
    · rw [h'.outside, h.inside (ha.resolve_right hs') hn hm]
      intro b hb hbc
      rw [hsame.holds_eq] at hbc
      refine hs' ?_
      exact hf.one_holder (hsub' b hb) (hsub a (ha.resolve_right hs')) hbc hhold ▸ hb
  · intro x hx
    rw [h'.outside, h.outside]
    · exact fun a ha => hx a (.inl ha)
    · intro a ha
      rw [hsame.holds_eq]
      exact hx a (.inr ha)

/-- A record of a node that no holder holds may change before or after stamping. -/
theorem Stamped.update (h : t.Stamped holders t') (hx : ∀ a, holders a → ¬ t.Holds a x)
    {f : Node → Node} (hf : ∀ n, (f n).body = n.body) :
    (t.update x f).Stamped holders (t'.update x f) := by
  have hsame := sameBodies_update t x hf
  constructor
  · intro a c n path ha hn hm
    obtain ⟨n₀, hn₀, hb⟩ := hsame.get? hn
    rw [Node.heldNodes_of_body hb] at hm
    have hne : x ≠ c := by
      rintro rfl
      exact hx a ha ⟨n₀, hn₀, List.mem_map_of_mem (f := (·.2)) hm⟩
    rw [get?_update_of_ne hne, get?_update_of_ne hne, h.inside ha hn₀ hm]
  · intro y hy
    rw [hsame.holds_eq] at hy
    rw [get?_update, get?_update, h.outside hy]

end Tree

namespace Linking

open Trellis.Tree

variable {t t' : Tree} {root : NodeId} {n : Node}

/-! ## Runs -/

/-- Attaching the nodes that one node holds. -/
theorem run_attach_held (hf : t.ForestBelow root) (hn : t.get? root = some n) :
    ∃ t', (n.heldNodes.forM fun (path, child) => change child (·.attach ⟨root, path⟩)).run t =
      .ok () t' ∧ t.Stamped (· = root) t' := by
  obtain ⟨t', hrun, hin, hout⟩ := run_forM_change (fun e : Path × NodeId => e.2)
    (fun (e : Path × NodeId) (m : Node) => m.attach ⟨root, e.1⟩) n.heldNodes t
    (fun e he => hf.known .refl ⟨n, hn, List.mem_map_of_mem (f := (·.2)) he⟩)
    (hf.held_once .refl hn)
  refine ⟨t', hrun, ?_, ?_⟩
  · rintro a c m path rfl hm he
    obtain rfl : n = m := Option.some.inj (hn.symm.trans hm)
    exact hin _ he
  · intro x hx
    exact hout x fun hmem => hx root rfl ⟨n, hn, hmem⟩

/-- Stamping below several nodes of a forest, one after another. -/
theorem run_stampBelow_each {fuel : Nat} (hf : t.ForestBelow root) (l : List (Path × NodeId))
    (hl : ∀ e ∈ l, ReflTransGen t.Holds root e.2)
    (hstep : ∀ e ∈ l, ∀ t', t.SameBodies t' → ∃ t'',
      (stampBelow fuel e.2).run t' = .ok (t'.offspring fuel e.2).length t'' ∧
        t'.Stamped (ReflTransGen t'.Holds e.2) t'') :
    ∀ t', t.SameBodies t' → ∀ start, ∃ t'',
      EStateM.run (l.foldlM (fun (count : Nat) ((_, child) : Path × NodeId) =>
        (return count + (← stampBelow fuel child) : Linking Nat)) start) t' =
          .ok (start + (l.map fun e => (t.offspring fuel e.2).length).sum) t'' ∧
      t'.Stamped (fun a => ∃ e ∈ l, ReflTransGen t.Holds e.2 a) t'' := by
  induction l with
  | nil =>
    intro t' _ start
    exact ⟨t', rfl, (stamped_none t').congr (by simp)⟩
  | cons e l ih =>
    intro t' ht' start
    obtain ⟨t₁, hrun, hst⟩ := hstep e (by simp) t' ht'
    rw [ht'.offspring_eq] at hrun
    have ht₁ := ht'.trans hst.sameBodies
    obtain ⟨t₂, hrun₂, hst₂⟩ := ih (fun e he => hl e (List.mem_cons_of_mem _ he))
      (fun e he => hstep e (List.mem_cons_of_mem _ he)) t₁ ht₁
      (start + (t.offspring fuel e.2).length)
    refine ⟨t₂, ?_, ?_⟩
    · rw [List.foldlM_cons, List.map_cons, List.sum_cons, ← Nat.add_assoc]
      refine (run_bind_ok ?_).trans hrun₂
      rw [run_bind_ok hrun]
      rfl
    · have hsub : ∀ e' ∈ e :: l, ∀ a, ReflTransGen t.Holds e'.2 a →
          ReflTransGen t'.Holds root a := by
        intro e' he' a ha
        rw [ht'.holds_eq]
        exact (hl e' he').trans ha
      refine (hst.trans (ht'.forestBelow hf) hst₂ ?_ ?_).congr ?_
      · rw [ht'.holds_eq]
        exact fun a ha => ht'.holds_eq ▸ hsub e (by simp) a ha
      · rintro a ⟨e', he', ha⟩
        exact hsub e' (List.mem_cons_of_mem _ he') a ha
      · intro a
        rw [ht'.holds_eq]
        simp

/-- Stamping below a root attaches everything below it and changes nothing else. It answers how many
nodes these are. -/
theorem run_stampBelow {rank : NodeId → Nat} {fuel : Nat} (hf : t.ForestBelow root)
    (hrank : ∀ a b, ReflTransGen t.Holds root a → t.Holds a b → rank b < rank a)
    (hn : t.get? root = some n) (hfuel : rank root < fuel) :
    ∃ t', (stampBelow fuel root).run t = .ok (t.offspring fuel root).length t' ∧
      t.Stamped (ReflTransGen t.Holds root) t' := by
  induction fuel generalizing t root n with
  | zero => omega
  | succ fuel ih =>
    obtain ⟨t₁, hrun₁, hst₁⟩ := run_attach_held hf hn
    have hsame := hst₁.sameBodies
    have hholds : ∀ e ∈ n.heldNodes, t.Holds root e.2 := fun e he =>
      ⟨n, hn, List.mem_map_of_mem (f := (·.2)) he⟩
    have hstep : ∀ e ∈ n.heldNodes.reverse, ∀ t', t.SameBodies t' → ∃ t'',
        (stampBelow fuel e.2).run t' = .ok (t'.offspring fuel e.2).length t'' ∧
          t'.Stamped (ReflTransGen t'.Holds e.2) t'' := by
      intro e he t' ht'
      have hc := hholds e (List.mem_reverse.mp he)
      obtain ⟨m, hm⟩ := hf.known .refl hc
      obtain ⟨m', hm', -⟩ := ht'.symm.get? hm
      refine ih (ht'.forestBelow (hf.child hc)) ?_ hm' ?_
      · rw [ht'.holds_eq]
        exact fun a b ha => hrank a b (.head hc ha)
      · have := hrank root e.2 .refl hc
        omega
    obtain ⟨t₂, hrun₂, hst₂⟩ := run_stampBelow_each hf n.heldNodes.reverse
      (fun e he => .single (hholds e (List.mem_reverse.mp he))) hstep t₁ hsame n.heldNodes.length
    refine ⟨t₂, ?_, ?_⟩
    · rw [length_offspring_succ hn, ← List.sum_reverse, ← List.map_reverse, stampBelow,
        run_bind_ok (run_ask_ok (childNodesWithPaths_eq hn)), run_bind_ok hrun₁]
      exact hrun₂
    · refine (hst₁.trans hf hst₂ ?_ ?_).congr ?_
      · rintro a rfl
        exact .refl
      · rintro a ⟨e, he, ha⟩
        exact .head (hholds e (List.mem_reverse.mp he)) ha
      · intro a
        rw [ReflTransGen.cases_head_iff, eq_comm]
        refine or_congr_right ⟨?_, ?_⟩
        · rintro ⟨c, ⟨m, hm, hc⟩, ha⟩
          obtain rfl : n = m := Option.some.inj (hn.symm.trans hm)
          obtain ⟨e, he, rfl⟩ := List.mem_map.mp hc
          exact ⟨e, List.mem_reverse.mpr he, ha⟩
        · rintro ⟨e, he, ha⟩
          exact ⟨e.2, hholds e (List.mem_reverse.mp he), ha⟩

/-- Stamping below a node of a forest succeeds. -/
theorem run_stampDescendants (hf : t.ForestBelow root)
    (hac : ∀ a, t.Below root a → ¬ t.Below a a) (hn : t.get? root = some n) :
    ∃ t', (stampDescendants root).run t = .ok (t.offspring t.nesting root).length t' ∧
      t.Stamped (ReflTransGen t.Holds root) t' :=
  run_stampBelow hf (population_drops hf.known_below hac) hn (t.population_lt_nesting root)

/-- Stamping an unattached root, whatever the nodes below it recorded before. Only what lies below the
root has to form a forest. -/
theorem run_stamp_below (hf : t.ForestBelow root) (hac : ∀ a, t.Below root a → ¬ t.Below a a)
    (hn : t.get? root = some n) (ha : n.attachment = none) :
    ∃ t', (stamp root).run t = .ok (t.offspring t.nesting root).length t' ∧
      (t.update root Node.detach).Stamped (ReflTransGen t.Holds root) t' := by
  have hsame : t.SameBodies (t.update root Node.detach) :=
    sameBodies_update t root Node.body_detach
  obtain ⟨m, hm⟩ := hsame.known ⟨n, hn⟩
  obtain ⟨t', hrun, hst⟩ :=
    run_stampDescendants (hsame.forestBelow hf) (by rwa [hsame.below_eq]) hm
  rw [hsame.holds_eq] at hst
  rw [hsame.offspring_eq, nesting_update] at hrun
  refine ⟨t', ?_, hst⟩
  rw [stamp, run_bind_ok (run_ask_ok (get_of_get? hn)), ha]
  simp only [Option.isSome_none, Bool.false_eq_true, if_false]
  rw [run_bind_ok (run_change hn _)]
  exact hrun

/-- Stamping an unattached root of any forest. -/
theorem run_stamp (hf : t.Forest) (hn : t.get? root = some n) (ha : n.attachment = none) :
    ∃ count t', (stamp root).run t = .ok count t' ∧
      (t.update root Node.detach).Stamped (ReflTransGen t.Holds root) t' :=
  ⟨_, run_stamp_below (hf.below root) (fun a _ => hf.acyclic a) hn ha⟩

/-! ## Linkage after stamping -/

/-- Stamping writes whole families, so it keeps a tree well-linked. -/
theorem wellLinked_of_stamped (hl : t.WellLinked)
    (hs : t.Stamped (ReflTransGen t.Holds root) t') : t'.WellLinked := by
  refine hl.of_sameBodies hs.sameBodies ?_ ?_
  · intro a n hn
    by_cases ha : ReflTransGen t.Holds root a
    · have hget : ∀ e ∈ n.heldNodes, ∃ m : Node, t'.get? e.2 = some (m.attach ⟨a, e.1⟩) := by
        intro e he
        obtain ⟨m, hm⟩ := hl.toForest.get?_held hn (List.mem_map_of_mem (f := (·.2)) he)
        refine ⟨m, ?_⟩
        rw [hs.inside ha hn he, hm, Option.map_some]
      refine .inr ⟨fun e he => ?_, row_of_unknown fun c hc side => ?_⟩
      · obtain ⟨m, hm⟩ := hget e he
        rw [attachmentOf?_eq hm, Node.attachment_attach]
      · obtain ⟨e, he, rfl⟩ := List.mem_map.mp hc
        obtain ⟨m, hm⟩ := hget e he
        rw [slots_eq hm, Node.link_attach]
    · have hsame : ∀ c ∈ n.held, t'.get? c = t.get? c := by
        intro c hc
        refine hs.outside fun b hb hbc => ha ?_
        exact hl.one_holder hbc ⟨n, hn, hc⟩ ▸ hb
      exact (hl.family hn).congr (fun c hc => attachmentOf?_congr (hsame c hc))
        fun c hc => slots_congr (hsame c hc)
  · intro x hx
    have hsame : t'.get? x = t.get? x := hs.outside fun a _ => hx a
    exact (hl.unlinked hx).congr (attachmentOf?_congr hsame) (slots_congr hsame)

theorem wellLinked_stamp (hl : t.WellLinked) (root : NodeId) :
    ((stamp root).after t).WellLinked := by
  cases hn : t.get? root with
  | none => rwa [stamp, after_bind_ask_error (get_of_get?_none hn)]
  | some n =>
    cases ha : n.attachment with
    | some a =>
      rw [stamp, after_bind_ok (run_ask_ok (get_of_get? hn)), ha]
      exact hl
    | none =>
      -- An unattached node of a well-linked tree knows no neighbours, so there is nothing to detach.
      have hdetach : t.update root Node.detach = t := by
        refine update_eq_self fun m hm => ?_
        obtain rfl : n = m := Option.some.inj (hn.symm.trans hm)
        exact Node.detach_eq_self ha (hl.loose hn ha)
      obtain ⟨count, t', hrun, hst⟩ := run_stamp hl.toForest hn ha
      rw [hdetach] at hst
      rw [after_of_ok hrun]
      exact wellLinked_of_stamped hl hst

end Linking

end Trellis
