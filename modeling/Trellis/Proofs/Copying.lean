import Trellis.Proofs.Growing
import Trellis.Proofs.Unfolding

/-!
# Copies

A copy goes through a node the way its unfolding does: every reference gets a node of its own, so a
node that is stored at several places is copied once for each. The new nodes are put behind the old
ones, and each is handed to one place: to the node made after its siblings, or to the caller. That
is an exact count, kept while runs follow each other, and it is all that freshness needs. Nothing is
asked of what the old nodes record, nor of those that do not lie below the original.

Original and copy are compared in the tree that comes out, or in any tree that grew from it. The
original unfolds there as it did before, so no unfolding has to be carried from tree to tree.
-/

namespace Trellis

open Relation (ReflTransGen TransGen)

namespace Tree

variable {t t' t'' : Tree} {id c x : NodeId} {n : Node} {kind : Kind} {fields : List Value}
  {new new' : List Node} {ids ids' : List NodeId}

/-! ## What can be copied -/

/-- From `id` down every node is known, none lies below itself, and no map repeats a name. -/
structure Copyable (t : Tree) (id : NodeId) : Prop where
  known : ∀ x, ReflTransGen t.Holds id x → ∃ n, t.get? x = some n
  acyclic : ∀ x, ReflTransGen t.Holds id x → ¬ t.Below x x
  distinct : ∀ x n, ReflTransGen t.Holds id x → t.get? x = some n → ∀ v ∈ n.fields, v.Distinct

theorem Copyable.reached (hc : t.Copyable id) (hx : ReflTransGen t.Holds id x) : t.Copyable x where
  known := fun y hy => hc.known y (hx.trans hy)
  acyclic := fun y hy => hc.acyclic y (hx.trans hy)
  distinct := fun y n hy => hc.distinct y n (hx.trans hy)

theorem Copyable.population_lt (hc : t.Copyable id) (hx : t.Holds id x) :
    t.population x < t.population id := by
  obtain ⟨n, hn⟩ := hc.known x (.single hx)
  exact Tree.population_lt hx hn (hc.acyclic x (.single hx))

/-! ## New nodes -/

/-- Every node of `t` is in `t'` as it was. -/
def Kept (t t' : Tree) : Prop := ∀ x n, t.get? x = some n → t'.get? x = some n

theorem Kept.refl (t : Tree) : t.Kept t := fun _ _ hn => hn

theorem Kept.trans (h : t.Kept t') (h' : t'.Kept t'') : t.Kept t'' :=
  fun x n hn => h' x n (h x n hn)

theorem Kept.holds {a b : NodeId} (h : t.Kept t') (hn : t.get? a = some n) (hab : t'.Holds a b) :
    t.Holds a b := by
  obtain ⟨n', hn', hb⟩ := hab
  obtain rfl : n = n' := Option.some.inj ((h a n hn).symm.trans hn')
  exact ⟨n, hn, hb⟩

/-- What is known from `id` down holds the same after growth, so nothing else comes below. -/
theorem Kept.reaches (h : t.Kept t') (hc : t.Copyable id) (hx : ReflTransGen t'.Holds id x) :
    ReflTransGen t.Holds id x := by
  induction hx with
  | refl => exact .refl
  | @tail a b _ hab ih =>
    obtain ⟨n, hn⟩ := hc.known a ih
    exact ih.tail (h.holds hn hab)

theorem Kept.grounded (h : t.Kept t') (hc : t.Copyable id) : t'.Grounded (.node id) := by
  intro x hx hxx
  have hx := h.reaches hc (beneath_node.mp hx)
  obtain ⟨n, hn⟩ := hc.known x hx
  obtain ⟨y, hxy, hyx⟩ := TransGen.head'_iff.mp hxx
  have hxy := h.holds hn hxy
  exact hc.acyclic x hx (.head' hxy (h.reaches (hc.reached (hx.tail hxy)) hyx))

/-- The nodes stored in the slots from `start` on, one for each position in their fields. -/
def heldFrom (t : Tree) (start : Nat) : List NodeId :=
  (t.nodes.toList.drop start).flatMap Node.held

/-- `t'` is `t` with the unlinked nodes `new` behind it. Each of them is stored at one position among
them or is one of `ids`. -/
structure Spawned (t : Tree) (new : List Node) (ids : List NodeId) (t' : Tree) : Prop where
  nodes : t'.nodes.toList = t.nodes.toList ++ new
  placed : (new.flatMap Node.held ++ ids).Perm ((List.range' t.size new.length).map NodeId.mk)
  loose : ∀ n ∈ new, n.attachment = none ∧ ∀ side, n.link side = .unknown

theorem Spawned.refl (t : Tree) : t.Spawned [] [] t := ⟨by simp, by simp, by simp⟩

theorem Spawned.size (h : t.Spawned new ids t') : t'.size = t.size + new.length := by
  have hlen := congrArg List.length h.nodes
  rw [List.length_append, Array.length_toList, Array.length_toList] at hlen
  exact hlen

theorem Spawned.get? (h : t.Spawned new ids t') (x : NodeId) :
    t'.get? x = (t.nodes.toList ++ new)[x.number]? := by
  rw [← h.nodes, Array.getElem?_toList]
  rfl

theorem Spawned.kept (h : t.Spawned new ids t') : t.Kept t' := by
  intro x n hn
  rw [h.get?, List.getElem?_append_left, Array.getElem?_toList]
  · exact hn
  · exact lt_size_of_get? hn

theorem Spawned.heldFrom (h : t.Spawned new ids t') :
    t'.heldFrom t.size = new.flatMap Node.held := by
  rw [Tree.heldFrom, h.nodes, List.drop_left']
  exact Array.length_toList

theorem Spawned.mem_new (h : t.Spawned new ids t') (hx : t.get? x = none)
    (hn : t'.get? x = some n) : n ∈ new := by
  have hsize : t.nodes.toList.length ≤ x.number := by simpa [Tree.get?] using hx
  rw [h.get?, List.getElem?_append_right hsize] at hn
  exact List.mem_of_getElem? hn

/-- The new slots, in terms of both trees. -/
theorem Spawned.mem_range (h : t.Spawned new ids t') :
    x ∈ (List.range' t.size new.length).map NodeId.mk ↔
      t.get? x = none ∧ ∃ n, t'.get? x = some n := by
  have hx : t.get? x = none ↔ t.size ≤ x.number := by simp [Tree.get?, Tree.size]
  have hx' : (∃ n, t'.get? x = some n) ↔ x.number < t'.size := by
    rw [← Option.isSome_iff_exists]
    simp [Tree.get?, Tree.size]
  rw [hx, hx', h.size, List.mem_map]
  constructor
  · intro hmem
    obtain ⟨i, hi, rfl⟩ := hmem
    simpa using hi
  · intro hmem
    exact ⟨x.number, by simpa using hmem, rfl⟩

/-- More new nodes behind the new ones. -/
theorem Spawned.append (h : t.Spawned new ids t') (h' : t'.Spawned new' ids' t'') :
    t.Spawned (new ++ new') (ids ++ ids') t'' where
  nodes := by rw [h'.nodes, h.nodes, List.append_assoc]
  placed := by
    have hrange : List.range' t.size (new ++ new').length =
        List.range' t.size new.length ++ List.range' t'.size new'.length := by
      rw [List.length_append, h.size, List.range'_append_1]
    rw [hrange, List.map_append, List.flatMap_append]
    apply List.Perm.trans _ (h.placed.append h'.placed)
    rw [List.append_assoc, List.append_assoc]
    apply List.Perm.append_left
    rw [← List.append_assoc, ← List.append_assoc]
    exact List.perm_append_comm.append_right ids'
  loose := by
    intro n hn
    rcases List.mem_append.mp hn with hn | hn
    · exact h.loose n hn
    · exact h'.loose n hn

/-- One more node, which stores what was handed out so far. -/
theorem Spawned.add (h : t.Spawned new (fields.flatMap Value.held) t')
    (hadd : t'.add kind fields = .ok (c, t'')) :
    ∃ n : Node, t''.get? c = some n ∧ n.kind = kind ∧ n.fields = fields ∧
      t.Spawned (new ++ [n]) [c] t'' := by
  rw [Tree.add] at hadd
  split at hadd
  · rename_i arity
    split at hadd
    · obtain ⟨rfl, rfl⟩ := Prod.mk.inj (Except.ok.inj hadd)
      refine ⟨⟨kind, fields, arity, none, .unknown, .unknown⟩, ?_, rfl, rfl, ?_, ?_, ?_⟩
      · simp [Tree.get?, Tree.size]
      · simp [h.nodes]
      · rw [List.length_append, List.length_singleton, List.range'_1_concat, List.map_append,
          ← h.size, List.flatMap_append, List.flatMap_singleton, Node.held_eq]
        exact h.placed.append_right _
      · intro n hn
        rcases List.mem_append.mp hn with hn | hn
        · exact h.loose n hn
        · obtain rfl := List.mem_singleton.mp hn
          exact ⟨rfl, fun side => by cases side <;> rfl⟩
    · cases hadd
  · cases hadd

theorem kept_of_add (hadd : t.add kind fields = .ok (c, t')) : t.Kept t' := by
  have h := added_of_add hadd
  intro x n hn
  rw [h.kept x (h.known ⟨n, hn⟩).1]
  exact hn

/-- What can be reached from one node handed out is new, and stored once unless it is that node. -/
theorem Spawned.reachable (h : t.Spawned new [c] t') (hx : ReflTransGen t'.Holds c x) :
    (t.get? x = none ∧ ∃ n, t'.get? x = some n) ∧
      (t'.heldFrom t.size).count x = if x = c then 0 else 1 := by
  have hmem : ∀ y, y ∈ new.flatMap Node.held ++ [c] ↔
      t.get? y = none ∧ ∃ n, t'.get? y = some n := fun y =>
    h.placed.mem_iff.trans h.mem_range
  have hnew : x ∈ new.flatMap Node.held ++ [c] := by
    induction hx with
    | refl => simp
    | @tail a b _ hab ih =>
      obtain ⟨n, hn, hb⟩ := hab
      have ha := ((hmem a).mp ih).1
      exact List.mem_append_left _ (List.mem_flatMap.mpr ⟨n, h.mem_new ha hn, hb⟩)
  have hnodup : (new.flatMap Node.held ++ [c]).Nodup := by
    apply h.placed.nodup_iff.mpr
    exact List.Nodup.map (fun i j hij => NodeId.mk.inj hij) List.nodup_range'
  have hcount := List.count_eq_one_of_mem hnodup hnew
  rw [List.count_append, List.count_singleton] at hcount
  refine ⟨(hmem x).mp hnew, ?_⟩
  rw [h.heldFrom]
  by_cases hxc : x = c
  · simp [hxc] at hcount ⊢
    exact hcount
  · simpa [hxc, Ne.symm hxc] using hcount

end Tree

namespace Linking

open Trellis.Tree

variable {α β γ : Type} {t₀ : Tree} {x : Linking α} {y : Linking β} {count count' : Nat}
  {ids : α → List NodeId} {ids' : β → List NodeId} {ids'' : γ → List NodeId}
  {P : Tree → α → Prop} {Q : Tree → β → Prop} {R : Tree → γ → Prop}

/-! ## Runs that make new nodes -/

/-- From every tree that grew from `t₀` and has room for `count` more nodes, the run succeeds. It
makes that many and hands out those in its answer, and the answer has a property in every tree that
grows from there. -/
def Spawns (t₀ : Tree) (x : Linking α) (count : Nat) (ids : α → List NodeId)
    (P : Tree → α → Prop) : Prop :=
  ∀ t, t₀.Kept t → t.size + count ≤ capacity → ∃ a t' new, x.run t = .ok a t' ∧
    t.Spawned new (ids a) t' ∧ new.length = count ∧ ∀ later, t'.Kept later → P later a

theorem spawns_pure {a : α} (ha : ∀ later, P later a) (hids : ids a = []) :
    Spawns t₀ (pure a) 0 ids P := by
  intro t _ _
  exact ⟨a, t, [], rfl, hids ▸ .refl t, rfl, fun later _ => ha later⟩

theorem Spawns.map {g : α → β} (hx : Spawns t₀ x count ids P)
    (hQ : ∀ later a, P later a → Q later (g a)) (hids : ∀ later a, P later a → ids' (g a) = ids a) :
    Spawns t₀ (do return g (← x)) count ids' Q := by
  intro t hk hroom
  obtain ⟨a, t', new, hrun, hs, hlen, hP⟩ := hx t hk hroom
  refine ⟨g a, t', new, ?_, ?_, hlen, fun later hl => hQ later a (hP later hl)⟩
  · rw [run_bind_ok hrun]
    rfl
  · rw [hids t' a (hP t' (.refl t'))]
    exact hs

theorem Spawns.pair {g : α → β → γ} (hx : Spawns t₀ x count ids P)
    (hy : Spawns t₀ y count' ids' Q) (hR : ∀ later a b, P later a → Q later b → R later (g a b))
    (hids : ∀ a b, ids'' (g a b) = ids a ++ ids' b) :
    Spawns t₀ (do
      let a ← x
      return g a (← y)) (count + count') ids'' R := by
  intro t hk hroom
  obtain ⟨a, t', new, hrun, hs, hlen, hP⟩ := hx t hk (by omega)
  have hsize := hs.size
  obtain ⟨b, t'', new', hrun', hs', hlen', hQ⟩ := hy t' (hk.trans hs.kept) (by omega)
  refine ⟨g a b, t'', new ++ new', ?_, ?_, ?_, ?_⟩
  · rw [run_bind_ok hrun, run_bind_ok hrun']
    rfl
  · rw [hids]
    exact hs.append hs'
  · rw [List.length_append, hlen, hlen']
  · intro later hl
    exact hR later a b (hP later (hs'.kept.trans hl)) (hQ later hl)

/-! ## Copying a node -/

/-- Wherever `v` unfolds, `w` unfolds to the same. -/
def Mirrors (v w : Value) (t : Tree) : Prop := ∀ u, t.Unfolds v u → t.Unfolds w u

/-- One new node for `id` and one for every item of what lies below it. -/
def SpawnsCopy (t₀ : Tree) (f : NodeId → Linking NodeId) (cost : NodeId → Nat) (id : NodeId) :
    Prop :=
  Spawns t₀ (f id) (cost id) (fun c => [c]) fun later c => Mirrors (.node id) (.node c) later

section Nodes

variable {f : NodeId → Linking NodeId} {cost : NodeId → Nat}

mutual

/-- If a function copies the nodes of a value, replacing them by it copies the value. -/
theorem spawns_value : ∀ v : Value, v.Distinct → (∀ id ∈ v.held, SpawnsCopy t₀ f cost id) →
    Spawns t₀ (v.replaceNodes f) (v.held.map cost).sum Value.held
      fun later w => Mirrors v w later
  | .node id, _, hf => by
    rw [Value.held_node, List.map_singleton, List.sum_singleton]
    exact (hf id (by simp)).map (fun _ _ h => h) fun _ _ _ => rfl
  | .list items, hd, hf => by
    rw [Value.held_list] at hf ⊢
    refine (spawns_items items (Value.distinct_list.mp hd) hf).map ?_ fun _ ws _ => Value.held_list ws
    intro later ws hws u hu
    cases hu with
    | list hus => exact .list (hws.2 _ hus)
  | .map ⟨entries⟩, hd, hf => by
    obtain ⟨hnames, hdist⟩ := Value.distinct_map.mp hd
    rw [Value.held_map] at hf ⊢
    refine (spawns_entries entries hdist hf).map ?_ ?_
    · intro later pairs hp u hu
      rw [hnames.ofPairs hp.1]
      cases hu with
      | map hus => exact .map (hp.2 _ hus)
    · intro later pairs hp
      rw [hnames.ofPairs hp.1, Value.held_map]
  | .null, _, _ => spawns_pure (fun _ _ h => h) rfl
  | .bool _, _, _ => spawns_pure (fun _ _ h => h) rfl
  | .int _, _, _ => spawns_pure (fun _ _ h => h) rfl
  | .text _, _, _ => spawns_pure (fun _ _ h => h) rfl

theorem spawns_items : ∀ items : List Value, (∀ v ∈ items, v.Distinct) →
    (∀ id ∈ items.flatMap Value.held, SpawnsCopy t₀ f cost id) →
    Spawns t₀ (Value.replaceInItems f items) ((items.flatMap Value.held).map cost).sum
      (fun ws => ws.flatMap Value.held) fun later ws => ws.length = items.length ∧
        ∀ us, later.UnfoldsItems items us → later.UnfoldsItems ws us
  | [], _, _ => spawns_pure (fun _ => ⟨rfl, fun _ h => h⟩) rfl
  | v :: rest, hd, hf => by
    rw [List.flatMap_cons] at hf
    rw [List.flatMap_cons, List.map_append, List.sum_append]
    refine (spawns_value v (hd v (by simp)) fun id h => hf id (List.mem_append_left _ h)).pair
      (spawns_items rest (fun w hw => hd w (List.mem_cons_of_mem v hw))
        fun id h => hf id (List.mem_append_right _ h)) ?_ fun _ _ => List.flatMap_cons
    intro later w ws hw hws
    refine ⟨by simp [hws.1], ?_⟩
    intro us hus
    cases hus with
    | cons h hs => exact .cons (hw _ h) (hws.2 _ hs)

theorem spawns_entries : ∀ entries : List (String × Value), (∀ e ∈ entries, e.2.Distinct) →
    (∀ id ∈ entries.flatMap fun e => e.2.held, SpawnsCopy t₀ f cost id) →
    Spawns t₀ (Value.replaceInEntries f entries)
      ((entries.flatMap fun e => e.2.held).map cost).sum
      (fun pairs => pairs.flatMap fun e => e.2.held) fun later pairs =>
        pairs.map (·.1) = entries.map (·.1) ∧
        ∀ us, later.UnfoldsEntries entries us → later.UnfoldsEntries pairs us
  | [], _, _ => spawns_pure (fun _ => ⟨rfl, fun _ h => h⟩) rfl
  | (name, v) :: rest, hd, hf => by
    rw [List.flatMap_cons] at hf
    rw [List.flatMap_cons, List.map_append, List.sum_append]
    refine (spawns_value v (hd (name, v) (by simp))
      fun id h => hf id (List.mem_append_left _ h)).pair
      (spawns_entries rest (fun e he => hd e (List.mem_cons_of_mem _ he))
        fun id h => hf id (List.mem_append_right _ h)) ?_ fun _ _ => List.flatMap_cons
    intro later w pairs hw hp
    refine ⟨by simp [hp.1], ?_⟩
    intro us hus
    cases hus with
    | cons h hs => exact .cons (hw _ h) (hp.2 _ hs)

end

end Nodes

/-- What lies below a node costs one new node for each item. -/
theorem length_offspring_cost {fuel : Nat} {id : NodeId} {n : Node} (hn : t₀.get? id = some n) :
    (t₀.offspring (fuel + 1) id).length = ((n.fields.flatMap Value.held).map fun x =>
      1 + (t₀.offspring fuel x).length).sum := by
  rw [length_offspring_succ hn, ← n.held_eq, Node.held, List.map_map]
  induction n.heldNodes with
  | nil => rfl
  | cons e rest ih =>
    simp only [List.map_cons, List.sum_cons, List.length_cons, Function.comp_apply] at ih ⊢
    omega

theorem add_ok {t : Tree} {kind : Kind} {fields : List Value}
    (harity : fields.length = kind.fields.length) (hroom : t.size < capacity) :
    ∃ c t', t.add kind fields = .ok (c, t') :=
  ⟨_, _, by rw [Tree.add, dif_pos harity, if_pos hroom]⟩

/-- The budget suffices because the number of nodes below drops at every step down. -/
theorem spawns_copyWithin {fuel : Nat} {id : NodeId} (hc : t₀.Copyable id)
    (hfuel : t₀.population id < fuel) :
    SpawnsCopy t₀ (copyWithin fuel) (fun x => 1 + (t₀.offspring fuel x).length) id := by
  induction fuel generalizing id with
  | zero => omega
  | succ fuel ih =>
    obtain ⟨n, hn⟩ := hc.known id .refl
    have hfields := spawns_items n.fields (hc.distinct id n .refl hn) fun x hx => by
      have hholds : t₀.Holds id x := ⟨n, hn, n.held_eq ▸ hx⟩
      have hlt := hc.population_lt hholds
      exact ih (hc.reached (.single hholds)) (by omega)
    rw [← length_offspring_cost hn] at hfields
    intro t hk hroom
    have hroom : t.size + (1 + (t₀.offspring (fuel + 1) id).length) ≤ capacity := hroom
    obtain ⟨fields, t', new, hrun, hs, hlen, hP⟩ := hfields t hk (by omega)
    have hsize := hs.size
    have harity : fields.length = n.kind.fields.length := by
      rw [(hP t' (.refl t')).1, n.arity]
    obtain ⟨c, t'', hadd⟩ := add_ok harity (by omega : t'.size < capacity)
    obtain ⟨m, hm, hkind, hmfields, hs'⟩ := hs.add hadd
    refine ⟨c, t'', new ++ [m], ?_, hs', ?_, ?_⟩
    · rw [copyWithin, run_bind_ok (run_ask_ok (get_of_get? (hk id n hn))), run_bind_ok hrun,
        run_addNode_ok hadd]
    · rw [List.length_append, List.length_singleton, hlen, Nat.add_comm]
    · intro later hl u hu
      have hid : later.get? id = some n := (hk.trans (hs'.kept.trans hl)) id n hn
      have hlater : t'.Kept later := (kept_of_add hadd).trans hl
      cases hu with
      | unknown hnone => cases hid.symm.trans hnone
      | node hn' hus =>
        obtain rfl := Option.some.inj (hid.symm.trans hn')
        rw [← hkind]
        exact .node (hl c m hm) (hmfields ▸ (hP later hlater).2 _ hus)

/-- What a copy of the nodes from `id` down, `count` of them below it, leaves: `copy` has the shape of
`id`; whatever is reached from it is new and, apart from itself, stored at one position; the nodes
that were there are as they were; and the new ones, one for `id` and one for each item below it, are
unlinked. -/
structure CopiedTo (t : Tree) (id : NodeId) (count : Nat) (copy : NodeId) (t' : Tree) : Prop where
  deepEq : t'.deepEq (.node copy) (.node id) = true
  fresh : ∀ x, ReflTransGen t'.Holds copy x → t.get? x = none ∧ ∃ n, t'.get? x = some n
  stored : ∀ x, ReflTransGen t'.Holds copy x →
    (t'.heldFrom t.size).count x = if x = copy then 0 else 1
  kept : ∀ x n, t.get? x = some n → t'.get? x = some n
  size : t'.size = t.size + 1 + count
  loose : ∀ x n, t.get? x = none → t'.get? x = some n →
    n.attachment = none ∧ ∀ side, n.link side = .unknown

/-- Copying a node below which everything is known, nothing lies below itself and no map repeats a
name, while the arena has room: the descendants are listed, and a copy that shares no node with what
was there takes one slot more than these. -/
theorem copy_makes_disjoint_copy {t : Tree} {id : NodeId} (hc : t.Copyable id) :
    ∃ ids : List NodeId, (∀ limit, t.descendants id limit = .ok (ids.take limit)) ∧
      (t.size + 1 + ids.length ≤ capacity → ∃ copy t', (Linking.copy id).run t = .ok copy t' ∧
        CopiedTo t id ids.length copy t') := by
  obtain ⟨n, hn⟩ := hc.known id .refl
  have hfuel := t.population_lt_nesting id
  refine ⟨(t.offspring t.nesting id).map (·.2), ?_, ?_⟩
  · apply descendants_eq hn ((Kept.refl t).grounded hc) _ hfuel
    intro x y hx hxy
    exact (hc.reached hx).population_lt hxy
  · rw [List.length_map]
    intro hroom
    obtain ⟨copy, t', new, hrun, hs, hlen, hmirrors⟩ := spawns_copyWithin hc hfuel t (.refl t)
      (Nat.add_assoc t.size 1 _ ▸ hroom)
    have hid : t'.Unfolds (.node id) _ := unfolds_unfolding (hs.kept.grounded hc)
    have hcopy := hmirrors t' (.refl t') _ hid
    refine ⟨copy, t', hrun, ?_⟩
    constructor
    · exact (deepEq_iff_unfolds hcopy.grounded hid.grounded).mpr ⟨_, hcopy, hid⟩
    · intro x hx
      exact (hs.reachable hx).1
    · intro x hx
      exact (hs.reachable hx).2
    · exact hs.kept
    · rw [hs.size, hlen, Nat.add_assoc]
    · intro x n hx hn
      exact hs.loose n (hs.mem_new hx hn)

/-- The leaf that the pair shares with itself is copied twice. -/
theorem copy_makes_disjoint_copy_shared :
    shared.descendants ⟨1⟩ 9 = .ok [⟨0⟩, ⟨0⟩] ∧ ∃ copy t',
      (Linking.copy ⟨1⟩).run shared = .ok copy t' ∧ CopiedTo shared ⟨1⟩ 2 copy t' := by
  have hdesc : shared.Descending := by decide
  have hlt : ∀ x, ReflTransGen shared.Holds ⟨1⟩ x → x.number < shared.nodes.size := by
    intro x hx
    rcases Relation.reflTransGen_iff_eq_or_transGen.mp hx with rfl | hx
    · decide
    · exact (hdesc.lt_of_below hx).trans (by decide)
  have hc : shared.Copyable ⟨1⟩ := by
    constructor
    · intro x hx
      have hx := hlt x hx
      exact ⟨shared.nodes[x.number], Array.getElem?_eq_getElem hx⟩
    · intro x _ hxx
      exact Nat.lt_irrefl _ (hdesc.lt_of_below hxx)
    · intro x n _ hn
      have hall : ∀ n ∈ shared.nodes.toList, ∀ v ∈ n.fields, v.Distinct := by decide
      exact hall n (Array.mem_toList_iff.mpr (Array.mem_of_getElem? hn))
  obtain ⟨ids, hids, hcopy⟩ := copy_makes_disjoint_copy hc
  have hlist : shared.descendants ⟨1⟩ 9 = .ok [⟨0⟩, ⟨0⟩] := by decide
  have htake : ids.take 9 = [⟨0⟩, ⟨0⟩] := Except.ok.inj ((hids 9).symm.trans hlist)
  have hlen : ids.length = 2 := by
    have := congrArg List.length htake
    simp only [List.length_take, List.length_cons, List.length_nil] at this
    omega
  rw [hlen] at hcopy
  exact ⟨hlist, hcopy (by decide)⟩

end Linking

end Trellis
