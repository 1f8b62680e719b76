import Trellis.Copy
import Trellis.Proofs.Stamping

/-!
# Unfoldings

A value unfolds when every node in it is replaced by its kind and its unfolded fields, at every depth.
A node that the tree does not know stays as a mark with its number. Lists, maps with their order and
leaves are kept; a map may repeat a name. `Tree.Unfolds` says so without a budget. A value has an
unfolding exactly if no node beneath it lies below itself, and then only one.

`Tree.deepEq` compares without unfolding anything: it takes two references to one node for equal at
once, and goes down in both values together. It still decides whether two values unfold to the same.
Shared nodes need no care, since sharing is lost in the unfolding.
-/

namespace Trellis

open Relation (ReflTransGen TransGen)

/-- A value without references: nodes stand where they were referred to. -/
inductive Unfolding where
  | null
  | bool (b : Bool)
  | int (i : Int64)
  | text (s : String)
  | list (items : List Unfolding)
  | map (entries : List (String × Unfolding))
  | node (kind : Kind) (fields : List Unfolding)
  | unknown (id : NodeId)

namespace Tree

mutual

/-- `v` unfolds to `u` in the tree `t`. -/
inductive Unfolds (t : Tree) : Value → Unfolding → Prop where
  | null : Unfolds t .null .null
  | bool (b : Bool) : Unfolds t (.bool b) (.bool b)
  | int (i : Int64) : Unfolds t (.int i) (.int i)
  | text (s : String) : Unfolds t (.text s) (.text s)
  | list {items : List Value} {us : List Unfolding} :
    UnfoldsItems t items us → Unfolds t (.list items) (.list us)
  | map {entries : List (String × Value)} {us : List (String × Unfolding)} :
    UnfoldsEntries t entries us → Unfolds t (.map ⟨entries⟩) (.map us)
  | node {id : NodeId} {n : Node} {us : List Unfolding} : t.get? id = some n →
    UnfoldsItems t n.fields us → Unfolds t (.node id) (.node n.kind us)
  | unknown {id : NodeId} : t.get? id = none → Unfolds t (.node id) (.unknown id)

inductive UnfoldsItems (t : Tree) : List Value → List Unfolding → Prop where
  | nil : UnfoldsItems t [] []
  | cons {v : Value} {u : Unfolding} {rest : List Value} {us : List Unfolding} :
    Unfolds t v u → UnfoldsItems t rest us → UnfoldsItems t (v :: rest) (u :: us)

inductive UnfoldsEntries (t : Tree) :
    List (String × Value) → List (String × Unfolding) → Prop where
  | nil : UnfoldsEntries t [] []
  | cons {name : String} {v : Value} {u : Unfolding} {rest : List (String × Value)}
    {us : List (String × Unfolding)} : Unfolds t v u → UnfoldsEntries t rest us →
    UnfoldsEntries t ((name, v) :: rest) ((name, u) :: us)

end

variable {t : Tree} {v a b : Value} {id x : NodeId} {depth : Nat}

mutual

/-- A value has at most one unfolding. -/
theorem Unfolds.unique : ∀ {v : Value} {u u' : Unfolding},
    t.Unfolds v u → t.Unfolds v u' → u = u'
  | _, _, _, .null, .null => rfl
  | _, _, _, .bool _, .bool _ => rfl
  | _, _, _, .int _, .int _ => rfl
  | _, _, _, .text _, .text _ => rfl
  | _, _, _, .list h, .list h' => congrArg _ (h.unique h')
  | _, _, _, .map h, .map h' => congrArg _ (h.unique h')
  | _, _, _, .node hn h, .node hn' h' => by
    obtain rfl := Option.some.inj (hn.symm.trans hn')
    exact congrArg _ (h.unique h')
  | _, _, _, .node hn _, .unknown hn' => by cases hn.symm.trans hn'
  | _, _, _, .unknown hn, .node hn' _ => by cases hn.symm.trans hn'
  | _, _, _, .unknown _, .unknown _ => rfl

theorem UnfoldsItems.unique : ∀ {items : List Value} {us us' : List Unfolding},
    t.UnfoldsItems items us → t.UnfoldsItems items us' → us = us'
  | _, _, _, .nil, .nil => rfl
  | _, _, _, .cons h hs, .cons h' hs' => by rw [h.unique h', hs.unique hs']

theorem UnfoldsEntries.unique : ∀ {entries : List (String × Value)}
    {us us' : List (String × Unfolding)},
    t.UnfoldsEntries entries us → t.UnfoldsEntries entries us' → us = us'
  | _, _, _, .nil, .nil => rfl
  | _, _, _, .cons h hs, .cons h' hs' => by rw [h.unique h', hs.unique hs']

end

mutual

/-- What a value holds unfolds too, and to nothing larger. -/
theorem Unfolds.held : ∀ {v : Value} {u : Unfolding}, t.Unfolds v u → ∀ x ∈ v.held,
    ∃ u', t.Unfolds (.node x) u' ∧ sizeOf u' ≤ sizeOf u
  | _, _, .null, x, hx => by cases hx
  | _, _, .bool _, x, hx => by cases hx
  | _, _, .int _, x, hx => by cases hx
  | _, _, .text _, x, hx => by cases hx
  | _, _, .list h, x, hx => by
    rw [Value.held_list] at hx
    obtain ⟨u', hu', hle⟩ := h.held x hx
    exact ⟨u', hu', by simp; omega⟩
  | _, _, .map h, x, hx => by
    rw [Value.held_map] at hx
    obtain ⟨u', hu', hle⟩ := h.held x hx
    exact ⟨u', hu', by simp; omega⟩
  | _, _, .node hn h, x, hx => by
    obtain rfl := List.mem_singleton.mp hx
    exact ⟨_, .node hn h, le_rfl⟩
  | _, _, .unknown hn, x, hx => by
    obtain rfl := List.mem_singleton.mp hx
    exact ⟨_, .unknown hn, le_rfl⟩

theorem UnfoldsItems.held : ∀ {items : List Value} {us : List Unfolding},
    t.UnfoldsItems items us → ∀ x ∈ items.flatMap Value.held,
    ∃ u', t.Unfolds (.node x) u' ∧ sizeOf u' ≤ sizeOf us
  | _, _, .nil, x, hx => by cases hx
  | _, _, .cons h hs, x, hx => by
    rw [List.flatMap_cons] at hx
    rcases List.mem_append.mp hx with hx | hx
    · obtain ⟨u', hu', hle⟩ := h.held x hx
      exact ⟨u', hu', by simp; omega⟩
    · obtain ⟨u', hu', hle⟩ := hs.held x hx
      exact ⟨u', hu', by simp; omega⟩

theorem UnfoldsEntries.held : ∀ {entries : List (String × Value)} {us : List (String × Unfolding)},
    t.UnfoldsEntries entries us → ∀ x ∈ entries.flatMap fun e => e.2.held,
    ∃ u', t.Unfolds (.node x) u' ∧ sizeOf u' ≤ sizeOf us
  | _, _, .nil, x, hx => by cases hx
  | _, _, .cons h hs, x, hx => by
    rw [List.flatMap_cons] at hx
    rcases List.mem_append.mp hx with hx | hx
    · obtain ⟨u', hu', hle⟩ := h.held x hx
      exact ⟨u', hu', by simp; omega⟩
    · obtain ⟨u', hu', hle⟩ := hs.held x hx
      exact ⟨u', hu', by simp; omega⟩

end

theorem Unfolds.holds {a b : NodeId} {u : Unfolding} (hu : t.Unfolds (.node a) u)
    (hab : t.Holds a b) : ∃ u', t.Unfolds (.node b) u' ∧ sizeOf u' < sizeOf u := by
  obtain ⟨n, hn, hb⟩ := hab
  cases hu with
  | unknown hnone => cases hn.symm.trans hnone
  | node hn' hfields =>
    obtain rfl := Option.some.inj (hn.symm.trans hn')
    obtain ⟨u', hu', hle⟩ := hfields.held b (n.held_eq ▸ hb)
    exact ⟨u', hu', by simp; omega⟩

theorem Unfolds.of_below {a b : NodeId} {u : Unfolding} (hu : t.Unfolds (.node a) u)
    (hab : t.Below a b) : ∃ u', t.Unfolds (.node b) u' ∧ sizeOf u' < sizeOf u := by
  induction hab with
  | single hab => exact hu.holds hab
  | tail _ hbc ih =>
    obtain ⟨u', hu', hlt⟩ := ih
    obtain ⟨u'', hu'', hlt'⟩ := hu'.holds hbc
    exact ⟨u'', hu'', hlt'.trans hlt⟩

/-- A node below itself would unfold to something smaller than its unfolding. -/
theorem Unfolds.grounded {u : Unfolding} (hu : t.Unfolds v u) : t.Grounded v := by
  intro x hx hxx
  obtain ⟨a, ha, hax⟩ := hx
  obtain ⟨ua, hua, -⟩ := hu.held a ha
  have hux : ∃ ux, t.Unfolds (.node x) ux := by
    rcases Relation.reflTransGen_iff_eq_or_transGen.mp hax with rfl | hax
    · exact ⟨ua, hua⟩
    · obtain ⟨ux, hux, -⟩ := hua.of_below hax
      exact ⟨ux, hux⟩
  obtain ⟨ux, hux⟩ := hux
  obtain ⟨ux', hux', hlt⟩ := hux.of_below hxx
  rw [hux.unique hux'] at hlt
  exact Nat.lt_irrefl _ hlt

end Tree

/-! ## Computing an unfolding -/

namespace Value

mutual

/-- A value with `f` in the place of its nodes. -/
def unfold (f : NodeId → Unfolding) : Value → Unfolding
  | null => .null
  | bool b => .bool b
  | int i => .int i
  | text s => .text s
  | list items => .list (unfoldItems f items)
  | map ⟨entries⟩ => .map (unfoldEntries f entries)
  | node id => f id

def unfoldItems (f : NodeId → Unfolding) : List Value → List Unfolding
  | [] => []
  | v :: rest => unfold f v :: unfoldItems f rest

def unfoldEntries (f : NodeId → Unfolding) : List (String × Value) → List (String × Unfolding)
  | [] => []
  | (name, v) :: rest => (name, unfold f v) :: unfoldEntries f rest

end

end Value

namespace Tree

variable {t : Tree} {v a b : Value} {id x : NodeId} {depth : Nat}

/-- The unfolding of a node, cut off at a depth in nodes. -/
def unfoldNode (t : Tree) : (depth : Nat) → NodeId → Unfolding
  | 0, id => .unknown id
  | depth + 1, id =>
    match t.get? id with
    | none => .unknown id
    | some n => .node n.kind (Value.unfoldItems (t.unfoldNode depth) n.fields)

/-- The unfolding of a value, to a depth that suffices if no node lies below itself. -/
def unfolding (t : Tree) (v : Value) : Unfolding := v.unfold (t.unfoldNode t.nesting)

theorem unfoldNode_of_unknown (hn : t.get? id = none) (depth : Nat) :
    t.unfoldNode depth id = .unknown id := by
  cases depth with
  | zero => rfl
  | succ depth => simp [unfoldNode, hn]

theorem unfoldNode_succ {n : Node} (hn : t.get? id = some n) (depth : Nat) :
    t.unfoldNode (depth + 1) id =
      .node n.kind (Value.unfoldItems (t.unfoldNode depth) n.fields) := by
  simp [unfoldNode, hn]

mutual

theorem unfolds_unfold {f : NodeId → Unfolding} : ∀ v : Value,
    (∀ x ∈ v.held, t.Unfolds (.node x) (f x)) → t.Unfolds v (v.unfold f)
  | .null, _ => .null
  | .bool b, _ => .bool b
  | .int i, _ => .int i
  | .text s, _ => .text s
  | .list items, h => .list (unfoldsItems_unfold items (by rwa [Value.held_list] at h))
  | .map ⟨entries⟩, h => .map (unfoldsEntries_unfold entries (by rwa [Value.held_map] at h))
  | .node id, h => h id (by simp)

theorem unfoldsItems_unfold {f : NodeId → Unfolding} : ∀ items : List Value,
    (∀ x ∈ items.flatMap Value.held, t.Unfolds (.node x) (f x)) →
    t.UnfoldsItems items (Value.unfoldItems f items)
  | [], _ => .nil
  | v :: rest, h => by
    rw [List.flatMap_cons] at h
    apply UnfoldsItems.cons
    · exact unfolds_unfold v fun x hx => h x (List.mem_append_left _ hx)
    · exact unfoldsItems_unfold rest fun x hx => h x (List.mem_append_right _ hx)

theorem unfoldsEntries_unfold {f : NodeId → Unfolding} : ∀ entries : List (String × Value),
    (∀ x ∈ entries.flatMap fun e => e.2.held, t.Unfolds (.node x) (f x)) →
    t.UnfoldsEntries entries (Value.unfoldEntries f entries)
  | [], _ => .nil
  | (name, v) :: rest, h => by
    rw [List.flatMap_cons] at h
    apply UnfoldsEntries.cons
    · exact unfolds_unfold v fun x hx => h x (List.mem_append_left _ hx)
    · exact unfoldsEntries_unfold rest fun x hx => h x (List.mem_append_right _ hx)

end

/-- Where no node lies below itself, the cut is never reached: the number of known nodes below drops
at every step down. -/
theorem unfolds_unfoldNode (hg : ∀ x, ReflTransGen t.Holds id x → ¬ t.Below x x)
    (hdepth : ∀ n, t.get? id = some n → t.population id < depth) :
    t.Unfolds (.node id) (t.unfoldNode depth id) := by
  induction depth generalizing id with
  | zero =>
    cases hn : t.get? id with
    | none => exact .unknown hn
    | some n => exact absurd (hdepth n hn) (Nat.not_lt_zero _)
  | succ depth ih =>
    cases hn : t.get? id with
    | none =>
      rw [unfoldNode_of_unknown hn]
      exact .unknown hn
    | some n =>
      rw [unfoldNode_succ hn]
      apply Unfolds.node hn
      apply unfoldsItems_unfold
      intro x hx
      have hholds : t.Holds id x := ⟨n, hn, n.held_eq ▸ hx⟩
      apply ih
      · intro y hy
        exact hg y (.head hholds hy)
      · intro m hm
        have hlt := population_lt hholds hm (hg x (.single hholds))
        have hle := hdepth n hn
        omega

theorem unfolds_unfolding (hg : t.Grounded v) : t.Unfolds v (t.unfolding v) := by
  apply unfolds_unfold
  intro x hx
  apply unfolds_unfoldNode
  · intro y hy
    exact hg y ⟨x, hx, hy⟩
  · intro n _
    exact t.population_lt_nesting x

end Tree

/-! ## Comparing -/

/-- The unfolding of a node, known or not. -/
def Unfolding.IsNode : Unfolding → Prop
  | node _ _ => True
  | unknown _ => True
  | _ => False

namespace Value

variable {same : NodeId → NodeId → Bool} {f : NodeId → Unfolding}

@[simp] theorem length_unfoldItems (f : NodeId → Unfolding) (items : List Value) :
    (unfoldItems f items).length = items.length := by
  induction items with
  | nil => rfl
  | cons v rest ih => simp [unfoldItems, ih]

@[simp] theorem length_unfoldEntries (f : NodeId → Unfolding) (entries : List (String × Value)) :
    (unfoldEntries f entries).length = entries.length := by
  induction entries with
  | nil => rfl
  | cons e rest ih => simp [unfoldEntries, ih]

/-- Only a node unfolds like a node. -/
theorem unfold_ne_node (hf : ∀ x, (f x).IsNode) (x : NodeId) {v : Value}
    (hv : ∀ y, v ≠ node y) : v.unfold f ≠ f x := by
  intro h
  have hnode := hf x
  rw [← h] at hnode
  cases v with
  | node y => exact hv y rfl
  | map d => exact hnode
  | _ => exact hnode

mutual

/-- Comparing up to equal unfoldings of nodes compares the unfoldings. -/
theorem eqUpTo_iff (hsame : ∀ x y, same x y = true ↔ f x = f y) (hf : ∀ x, (f x).IsNode) :
    ∀ v w : Value, v.eqUpTo same w = true ↔ v.unfold f = w.unfold f
  | null, w => by
    cases w with
    | node y => exact iff_of_false (by simp [eqUpTo]) (unfold_ne_node hf y nofun)
    | _ => simp [eqUpTo, unfold]
  | bool b, w => by
    cases w with
    | node y => exact iff_of_false (by simp [eqUpTo]) (unfold_ne_node hf y nofun)
    | _ => simp [eqUpTo, unfold]
  | int i, w => by
    cases w with
    | node y => exact iff_of_false (by simp [eqUpTo]) (unfold_ne_node hf y nofun)
    | _ => simp [eqUpTo, unfold]
  | text s, w => by
    cases w with
    | node y => exact iff_of_false (by simp [eqUpTo]) (unfold_ne_node hf y nofun)
    | _ => simp [eqUpTo, unfold]
  | list items, w => by
    cases w with
    | node y => exact iff_of_false (by simp [eqUpTo]) (unfold_ne_node hf y nofun)
    | list items' =>
      have hlen : unfoldItems f items = unfoldItems f items' → items.length = items'.length := by
        intro h
        simpa using congrArg List.length h
      simpa [eqUpTo, unfold, eqItemsUpTo_iff hsame hf items items'] using hlen
    | _ => simp [eqUpTo, unfold]
  | map ⟨entries⟩, w => by
    cases w with
    | node y => exact iff_of_false (by simp [eqUpTo]) (unfold_ne_node hf y nofun)
    | map d =>
      obtain ⟨entries'⟩ := d
      have hlen : unfoldEntries f entries = unfoldEntries f entries' →
          entries.length = entries'.length := by
        intro h
        simpa using congrArg List.length h
      simpa [eqUpTo, unfold, eqEntriesUpTo_iff hsame hf entries entries'] using hlen
    | _ => simp [eqUpTo, unfold]
  | node x, w => by
    cases w with
    | node y => exact hsame x y
    | _ => exact iff_of_false (by simp [eqUpTo]) (unfold_ne_node hf x (by simp)).symm

theorem eqItemsUpTo_iff (hsame : ∀ x y, same x y = true ↔ f x = f y) (hf : ∀ x, (f x).IsNode) :
    ∀ items items' : List Value, eqItemsUpTo same items items' = true ↔
      unfoldItems f items = unfoldItems f items'
  | [], [] => by simp [eqItemsUpTo]
  | [], _ :: _ => by simp [eqItemsUpTo, unfoldItems]
  | _ :: _, [] => by simp [eqItemsUpTo, unfoldItems]
  | v :: rest, w :: rest' => by
    simp [eqItemsUpTo, unfoldItems, eqUpTo_iff hsame hf v w, eqItemsUpTo_iff hsame hf rest rest']

theorem eqEntriesUpTo_iff (hsame : ∀ x y, same x y = true ↔ f x = f y) (hf : ∀ x, (f x).IsNode) :
    ∀ entries entries' : List (String × Value), eqEntriesUpTo same entries entries' = true ↔
      unfoldEntries f entries = unfoldEntries f entries'
  | [], [] => by simp [eqEntriesUpTo]
  | [], _ :: _ => by simp [eqEntriesUpTo, unfoldEntries]
  | _ :: _, [] => by simp [eqEntriesUpTo, unfoldEntries]
  | (_, v) :: rest, (_, w) :: rest' => by
    simp [eqEntriesUpTo, unfoldEntries, eqUpTo_iff hsame hf v w,
      eqEntriesUpTo_iff hsame hf rest rest', and_assoc]

end

end Value

namespace Tree

variable {t : Tree} {v a b : Value} {id x : NodeId} {depth : Nat}

theorem isNode_unfoldNode (t : Tree) (depth : Nat) (id : NodeId) :
    (t.unfoldNode depth id).IsNode := by
  cases depth with
  | zero => trivial
  | succ depth =>
    cases hn : t.get? id with
    | none => rw [unfoldNode_of_unknown hn]; trivial
    | some n => rw [unfoldNode_succ hn]; trivial

/-- To the same depth, the comparison and the unfolding agree; the shortcut for one and the same node
asks for no more. -/
theorem sameShape_iff (t : Tree) (depth : Nat) (x y : NodeId) :
    t.sameShape depth x y = true ↔ t.unfoldNode depth x = t.unfoldNode depth y := by
  induction depth generalizing x y with
  | zero => simp [sameShape, unfoldNode]
  | succ depth ih =>
    have hfields := Value.eqItemsUpTo_iff ih (t.isNode_unfoldNode depth)
    by_cases hxy : x = y
    · simp [sameShape, hxy]
    · cases hx : t.get? x with
      | none =>
        cases hy : t.get? y with
        | none => simp [sameShape, unfoldNode, hx, hy]
        | some n => simp [sameShape, unfoldNode, hx, hy, hxy]
      | some m =>
        cases hy : t.get? y with
        | none => simp [sameShape, unfoldNode, hx, hy, hxy]
        | some n => simp [sameShape, unfoldNode, hx, hy, hxy, hfields]

theorem deepEq_iff_unfolding (t : Tree) (a b : Value) :
    t.deepEq a b = true ↔ t.unfolding a = t.unfolding b :=
  Value.eqUpTo_iff (t.sameShape_iff t.nesting) (t.isNode_unfoldNode t.nesting) a b

theorem deepEq_iff_unfolds (ha : t.Grounded a) (hb : t.Grounded b) :
    t.deepEq a b = true ↔ ∃ u, t.Unfolds a u ∧ t.Unfolds b u := by
  have hua := unfolds_unfolding ha
  have hub := unfolds_unfolding hb
  rw [deepEq_iff_unfolding]
  constructor
  · intro h
    exact ⟨_, hua, h ▸ hub⟩
  · intro h
    obtain ⟨u, hu, hu'⟩ := h
    rw [hua.unique hu, hub.unique hu']

/-- A known node unfolds to a node with its kind, and nothing else does. -/
theorem unfolding_ne_known {n : Node} (hn : t.get? x = some n)
    (hv : ∀ y, v = .node y → t.get? y = none) : t.unfolding (.node x) ≠ t.unfolding v := by
  have hx : t.unfolding (.node x) = _ := unfoldNode_succ hn t.size
  by_cases hnode : ∃ y, v = .node y
  · obtain ⟨y, rfl⟩ := hnode
    have hy : t.unfolding (.node y) = _ := unfoldNode_of_unknown (hv y rfl) t.nesting
    rw [hx, hy]
    exact nofun
  · exact (Value.unfold_ne_node (t.isNode_unfoldNode t.nesting) x (not_exists.mp hnode)).symm

/-- Comparing by shape is comparing unfoldings: where no node lies below itself both values have
exactly one, and they are equal by shape if it is the same. So equality by shape is an equivalence,
and it tells a known node from everything that is none. -/
theorem deepEq_is_equality_of_unfoldings (t : Tree) :
    (∀ v, t.Grounded v → ∃! u, t.Unfolds v u) ∧
    (∀ a b, t.Grounded a → t.Grounded b →
      (t.deepEq a b = true ↔ ∃ u, t.Unfolds a u ∧ t.Unfolds b u)) ∧
    (∀ a, t.Grounded a → t.deepEq a a = true) ∧
    (∀ a b, t.Grounded a → t.Grounded b → t.deepEq a b = true → t.deepEq b a = true) ∧
    (∀ a b c, t.Grounded a → t.Grounded b → t.Grounded c → t.deepEq a b = true →
      t.deepEq b c = true → t.deepEq a c = true) ∧
    ∀ x n v, t.get? x = some n → (∀ y, v = .node y → t.get? y = none) →
      t.deepEq (.node x) v = false ∧ t.deepEq v (.node x) = false := by
  refine ⟨?_, fun a b => deepEq_iff_unfolds, ?_, ?_, ?_, ?_⟩
  · intro v hv
    exact ⟨t.unfolding v, unfolds_unfolding hv, fun u hu => hu.unique (unfolds_unfolding hv)⟩
  · intro a _
    exact (t.deepEq_iff_unfolding a a).mpr rfl
  · intro a b _ _ hab
    rw [deepEq_iff_unfolding] at hab ⊢
    exact hab.symm
  · intro a b c _ _ _ hab hbc
    rw [deepEq_iff_unfolding] at hab hbc ⊢
    exact hab.trans hbc
  · intro x n v hn hv
    have hne := unfolding_ne_known hn hv
    simp only [← Bool.not_eq_true, deepEq_iff_unfolding]
    exact ⟨hne, hne.symm⟩

/-- Two leaves, a pair of the first with itself, and a pair of both. -/
def pairs : Tree where
  nodes := #[
    { kind := ⟨"Leaf", []⟩, fields := [], arity := Node.arity_leaf },
    { kind := ⟨"Leaf", []⟩, fields := [], arity := Node.arity_leaf },
    { kind := ⟨"Pair", ["one", "other"]⟩, fields := [.node ⟨0⟩, .node ⟨0⟩], arity := rfl },
    { kind := ⟨"Pair", ["one", "other"]⟩, fields := [.node ⟨0⟩, .node ⟨1⟩], arity := rfl }]

/-- A pair under a name, and under the same name a node that is not there. -/
def pairAndUnknown (pair : NodeId) : Value := .map ⟨[("a", .node pair), ("a", .node ⟨9⟩)]⟩

theorem deepEq_is_equality_of_unfoldings_pairs :
    pairs.deepEq (pairAndUnknown ⟨2⟩) (pairAndUnknown ⟨3⟩) = true ∧
    (∃! u, pairs.Unfolds (pairAndUnknown ⟨3⟩) u) ∧
    pairs.deepEq (pairAndUnknown ⟨3⟩) (pairAndUnknown ⟨2⟩) = true ∧
    pairs.deepEq (pairAndUnknown ⟨2⟩) (pairAndUnknown ⟨2⟩) = true ∧
    pairs.deepEq (.node ⟨2⟩) (.node ⟨9⟩) = false ∧ pairs.deepEq (.null) (.node ⟨2⟩) = false := by
  have hd : pairs.Descending := by decide
  have hg : ∀ v, pairs.Grounded v := fun _ _ _ h => Nat.lt_irrefl _ (hd.lt_of_below h)
  obtain ⟨hone, hiff, -, hsymm, htrans, hknown⟩ := deepEq_is_equality_of_unfoldings pairs
  have hpair : pairs.Unfolds (.node ⟨2⟩) _ := unfolds_unfolding (hg _)
  have hpair' : pairs.Unfolds (.node ⟨3⟩) (pairs.unfolding (.node ⟨2⟩)) :=
    unfolds_unfolding (hg _)
  have hunknown : pairs.Unfolds (.node ⟨9⟩) (.unknown ⟨9⟩) := .unknown rfl
  have hab := (hiff (pairAndUnknown ⟨2⟩) (pairAndUnknown ⟨3⟩) (hg _) (hg _)).mpr
    ⟨_, .map (.cons hpair (.cons hunknown .nil)), .map (.cons hpair' (.cons hunknown .nil))⟩
  have hba := hsymm _ _ (hg _) (hg _) hab
  refine ⟨hab, hone _ (hg _), hba, htrans _ _ _ (hg _) (hg _) (hg _) hab hba, ?_, ?_⟩
  · exact (hknown ⟨2⟩ _ (.node ⟨9⟩) rfl fun y hy => by cases hy; rfl).1
  · exact (hknown ⟨2⟩ _ .null rfl nofun).2

end Tree

end Trellis
