import Trellis.Proofs.Outline

/-!
# Stepping follows pre-order

`Tree.increment` and `Tree.decrement` know nothing but a path: they look the way to it up again at
every call. At a position of the outline, the one leads to the position listed next and the other
to the position listed before. The two main results read this off for whole walks: stepping from
the empty path goes through what the pre-order cursor hands out, and the two steps undo each other.

All statements are about values from which every way down ends and no name repeats.
-/

namespace Trellis

namespace Tree

variable {t : Tree} {mode : Expansion} {v : Value} {c : Children}

/-! ## The children of one value -/

section Level

variable {earlier later : List (Key × Value)} {k : Key} {w : Value}

theorem child_of_split (hc : t.expand? .unrestricted v = some c) (hd : c.Distinct)
    (h : c.entries = earlier ++ (k, w) :: later) (path : Path) : t.child v path k = .ok w := by
  simp [child, hc, Children.child?_of_split hd h]

theorem lateral_of_expand? (hc : t.expand? .unrestricted v = some c) (path : Path) :
    t.lateral v path = .ok c := by
  simp [lateral, hc]

end Level

/-! ## Looking up -/

/-- One level of looking up, below the children of `v`. -/
theorem resolveFrom_entries {depth : Nat} {p : Path} {x : Value}
    (hc : t.expand? .unrestricted v = some c) (hd : c.Distinct)
    (below : ∀ e ∈ c.entries, ∀ (path : Path) {q : Path}, (q, x) ∈ t.outline mode depth e.2 →
      t.resolveFrom e.2 path q = .ok x)
    (h : (p, x) ∈ t.outlineEntries mode depth c.entries) (path : Path) :
    t.resolveFrom v path p = .ok x := by
  obtain ⟨k, w, q, he, rfl, hx⟩ := mem_outlineEntries h
  obtain ⟨earlier, later, hs⟩ := List.append_of_mem he
  simp only [resolveFrom, child_of_split hc hd hs path, bind, Except.bind]
  exact below (k, w) he (path ++ [k]) hx

/-- Every position of an outline resolves to the value listed with it. -/
theorem resolveFrom_outline {depth : Nat} (hw : t.Walkable v) {p : Path} {x : Value}
    (h : (p, x) ∈ t.outline mode depth v) (path : Path) : t.resolveFrom v path p = .ok x := by
  induction depth generalizing v p path with
  | zero =>
    simp only [outline, List.mem_singleton, Prod.mk.injEq] at h
    obtain ⟨rfl, rfl⟩ := h
    rfl
  | succ depth ih =>
    rw [outline_succ] at h
    rcases List.mem_cons.mp h with h | h
    · simp only [Prod.mk.injEq] at h
      obtain ⟨rfl, rfl⟩ := h
      rfl
    · cases hc : t.expand? mode v with
      | none => simp [entries, hc] at h
      | some c =>
        have hu := expand?_unrestricted hc
        simp only [entries, hc] at h
        refine resolveFrom_entries hu (hw.distinct.children hu) ?_ h path
        intro e he path q hq
        exact ih (hw.entry (mem_entries.mpr ⟨c, hu, he⟩)) hq path

/-! ## Forward -/

/-- One level of a step forward: below the children of `v`, the next position is the one listed
next, if this is so below each of them. -/
theorem incrementFrom_entries {depth : Nat} {before after : List (Path × Value)} {p : Path}
    {x : Value} (hc : t.expand? .unrestricted v = some c) (hd : c.Distinct)
    (below : ∀ e ∈ c.entries, ∀ (path : Path) {b a : List (Path × Value)} {q : Path},
      t.outline mode depth e.2 = b ++ (q, x) :: a →
      t.incrementFrom mode e.2 path q = .ok (a.head?.map fun y => path ++ y.1))
    (h : t.outlineEntries mode depth c.entries = before ++ (p, x) :: after) (path : Path) :
    t.incrementFrom mode v path p = .ok (after.head?.map fun y => path ++ y.1) := by
  obtain ⟨earlier, k, w, later, b, q, a, hs, rfl, ho, -, rfl⟩ := outlineEntries_split h
  have hchild := child_of_split hc hd hs path
  have hin := below (k, w) (by simp [hs]) (path ++ [k]) ho
  cases a with
  | nil =>
    -- Nothing follows below `k`, so the step goes along to the next key of this level.
    simp only [incrementFrom, hchild, hin, lateral_of_expand? hc, bind, Except.bind, pure,
      Except.pure, List.head?_nil, Option.map_none, under_nil, List.nil_append,
      head?_outlineEntries, Children.nextKey?_of_split hd hs, Option.map_map]
    rfl
  | cons y a =>
    simp [incrementFrom, hchild, hin, bind, Except.bind, pure, Except.pure, under]

/-- A step forward from a position leads to the position listed next. -/
theorem incrementFrom_outline {depth : Nat} (hw : t.Walkable v) (hs : t.span v ≤ depth)
    {before after : List (Path × Value)} {p : Path} {x : Value}
    (h : t.outline mode depth v = before ++ (p, x) :: after) (path : Path) :
    t.incrementFrom mode v path p = .ok (after.head?.map fun y => path ++ y.1) := by
  induction depth generalizing v before after p path with
  | zero =>
    have := t.span_pos v
    omega
  | succ depth ih =>
    rw [outline_succ] at h
    cases before with
    | nil =>
      simp only [List.nil_append, List.cons.injEq, Prod.mk.injEq] at h
      obtain ⟨⟨rfl, rfl⟩, rfl⟩ := h
      simp only [incrementFrom, head?_outlineEntries, entries]
      cases t.expand? mode v with
      | none => rfl
      | some c => simp [Children.firstKey?_eq, Function.comp_def]
    | cons y before =>
      simp only [List.cons_append, List.cons.injEq] at h
      obtain ⟨-, h⟩ := h
      cases hc : t.expand? mode v with
      | none => simp [entries, hc] at h
      | some c =>
        have hu := expand?_unrestricted hc
        have hent : t.entries mode v = c.entries := by simp [entries, hc]
        rw [hent] at h
        refine incrementFrom_entries hu (hw.distinct.children hu) ?_ h path
        intro e he path b a q ho
        have hm : e ∈ t.entries .unrestricted v := mem_entries.mpr ⟨c, hu, he⟩
        have := hw.grounded.span_lt hm
        exact ih (hw.entry hm) (by omega) ho path

/-! ## Backward -/

/-- Going down along last children ends at the last position of the outline. -/
theorem lastBelow_outline {depth fuel : Nat} (hw : t.Walkable v) (hs : t.span v ≤ depth)
    (hf : t.span v ≤ fuel) {before : List (Path × Value)} {p : Path} {x : Value}
    (h : t.outline mode depth v = before ++ [(p, x)]) (path : Path) :
    t.lastBelow mode fuel v path = .ok (path ++ p) := by
  induction depth generalizing v fuel before p path with
  | zero =>
    have := t.span_pos v
    omega
  | succ depth ih =>
    obtain ⟨fuel, rfl⟩ : ∃ f, fuel = f + 1 := ⟨fuel - 1, by have := t.span_pos v; omega⟩
    rw [outline_succ] at h
    cases before with
    | nil =>
      simp only [List.nil_append, List.cons.injEq, Prod.mk.injEq] at h
      obtain ⟨⟨rfl, rfl⟩, hnil⟩ := h
      have hnone : (t.expand? mode v).bind Children.lastKey? = none := by
        have he := outlineEntries_eq_nil hnil
        cases hc : t.expand? mode v with
        | none => rfl
        | some c =>
          simp only [entries, hc] at he
          simp [Children.lastKey?_eq, he]
      simp [lastBelow, hnone]
    | cons y before =>
      simp only [List.cons_append, List.cons.injEq] at h
      obtain ⟨-, h⟩ := h
      cases hc : t.expand? mode v with
      | none => simp [entries, hc] at h
      | some c =>
        have hu := expand?_unrestricted hc
        have hd := hw.distinct.children hu
        simp only [entries, hc] at h
        obtain ⟨earlier, k, w, later, b, q, a, hs', rfl, ho, -, hafter⟩ := outlineEntries_split h
        obtain ⟨ha, hl⟩ := List.append_eq_nil_iff.mp hafter.symm
        obtain rfl : a = [] := List.map_eq_nil_iff.mp ha
        obtain rfl : later = [] := outlineEntries_eq_nil hl
        have hm : (k, w) ∈ t.entries .unrestricted v := mem_entries.mpr ⟨c, hu, by simp [hs']⟩
        have hlt := hw.grounded.span_lt hm
        have hlast : c.lastKey? = some k := by simp [Children.lastKey?_eq, hs']
        have hfuel : t.span w ≤ fuel := by simp at hlt; omega
        have hrest := ih (hw.entry hm) (by simp at hlt ⊢; omega) hfuel ho (path ++ [k])
        simp only [lastBelow, hc, Option.bind_some, hlast, child_of_split hu hd hs' path, bind,
          Except.bind, hrest]
        simp

/-- One level of a step back: below the children of `v`, the position before is the one listed
before, and before the first of them comes `v` itself. -/
theorem decrementFrom_entries {depth : Nat} (hw : t.Walkable v)
    {before after : List (Path × Value)} {p : Path} {x : Value}
    (hc : t.expand? .unrestricted v = some c) (hs : t.span v ≤ depth + 1)
    (below : ∀ e ∈ c.entries, ∀ (path : Path) {b a : List (Path × Value)} {q : Path},
      t.outline mode depth e.2 = b ++ (q, x) :: a →
      t.decrementFrom mode e.2 path q = .ok (b.getLast?.map fun y => path ++ y.1))
    (h : t.outlineEntries mode depth c.entries = before ++ (p, x) :: after) (path : Path) :
    t.decrementFrom mode v path p =
      .ok ((([], v) :: before).getLast?.map fun y => path ++ y.1) := by
  have hd := hw.distinct.children hc
  obtain ⟨earlier, k, w, later, b, q, a, hsplit, rfl, ho, rfl, -⟩ := outlineEntries_split h
  have hchild := child_of_split hc hd hsplit path
  have hm : ∀ e ∈ c.entries, e ∈ t.entries .unrestricted v :=
    fun e he => mem_entries.mpr ⟨c, hc, he⟩
  cases b with
  | nil =>
    -- `k` itself: the step goes to the key before it and from there all the way down.
    obtain ⟨rest, hrest⟩ := t.outline_eq_cons mode depth w
    obtain ⟨rfl, -⟩ : q = [] ∧ x = w := by
      have := hrest.symm.trans ho
      simp only [List.nil_append, List.cons.injEq, Prod.mk.injEq] at this
      exact ⟨this.1.1.symm, this.1.2.symm⟩
    have hprev := Children.prevKey?_of_split hd hsplit
    rcases List.eq_nil_or_concat earlier with rfl | ⟨earlier', ⟨k', w'⟩, rfl⟩
    · simp [decrementFrom, hchild, lateral_of_expand? hc, hprev, bind, Except.bind, pure,
        Except.pure]
    · have hsplit' : c.entries = earlier' ++ (k', w') :: ((k, w) :: later) := by simp [hsplit]
      have hm' := hm (k', w') (by simp [hsplit'])
      have hlt := hw.grounded.span_lt hm'
      obtain ⟨b', ⟨p', x'⟩, hl⟩ :=
        (List.eq_nil_or_concat _).resolve_left (t.outline_ne_nil mode depth w')
      rw [List.concat_eq_append] at hl
      have hspan : t.span w' ≤ depth := by simp at hlt; omega
      have hlast := lastBelow_outline (hw.entry hm') hspan (t.span_le_reach w') hl (path ++ [k'])
      have hget : (([], v) :: (t.outlineEntries mode depth (earlier'.concat (k', w')) ++
          under k [])).getLast? = some (k' :: p', x') := by
        simp [hl, under, List.getLast?_cons, List.getLast?_append]
      rw [hget]
      simp [decrementFrom, hchild, lateral_of_expand? hc, hprev, child_of_split hc hd hsplit' path,
        hlast, bind, Except.bind, pure, Except.pure]
  | cons y b =>
    obtain ⟨k', q', rfl⟩ : ∃ k' q', q = k' :: q' := by
      cases depth with
      | zero => simp [outline] at ho
      | succ depth =>
        rw [outline_succ] at ho
        simp only [List.cons_append, List.cons.injEq] at ho
        have hx : (q, x) ∈ t.outlineEntries mode depth (t.entries mode w) := by simp [ho.2]
        obtain ⟨k', _, q', -, hq, -⟩ := mem_outlineEntries hx
        exact ⟨k', q', hq⟩
    have hin := below (k, w) (by simp [hsplit]) (path ++ [k]) ho
    simp only [decrementFrom, hchild, bind, Except.bind, hin]
    simp [under, List.getLast?_cons, List.getLast?_append]

/-- A step back from a position leads to the position listed before. -/
theorem decrementFrom_outline {depth : Nat} (hw : t.Walkable v) (hs : t.span v ≤ depth)
    {before after : List (Path × Value)} {p : Path} {x : Value}
    (h : t.outline mode depth v = before ++ (p, x) :: after) (path : Path) :
    t.decrementFrom mode v path p = .ok (before.getLast?.map fun y => path ++ y.1) := by
  induction depth generalizing v before after p path with
  | zero =>
    have := t.span_pos v
    omega
  | succ depth ih =>
    rw [outline_succ] at h
    cases before with
    | nil =>
      simp only [List.nil_append, List.cons.injEq, Prod.mk.injEq] at h
      obtain ⟨⟨rfl, -⟩, -⟩ := h
      rfl
    | cons y before =>
      simp only [List.cons_append, List.cons.injEq] at h
      obtain ⟨rfl, h⟩ := h
      cases hc : t.expand? mode v with
      | none => simp [entries, hc] at h
      | some c =>
        have hu := expand?_unrestricted hc
        simp only [entries, hc] at h
        refine decrementFrom_entries hw hu hs ?_ h path
        intro e he path b a q ho
        have hm : e ∈ t.entries .unrestricted v := mem_entries.mpr ⟨c, hu, he⟩
        have := hw.grounded.span_lt hm
        exact ih (hw.entry hm) (by omega) ho path

/-! ## Whole walks -/

/-- The position after a number of steps forward from the empty path; `none` from the step on that
finds nothing more. -/
def positionAfter (t : Tree) (root : Value) (mode : Expansion) :
    Nat → Except TreeError (Option Path)
  | 0 => .ok (some [])
  | i + 1 => do
    match ← t.positionAfter root mode i with
    | none => return none
    | some p => t.increment root p mode

/-- All positions of a walkable root in pre-order. -/
def listing (t : Tree) (root : Value) (mode : Expansion) : List (Path × Value) :=
  t.outline mode (t.reach root) root

section Walk

variable {root : Value} {before after : List (Path × Value)} {p : Path} {x : Value}

theorem increment_of_split (hw : t.Walkable root)
    (h : t.listing root mode = before ++ (p, x) :: after) :
    t.increment root p mode = .ok (after.head?.map (·.1)) := by
  simpa [increment] using incrementFrom_outline hw (t.span_le_reach root) h []

theorem decrement_of_split (hw : t.Walkable root)
    (h : t.listing root mode = before ++ (p, x) :: after) :
    t.decrement root p mode = .ok (before.getLast?.map (·.1)) := by
  simpa [decrement] using decrementFrom_outline hw (t.span_le_reach root) h []

theorem resolve_of_mem_listing (hw : t.Walkable root) (h : (p, x) ∈ t.listing root mode) :
    t.resolve root p = .ok x :=
  resolveFrom_outline hw h []

theorem preorderWithPaths_eq_take (hw : t.Walkable root) (limit : Nat) :
    t.preorderWithPaths root mode limit = (t.listing root mode).take limit :=
  (yields_listing hw.grounded (t.span_le_reach root)).takeFrom_eq limit

theorem head?_listing (t : Tree) (root : Value) (mode : Expansion) :
    (t.listing root mode).head? = some ([], root) := by
  obtain ⟨rest, h⟩ := t.outline_eq_cons mode (t.reach root) root
  simp [listing, h]

theorem split_of_getElem? {α : Type} {l : List α} {i : Nat} {a : α} (h : l[i]? = some a) :
    l = l.take i ++ a :: l.drop (i + 1) := by
  obtain ⟨hi, rfl⟩ := List.getElem?_eq_some_iff.mp h
  rw [← List.drop_eq_getElem_cons hi, List.take_append_drop]

theorem increment_getElem? (hw : t.Walkable root) {i : Nat}
    (h : (t.listing root mode)[i]? = some (p, x)) :
    t.increment root p mode = .ok ((t.listing root mode)[i + 1]?.map (·.1)) := by
  rw [increment_of_split hw (split_of_getElem? h), List.head?_drop]

theorem positionAfter_eq (hw : t.Walkable root) (i : Nat) :
    t.positionAfter root mode i = .ok ((t.listing root mode)[i]?.map (·.1)) := by
  induction i with
  | zero => rw [← List.head?_eq_getElem?, head?_listing]; rfl
  | succ i ih =>
    rw [positionAfter, ih]
    cases h : (t.listing root mode)[i]? with
    | none =>
      have hlen := List.getElem?_eq_none_iff.mp h
      have hnext : (t.listing root mode)[i + 1]? = none :=
        List.getElem?_eq_none_iff.mpr (by omega)
      simp [hnext, bind, Except.bind, pure, Except.pure]
    | some y => exact increment_getElem? hw h

end Walk

/-- Stepping forward from the empty path goes through pre-order: it never fails, it ends, and its
positions are, one by one, those that the cursor with paths hands out. A position has no successor
just when it is the last, and looking it up gives the value that both cursors hand out with it. -/
theorem positionAfter_steps_through_preorder (t : Tree) (root : Value) (mode : Expansion)
    (hw : t.Walkable root) :
    ∃ listed : List (Path × Value),
      Yields (t.pathsNext? mode) [([], root)] listed ∧
      Yields (t.preorderNext? mode) [root] (listed.map (·.2)) ∧
      (∀ i, t.positionAfter root mode i = .ok (listed[i]?.map (·.1))) ∧
      ∀ i p v, listed[i]? = some (p, v) →
        t.increment root p mode = .ok (listed[i + 1]?.map (·.1)) ∧
        t.isLast root p mode = .ok (decide (i + 1 = listed.length)) ∧
        t.resolve root p = .ok v := by
  have hy : Yields (t.pathsNext? mode) [([], root)] (t.listing root mode) :=
    yields_listing hw.grounded (t.span_le_reach root)
  refine ⟨t.listing root mode, hy, yields_values hy, positionAfter_eq hw, ?_⟩
  intro i p v h
  have hinc := increment_getElem? hw h
  refine ⟨hinc, ?_, resolve_of_mem_listing hw (List.mem_of_getElem? h)⟩
  have hi := (List.getElem?_eq_some_iff.mp h).1
  by_cases hlast : i + 1 = (t.listing root mode).length
  · simp [isLast, hinc, hlast, bind, Except.bind, pure, Except.pure]
  · have hlt : i + 1 < (t.listing root mode).length := by omega
    simp [isLast, hinc, hlt, hlast, bind, Except.bind, pure, Except.pure]

/-- A pair that holds a leaf inside a list and shares it with a map. -/
def shared : Tree where
  nodes := #[
    { kind := ⟨"Leaf", ["value"]⟩, fields := [.int 1], arity := rfl },
    { kind := ⟨"Pair", ["first", "second"]⟩,
      fields := [.list [.node ⟨0⟩, .list []], .map ⟨[("a", .node ⟨0⟩), ("b", .null)]⟩],
      arity := rfl }]

theorem positionAfter_steps_through_shared :
    shared.Walkable (.node ⟨1⟩) ∧ ∃ listed : List (Path × Value),
      Yields (shared.pathsNext? .unrestricted) [([], .node ⟨1⟩)] listed ∧
      Yields (shared.preorderNext? .unrestricted) [.node ⟨1⟩] (listed.map (·.2)) ∧
      (∀ i, shared.positionAfter (.node ⟨1⟩) .unrestricted i = .ok (listed[i]?.map (·.1))) ∧
      ∀ i p v, listed[i]? = some (p, v) →
        shared.increment (.node ⟨1⟩) p .unrestricted = .ok (listed[i + 1]?.map (·.1)) ∧
        shared.isLast (.node ⟨1⟩) p .unrestricted = .ok (decide (i + 1 = listed.length)) ∧
        shared.resolve (.node ⟨1⟩) p = .ok v := by
  have hd : shared.Descending := by decide
  have hw : shared.Walkable (.node ⟨1⟩) := hd.walkable trivial
  exact ⟨hw, positionAfter_steps_through_preorder shared (.node ⟨1⟩) .unrestricted hw⟩

/-- Stepping forward and stepping back undo each other at every position that the cursor hands
out, neither of them fails there, and only the empty path has nothing before it. -/
theorem increment_decrement_inverse (t : Tree) (root : Value) (mode : Expansion)
    (hw : t.Walkable root) (limit : Nat) (p : Path) (v : Value)
    (hp : (p, v) ∈ t.preorderWithPaths root mode limit) :
    (∃ r, t.increment root p mode = .ok r) ∧ (∃ r, t.decrement root p mode = .ok r) ∧
    (∀ q, t.increment root p mode = .ok (some q) → t.decrement root q mode = .ok (some p)) ∧
    (∀ q, t.decrement root p mode = .ok (some q) → t.increment root q mode = .ok (some p)) ∧
    (t.decrement root p mode = .ok none ↔ p = []) := by
  rw [preorderWithPaths_eq_take hw] at hp
  obtain ⟨before, after, h⟩ := List.append_of_mem (List.mem_of_mem_take hp)
  have hinc := increment_of_split hw h
  have hdec := decrement_of_split hw h
  refine ⟨⟨_, hinc⟩, ⟨_, hdec⟩, ?_, ?_, ?_⟩
  · intro q hq
    cases after with
    | nil => simp [hinc] at hq
    | cons y after =>
      obtain rfl : y.1 = q := by simpa [hinc] using hq
      have h' : t.listing root mode = (before ++ [(p, v)]) ++ (y.1, y.2) :: after := by simp [h]
      simpa using decrement_of_split hw h'
  · intro q hq
    rcases List.eq_nil_or_concat before with rfl | ⟨before, y, rfl⟩
    · simp [hdec] at hq
    · obtain rfl : y.1 = q := by simpa [hdec] using hq
      have h' : t.listing root mode = before ++ (y.1, y.2) :: (p, v) :: after := by simp [h]
      simpa using increment_of_split hw h'
  · constructor
    · intro hnone
      have hnil : before = [] := by simpa [hdec] using hnone
      have hhead := t.head?_listing root mode
      rw [h, hnil] at hhead
      simp only [List.nil_append, List.head?_cons, Option.some.injEq, Prod.mk.injEq] at hhead
      exact hhead.1
    · rintro rfl
      rfl

/-- From inside the list of the first field, the step forward climbs two levels. -/
theorem increment_decrement_inverse_shared :
    shared.Walkable (.node ⟨1⟩) ∧
    shared.increment (.node ⟨1⟩) [.name "first", .index 1] .unrestricted =
      .ok (some [.name "second"]) ∧
    shared.decrement (.node ⟨1⟩) [.name "second"] .unrestricted =
      .ok (some [.name "first", .index 1]) := by
  have hd : shared.Descending := by decide
  have hw : shared.Walkable (.node ⟨1⟩) := hd.walkable trivial
  have hinc : shared.increment (.node ⟨1⟩) [.name "first", .index 1] .unrestricted =
      .ok (some [.name "second"]) := by decide
  have hp : ([.name "first", .index 1], .list []) ∈
      shared.preorderWithPaths (.node ⟨1⟩) .unrestricted 8 := by decide
  exact ⟨hw, hinc,
    (increment_decrement_inverse shared (.node ⟨1⟩) .unrestricted hw 8 _ _ hp).2.2.1 _ hinc⟩

end Tree

end Trellis
