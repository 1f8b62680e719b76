import Trellis.Proofs.Composition
import Mathlib.Data.List.Perm.Basic

/-!
# Post-order and breadth-first

Both orders list the positions of a value that pre-order lists. Post-order is given by recursion: the
children one after another, each by its own post-order, and then the value. Its cursor can be stopped
after every value, so its stack holds values whose children have been visited in part; `Tree.owed`
says what such a value still has to hand out.

Breadth-first goes down layer by layer. Its queue holds the rest of one layer and the beginning of the
next, and the layer at a depth is what pre-order lists with paths of this length.

Nodes may be shared or unknown and names may repeat. All that is asked is that nothing below
the start lies below itself.
-/

namespace Trellis

namespace Tree

variable {t : Tree} {mode : Expansion} {v start : Value}

/-! ## Post-order by recursion -/

/-- The positions of a value in post-order, down to a depth. -/
def postOutline (t : Tree) (mode : Expansion) : Nat → Value → List Value
  | 0, v => [v]
  | depth + 1, v => ((t.entries mode v).flatMap fun e => t.postOutline mode depth e.2) ++ [v]

/-- Going deeper than there is anything below changes nothing. -/
theorem postOutline_stable {depth depth' : Nat} (hg : t.Grounded v) (hd : t.span v ≤ depth)
    (hd' : t.span v ≤ depth') : t.postOutline mode depth v = t.postOutline mode depth' v := by
  have hpos := t.span_pos v
  induction depth generalizing v depth' with
  | zero => omega
  | succ depth ih =>
    obtain ⟨depth', rfl⟩ : ∃ d, depth' = d + 1 := ⟨depth' - 1, by omega⟩
    rw [postOutline, postOutline]
    congr 1
    refine List.flatMap_congr fun e he => ?_
    have hu := mem_entries_unrestricted he
    have hlt := hg.span_lt hu
    exact ih (hg.entry hu) (by omega) (by omega) (t.span_pos e.2)

/-- All positions of a value in post-order. -/
def postListing (t : Tree) (mode : Expansion) (v : Value) : List Value :=
  t.postOutline mode (t.reach v) v

/-- The post-order of a value is that of its children, one after another, and then the value. -/
theorem postListing_eq (hg : t.Grounded v) : t.postListing mode v =
    ((t.entries mode v).flatMap fun e => t.postListing mode e.2) ++ [v] := by
  have hpos := t.span_pos v
  have hreach := t.span_le_reach v
  obtain ⟨depth, hdepth⟩ : ∃ d, t.reach v = d + 1 := ⟨t.reach v - 1, by omega⟩
  rw [postListing, hdepth, postOutline]
  congr 1
  refine List.flatMap_congr fun e he => ?_
  have hu := mem_entries_unrestricted he
  have hlt := hg.span_lt hu
  exact postOutline_stable (hg.entry hu) (by omega) (t.span_le_reach e.2)

/-- Post-order lists what pre-order lists. -/
theorem postOutline_perm (t : Tree) (mode : Expansion) (depth : Nat) (v : Value) :
    (t.postOutline mode depth v).Perm ((t.outline mode depth v).map (·.2)) := by
  induction depth generalizing v with
  | zero => exact .refl _
  | succ depth ih =>
    have hbelow : (t.outlineEntries mode depth (t.entries mode v)).map (·.2) =
        (t.entries mode v).flatMap fun e => (t.outline mode depth e.2).map (·.2) := by
      simp [outlineEntries, under, List.map_flatMap, Function.comp_def]
    rw [postOutline, outline_succ, List.map_cons, hbelow]
    refine (List.perm_append_singleton _ _).trans (.cons v ?_)
    exact List.Perm.flatMap_left _ fun e _ => ih e.2

/-! ## What the post-order cursor owes -/

/-- What a value on the way down still has to hand out: the post-order of the children that have not
been entered, and then the value itself. -/
def owed (t : Tree) (mode : Expansion) (f : Frame) : List Value :=
  f.pending.flatMap (t.postListing mode) ++ [f.value]

/-- A value that has just been entered owes its whole post-order. -/
theorem owed_frame (hg : t.Grounded v) : t.owed mode (t.frame mode v) = t.postListing mode v := by
  rw [postListing_eq hg, owed, frame, List.flatMap_map]

/-- Every way down from a pending child ends within `fuel` steps. -/
def Ready (t : Tree) (fuel : Nat) (f : Frame) : Prop :=
  ∀ c ∈ f.pending, t.Grounded c ∧ t.span c < fuel

theorem ready_frame (mode : Expansion) {fuel : Nat} (hg : t.Grounded v) (hs : t.span v ≤ fuel) :
    t.Ready fuel (t.frame mode v) := by
  intro c hc
  obtain ⟨e, he, rfl⟩ := List.mem_map.mp hc
  have hu := mem_entries_unrestricted he
  have hlt := hg.span_lt hu
  exact ⟨hg.entry hu, by omega⟩

/-- One call of the cursor goes down from the value on top to the first one that has no pending
child, hands it out, and leaves on the stack what the value on top still owes. -/
theorem postorderNext?_ready (mode : Expansion) {fuel : Nat} (hf : 0 < fuel) {top : Frame}
    (h : t.Ready fuel top) (stack : List Frame) : ∃ x frames,
      t.postorderNext? mode fuel (top :: stack) = some (x, frames ++ stack) ∧
      t.owed mode top = x :: frames.flatMap (t.owed mode) ∧ ∀ f ∈ frames, t.Ready fuel f := by
  induction fuel generalizing top stack with
  | zero => omega
  | succ fuel ih =>
    cases hp : top.pending with
    | nil => exact ⟨top.value, [], by simp [postorderNext?, hp], by simp [owed, hp], by simp⟩
    | cons c rest =>
      obtain ⟨hg, hs⟩ := h c (by simp [hp])
      have hpos := t.span_pos c
      -- The rest of the children waits below the child that is entered.
      let left : Frame := { top with pending := rest }
      obtain ⟨x, frames, hnext, howed, hready⟩ :=
        ih (by omega) (ready_frame mode hg (by omega)) (left :: stack)
      refine ⟨x, frames ++ [left], ?_, ?_, ?_⟩
      · simpa [postorderNext?, hp] using hnext
      · have hsplit : t.owed mode top = t.postListing mode c ++ t.owed mode left := by
          simp [owed, hp, left]
        rw [hsplit, ← owed_frame hg, howed]
        simp
      · intro f hf
        rcases List.mem_append.mp hf with hf | hf
        · intro d hd
          obtain ⟨hgd, hsd⟩ := hready f hf d hd
          exact ⟨hgd, by omega⟩
        · obtain rfl := List.mem_singleton.mp hf
          intro d hd
          exact h d (by simp [hp, show d ∈ rest from hd])

/-- From any stack the cursor hands out what the values on it owe, from the top down. -/
theorem yields_owed (mode : Expansion) {fuel : Nat} (hf : 0 < fuel) {stack : List Frame}
    (h : ∀ f ∈ stack, t.Ready fuel f) :
    Yields (t.postorderNext? mode fuel) stack (stack.flatMap (t.owed mode)) := by
  induction hn : (stack.flatMap (t.owed mode)).length generalizing stack with
  | zero =>
    cases stack with
    | nil =>
      obtain ⟨fuel, rfl⟩ : ∃ k, fuel = k + 1 := ⟨fuel - 1, by omega⟩
      exact .done rfl
    | cons top stack => simp [owed] at hn
  | succ n ih =>
    cases stack with
    | nil => simp at hn
    | cons top stack =>
      obtain ⟨x, frames, hnext, howed, hready⟩ :=
        postorderNext?_ready mode hf (h top (by simp)) stack
      have hsplit : (top :: stack).flatMap (t.owed mode) =
          x :: (frames ++ stack).flatMap (t.owed mode) := by
        simp [howed]
      rw [hsplit] at hn ⊢
      refine .item hnext (ih ?_ (by simpa using hn))
      intro f hf
      rcases List.mem_append.mp hf with hf | hf
      · exact hready f hf
      · exact h f (List.mem_cons_of_mem _ hf)

/-- The cursor hands out the post-order of the value it starts from, which is the one given by
recursion, and these are the values that pre-order hands out, in another order. A larger budget for
going down makes no difference. -/
theorem postorder_is_recursive (t : Tree) (mode : Expansion) (hg : t.Grounded start) :
    (∀ v, t.Grounded v → t.postListing mode v =
      ((t.entries mode v).flatMap fun e => t.postListing mode e.2) ++ [v]) ∧
    (∀ fuel, t.reach start < fuel →
      Yields (t.postorderNext? mode fuel) [t.frame mode start] (t.postListing mode start)) ∧
    (∀ limit, t.postorder start mode limit = (t.postListing mode start).take limit) ∧
    Yields (t.preorderNext? mode) [start] ((t.listing start mode).map (·.2)) ∧
    (t.postListing mode start).Perm ((t.listing start mode).map (·.2)) := by
  have hreach := t.span_le_reach start
  have hyields : ∀ fuel, t.reach start < fuel →
      Yields (t.postorderNext? mode fuel) [t.frame mode start] (t.postListing mode start) := by
    intro fuel hfuel
    have hready : ∀ f ∈ [t.frame mode start], t.Ready fuel f := by
      intro f hf
      rw [List.mem_singleton.mp hf]
      exact ready_frame mode hg (by omega)
    have h := yields_owed mode (by omega) hready
    rwa [List.flatMap_singleton, owed_frame hg] at h
  refine ⟨fun v hv => postListing_eq hv, hyields, ?_, ?_, ?_⟩
  · exact (hyields _ (Nat.lt_succ_self _)).takeFrom_eq
  · exact yields_values (yields_listing hg hreach)
  · exact t.postOutline_perm mode _ start

/-- The name that occurs twice is gone down from twice, and the unknown node is a leaf. -/
theorem postorder_is_recursive_repeatedName : repeatedName.Grounded (.node ⟨1⟩) ∧
    Yields (repeatedName.postorderNext? .unrestricted 20)
      [repeatedName.frame .unrestricted (.node ⟨1⟩)]
      [.node ⟨9⟩, .node ⟨0⟩, .null, .node ⟨9⟩, .node ⟨0⟩, .list [.null, .node ⟨0⟩],
        .map ⟨[("a", .node ⟨0⟩), ("a", .list [.null, .node ⟨0⟩])]⟩, .node ⟨9⟩, .node ⟨1⟩] := by
  have hg : repeatedName.Grounded (.node ⟨1⟩) :=
    grounded_of_rank (fun x => if x.number < 2 then x.number + 1 else 0) (by decide) _
  exact ⟨hg, (postorder_is_recursive repeatedName .unrestricted hg).2.1 20 (by decide)⟩

/-! ## Layers -/

/-- The values at a depth below a value, from left to right. -/
def layer (t : Tree) (mode : Expansion) : Nat → Value → List Value
  | 0, v => [v]
  | depth + 1, v => (t.entries mode v).flatMap fun e => t.layer mode depth e.2

/-- One layer further down seen from some values is the same layer seen from their children. -/
theorem flatMap_layer_succ (t : Tree) (mode : Expansion) (depth : Nat) (vs : List Value) :
    vs.flatMap (t.layer mode (depth + 1)) =
      (vs.flatMap fun v => (t.entries mode v).map (·.2)).flatMap (t.layer mode depth) := by
  rw [List.flatMap_assoc]
  refine List.flatMap_congr fun v _ => ?_
  rw [layer, List.flatMap_map]

/-- Layers end where everything below has been counted. -/
theorem layer_eq_nil (mode : Expansion) {depth : Nat} (hg : t.Grounded v)
    (hs : t.span v ≤ depth) : t.layer mode depth v = [] := by
  induction depth generalizing v with
  | zero =>
    have := t.span_pos v
    omega
  | succ depth ih =>
    rw [layer, List.flatMap_eq_nil_iff]
    intro e he
    have hu := mem_entries_unrestricted he
    have hlt := hg.span_lt hu
    exact ih (hg.entry hu) (by omega)

/-- At a depth, pre-order lists the layer there. -/
theorem filter_outline {depth : Nat} (hg : t.Grounded v) (hs : t.span v ≤ depth) (d : Nat) :
    ((t.outline mode depth v).filter fun x => x.1.length = d).map (·.2) = t.layer mode d v := by
  induction depth generalizing v d with
  | zero =>
    have := t.span_pos v
    omega
  | succ depth ih =>
    rw [outline_succ]
    cases d with
    | zero =>
      have hbelow : (t.outlineEntries mode depth (t.entries mode v)).filter
          (fun x => x.1.length = 0) = [] := by
        rw [List.filter_eq_nil_iff]
        rintro ⟨p, x⟩ hx
        obtain ⟨k, w, q, -, rfl, -⟩ := mem_outlineEntries hx
        simp
      rw [List.filter_cons_of_pos (by simp), hbelow]
      rfl
    | succ d =>
      have hunder : ∀ e : Key × Value,
          ((under e.1 (t.outline mode depth e.2)).filter fun x => x.1.length = d + 1).map (·.2) =
            ((t.outline mode depth e.2).filter fun x => x.1.length = d).map (·.2) := by
        intro e
        simp [under, List.filter_map, Function.comp_def]
      rw [List.filter_cons_of_neg (by simp), outlineEntries, List.filter_flatMap, List.map_flatMap,
        layer]
      refine List.flatMap_congr fun e he => ?_
      have hu := mem_entries_unrestricted he
      have hlt := hg.span_lt hu
      rw [hunder, ih (hg.entry hu) (by omega)]

/-! ## What the breadth-first cursor hands out -/

/-- From a queue with the rest `vs` of a layer in front, the cursor hands `vs` out and has put their
children behind what else was there. -/
theorem yields_front (vs ws : List Value) {out : List Value}
    (h : Yields (t.breadthNext? mode) (ws ++ vs.flatMap fun v => (t.entries mode v).map (·.2)) out) :
    Yields (t.breadthNext? mode) (vs ++ ws) (vs ++ out) := by
  induction vs generalizing ws with
  | nil => simpa using h
  | cons v vs ih =>
    have hrest := ih (ws ++ (t.entries mode v).map (·.2)) (by simpa using h)
    rw [← List.append_assoc] at hrest
    exact .item rfl hrest

/-- From the values of one layer the cursor hands out this layer and those below it, up to one that
is empty. -/
theorem yields_layers {depth : Nat} {vs : List Value} (h : vs.flatMap (t.layer mode depth) = []) :
    Yields (t.breadthNext? mode) vs
      ((List.range depth).flatMap fun d => vs.flatMap (t.layer mode d)) := by
  have htop : vs.flatMap (t.layer mode 0) = vs := List.flatMap_singleton' vs
  induction depth generalizing vs with
  | zero =>
    rw [htop] at h
    rw [h]
    exact .done rfl
  | succ depth ih =>
    rw [flatMap_layer_succ] at h
    have hbelow := ih h (List.flatMap_singleton' _)
    rw [List.range_succ_eq_map, List.flatMap_cons, List.flatMap_map, htop]
    simp only [Nat.succ_eq_add_one, flatMap_layer_succ]
    simpa using yields_front vs [] (by simpa using hbelow)

/-- Positions sorted by depth: those with the shortest paths first, and those with paths of one length
in the order they had. Paths of length `depth` and more are left out. -/
def byDepth (depth : Nat) (listed : List (Path × Value)) : List Value :=
  (List.range depth).flatMap fun d => (listed.filter fun x => x.1.length = d).map (·.2)

/-- The breadth-first cursor hands out what the pre-order cursor hands out, sorted by depth. Any depth
that no path reaches will do, and there is one. -/
theorem breadth_first_is_preorder_by_depth (t : Tree) (mode : Expansion) (hg : t.Grounded start) :
    Yields (t.pathsNext? mode) [([], start)] (t.listing start mode) ∧
    (∀ x ∈ t.listing start mode, x.1.length < t.reach start) ∧
    ∀ depth, (∀ x ∈ t.listing start mode, x.1.length < depth) →
      Yields (t.breadthNext? mode) [start] (byDepth depth (t.listing start mode)) ∧
      ∀ limit, t.breadthFirst start mode limit =
        (byDepth depth (t.listing start mode)).take limit := by
  have hreach := t.span_le_reach start
  have hlayer : ∀ d, ((t.listing start mode).filter fun x => x.1.length = d).map (·.2) =
      t.layer mode d start := filter_outline hg hreach
  refine ⟨yields_listing hg hreach, ?_, ?_⟩
  · intro x hx
    by_contra hdeep
    have hnil : t.layer mode x.1.length start = [] := layer_eq_nil mode hg (by omega)
    rw [← hlayer, List.map_eq_nil_iff, List.filter_eq_nil_iff] at hnil
    exact hnil x hx (by simp)
  · intro depth hdepth
    have hempty : [start].flatMap (t.layer mode depth) = [] := by
      rw [List.flatMap_singleton, ← hlayer, List.map_eq_nil_iff, List.filter_eq_nil_iff]
      intro x hx hlength
      have := hdepth x hx
      simp only [decide_eq_true_eq] at hlength
      omega
    have hsorted : ((List.range depth).flatMap fun d => [start].flatMap (t.layer mode d)) =
        byDepth depth (t.listing start mode) := by
      refine List.flatMap_congr fun d _ => ?_
      rw [List.flatMap_singleton, hlayer]
    have hyields := yields_layers hempty
    rw [hsorted] at hyields
    exact ⟨hyields, hyields.takeFrom_eq⟩

/-- The unknown node beside the map comes last in pre-order. Here the map's entries and what they lead
to come after it. -/
theorem breadth_first_is_preorder_by_depth_repeatedName : repeatedName.Grounded (.node ⟨1⟩) ∧
    Yields (repeatedName.breadthNext? .unrestricted) [.node ⟨1⟩]
      [.node ⟨1⟩, .map ⟨[("a", .node ⟨0⟩), ("a", .list [.null, .node ⟨0⟩])]⟩, .node ⟨9⟩,
        .node ⟨0⟩, .list [.null, .node ⟨0⟩], .node ⟨9⟩, .null, .node ⟨0⟩, .node ⟨9⟩] := by
  have hg : repeatedName.Grounded (.node ⟨1⟩) :=
    grounded_of_rank (fun x => if x.number < 2 then x.number + 1 else 0) (by decide) _
  have h := breadth_first_is_preorder_by_depth repeatedName .unrestricted hg
  exact ⟨hg, (h.2.2 5 (by decide)).1⟩

end Tree

end Trellis
