import Trellis.Proofs.Removal
import Trellis.Proofs.Outcomes

/-!
# Removals commute

Which nodes a removal renumbers and which links it splices depends on the tree it finds, and two
removals find different trees in the two orders. What is left can still be said without looking at
the order: every value has lost the removed node, wherever it was; parents are kept; and the links
are joined around the node. Taking nodes out of values commutes, and so does joining links, because
links are known from both ends and the two neighbours of a node differ. The paths need no argument
of their own: in a well-linked tree they follow from the fields and the parents.
-/

namespace Trellis

/-! ## Values without a node -/

/-- Dropping and changing members in two ways commutes if neither change is seen by the
other test. -/
theorem filter_map_comm {α : Type} {f g : α → α} {p q : α → Bool} {l : List α}
    (hf : ∀ x, q (f x) = q x) (hg : ∀ x, p (g x) = p x) (hfg : ∀ x ∈ l, g (f x) = f (g x)) :
    (((l.filter p).map f).filter q).map g = (((l.filter q).map g).filter p).map f := by
  have hqf : q ∘ f = q := funext hf
  have hpg : p ∘ g = p := funext hg
  have hfilter : (l.filter p).filter q = (l.filter q).filter p := by
    rw [List.filter_filter, List.filter_filter]
    exact List.filter_congr fun x _ => Bool.and_comm _ _
  rw [List.filter_map, List.filter_map, hqf, hpg, hfilter, List.map_map, List.map_map]
  exact List.map_congr_left fun x hx => hfg x (List.mem_of_mem_filter (List.mem_of_mem_filter hx))

theorem filter_map_self {α : Type} {f : α → α} {p : α → Bool} {l : List α}
    (h : ∀ x ∈ l, p x = true ∧ f x = x) : (l.filter p).map f = l := by
  have hkept : l.filter p = l := List.filter_eq_self.mpr fun x hx => (h x hx).1
  rw [hkept]
  exact (List.map_congr_left fun x hx => (h x hx).2).trans (List.map_id l)

namespace Value

mutual

/-- A value once the entries that are the node `id` are taken out of its lists and maps, at every
depth. -/
def without (id : NodeId) : Value → Value
  | list items => list (withoutItems id items)
  | map ⟨entries⟩ => map ⟨withoutEntries id entries⟩
  | v => v

def withoutItems (id : NodeId) : List Value → List Value
  | [] => []
  | v :: rest =>
    if v = node id then withoutItems id rest else without id v :: withoutItems id rest

def withoutEntries (id : NodeId) : List (String × Value) → List (String × Value)
  | [] => []
  | (n, v) :: rest =>
    if v = node id then withoutEntries id rest else (n, without id v) :: withoutEntries id rest

end

variable {u u' v v' : Value} {id a b : NodeId} {keys : List Key} {last : Key}

theorem withoutItems_eq (id : NodeId) (items : List Value) :
    withoutItems id items = (items.filter (· ≠ node id)).map (without id) := by
  induction items with
  | nil => rfl
  | cons v rest ih => by_cases hv : v = node id <;> simp [withoutItems, hv, ih]

theorem withoutEntries_eq (id : NodeId) (entries : List (String × Value)) :
    withoutEntries id entries =
      (entries.filter (·.2 ≠ node id)).map fun e => (e.1, e.2.without id) := by
  induction entries with
  | nil => rfl
  | cons e rest ih => by_cases hv : e.2 = node id <;> simp [withoutEntries, hv, ih]

theorem without_leaf (h : v.isLeaf) (id : NodeId) : v.without id = v := by
  cases v <;> simp [isLeaf] at h <;> rfl

theorem without_eq_node : v.without a = node b ↔ v = node b := by
  cases v <;> simp [without]

/-- The order in which nodes are taken out does not matter. -/
theorem without_comm (a b : NodeId) (v : Value) :
    (v.without a).without b = (v.without b).without a := by
  induction v using induct with
  | leaf v hv => rw [without_leaf hv, without_leaf hv, without_leaf hv]
  | node id => rfl
  | list items ih =>
    simp only [without, withoutItems_eq, list.injEq]
    refine filter_map_comm (fun v => ?_) (fun v => ?_) ih
    · simp only [ne_eq, without_eq_node]
    · simp only [ne_eq, without_eq_node]
  | map d ih =>
    simp only [without, withoutEntries_eq, map.injEq, Dict.mk.injEq]
    refine filter_map_comm (fun e => ?_) (fun e => ?_) fun e he => Prod.ext rfl (ih e he)
    · simp only [ne_eq, without_eq_node]
    · simp only [ne_eq, without_eq_node]

theorem ne_node_of_not_mem (h : id ∉ v.held) : v ≠ node id := by
  rintro rfl
  simp at h

/-- A value that does not hold the node stays as it is. -/
theorem without_of_not_mem (h : id ∉ v.held) : v.without id = v := by
  induction v using induct with
  | leaf v hv => exact without_leaf hv id
  | node x => rfl
  | list items ih =>
    rw [held_list, List.mem_flatMap] at h
    simp only [without, withoutItems_eq, list.injEq]
    refine filter_map_self fun v hv => ?_
    have hnot : id ∉ v.held := fun hid => h ⟨v, hv, hid⟩
    exact ⟨decide_eq_true (ne_node_of_not_mem hnot), ih v hv hnot⟩
  | map d ih =>
    rw [held_map, List.mem_flatMap] at h
    simp only [without, withoutEntries_eq, map.injEq]
    refine congrArg Dict.mk (filter_map_self fun e he => ?_)
    have hnot : id ∉ e.2.held := fun hid => h ⟨e, he, hid⟩
    exact ⟨decide_eq_true (ne_node_of_not_mem hnot), Prod.ext rfl (ih e he hnot)⟩

theorem withoutItems_of_not_mem {items : List Value} (h : id ∉ items.flatMap held) :
    withoutItems id items = items :=
  list.inj (without_of_not_mem (v := list items) (by rwa [held_list]))

theorem withoutEntries_of_not_mem {entries : List (String × Value)}
    (h : id ∉ entries.flatMap fun e => e.2.held) : withoutEntries id entries = entries :=
  Dict.mk.inj (map.inj (without_of_not_mem (v := map ⟨entries⟩) (by rwa [held_map])))

theorem not_mem_around {before middle after : List NodeId} (hid : id ∈ middle)
    (hnd : (before ++ (middle ++ after)).Nodup) : id ∉ before ∧ id ∉ after := by
  obtain ⟨-, hrest, hbefore⟩ := List.nodup_append.mp hnd
  obtain ⟨-, -, hafter⟩ := List.nodup_append.mp hrest
  refine ⟨fun hb => ?_, fun ha => hafter id hid id ha rfl⟩
  exact hbefore id hb id (List.mem_append_left _ hid) rfl

/-- Around an item that holds the node nothing is taken out. -/
theorem withoutItems_around {before after : List Value} (hid : id ∈ v.held)
    (hnd : ((before ++ v :: after).flatMap held).Nodup) :
    withoutItems id (before ++ v :: after) = before ++ withoutItems id [v] ++ after := by
  rw [List.flatMap_append, List.flatMap_cons] at hnd
  obtain ⟨hb, ha⟩ := not_mem_around hid hnd
  have hsplit : withoutItems id (before ++ v :: after) =
      withoutItems id before ++ withoutItems id [v] ++ withoutItems id after := by
    rw [List.append_cons]
    simp only [withoutItems_eq, List.filter_append, List.map_append]
  rw [hsplit, withoutItems_of_not_mem hb, withoutItems_of_not_mem ha]

theorem withoutEntries_around {before after : List (String × Value)} {name : String}
    (hid : id ∈ v.held) (hnd : ((before ++ (name, v) :: after).flatMap fun e => e.2.held).Nodup) :
    withoutEntries id (before ++ (name, v) :: after) =
      before ++ withoutEntries id [(name, v)] ++ after := by
  rw [List.flatMap_append, List.flatMap_cons] at hnd
  obtain ⟨hb, ha⟩ := not_mem_around hid hnd
  have hsplit : withoutEntries id (before ++ (name, v) :: after) =
      withoutEntries id before ++ withoutEntries id [(name, v)] ++ withoutEntries id after := by
    rw [List.append_cons]
    simp only [withoutEntries_eq, List.filter_append, List.map_append]
  rw [hsplit, withoutEntries_of_not_mem hb, withoutEntries_of_not_mem ha]

theorem map_without_of_not_mem {l : List Value} (h : id ∉ l.flatMap held) :
    l.map (without id) = l := by
  refine (List.map_congr_left fun v hv => ?_).trans (List.map_id l)
  exact without_of_not_mem fun hid => h (List.mem_flatMap.mpr ⟨v, hv, hid⟩)

/-- The entry of a node that is held once is the only one that is taken out. -/
theorem Erases.without (h : Erases (node id) last u u') (hnd : u.held.Nodup) :
    id ∈ u.held ∧ u ≠ node id ∧ u.without id = u' := by
  cases h with
  | item before after =>
    refine ⟨by simp, by simp, ?_⟩
    rw [held_list] at hnd
    rw [Value.without, withoutItems_around (by simp) hnd]
    simp [withoutItems]
  | entry before after name =>
    refine ⟨by simp, by simp, ?_⟩
    rw [held_map] at hnd
    rw [Value.without, withoutEntries_around (by simp) hnd]
    simp [withoutEntries]

/-- What is taken out of a value inside another is taken out of the other, if the node is
held once. -/
theorem Differ.without (h : Differ u u' keys v v')
    (hu : u.held.Nodup → id ∈ u.held ∧ u ≠ node id ∧ u.without id = u') (hnd : v.held.Nodup) :
    id ∈ v.held ∧ v ≠ node id ∧ v.without id = v' := by
  induction h with
  | here => exact hu hnd
  | @item before after w w' rest _ ih =>
    rw [held_list] at hnd
    have hw : w.held.Nodup := (List.nodup_flatMap.mp hnd).1 w (by simp)
    obtain ⟨hid, hne, hww'⟩ := ih hw
    refine ⟨by simp [hid], by simp, ?_⟩
    rw [Value.without, withoutItems_around hid hnd]
    simp [withoutItems, hne, hww']
  | @entry before after name w w' rest _ ih =>
    rw [held_map] at hnd
    have hw : w.held.Nodup := (List.nodup_flatMap.mp hnd).1 (name, w) (by simp)
    obtain ⟨hid, hne, hww'⟩ := ih hw
    refine ⟨by simp [hid], by simp, ?_⟩
    rw [Value.without, withoutEntries_around hid hnd]
    simp [withoutEntries, hne, hww']

end Value

namespace Node

variable {n : Node} {id : NodeId} {i : Nat} {v v' : Value}

/-- If one field holds the node, taking it out of this field takes it out of all. -/
theorem setField_without (hv : n.fields[i]? = some v) (hid : id ∈ v.held) (hnd : n.held.Nodup) :
    (n.setField i (v.without id)).fields = n.fields.map (Value.without id) := by
  obtain ⟨hi, -⟩ := List.getElem?_eq_some_iff.mp hv
  have hsplit := Tree.split_of_getElem? hv
  rw [held_eq, hsplit, List.flatMap_append, List.flatMap_cons] at hnd
  obtain ⟨hb, ha⟩ := Value.not_mem_around hid hnd
  have hset : (n.setField i (v.without id)).fields =
      n.fields.take i ++ v.without id :: n.fields.drop (i + 1) := by
    show n.fields.set i (v.without id) = _
    rw [List.set_eq_take_append_cons_drop, if_pos hi]
  conv_rhs => rw [hsplit]
  rw [hset, List.map_append, List.map_cons, Value.map_without_of_not_mem hb,
    Value.map_without_of_not_mem ha]

end Node

/-! ## Joined links -/

/-- The links once the neighbours of `c` are joined and `c` itself knows nothing. -/
def spliced (slots : Slots) (c : NodeId) : Slots := fun x side =>
  if x = c then .unknown
  else if slots c side.opposite = .to x then slots c side else slots x side

/-- Links are known from both ends, and the two neighbours of a node differ. -/
structure Reciprocal (slots : Slots) : Prop where
  back : ∀ {x y side}, slots x side = .to y → slots y side.opposite = .to x
  apart : ∀ {x y side}, slots x side = .to y → slots x side.opposite ≠ .to y

@[simp] theorem Side.opposite_opposite (side : Side) : side.opposite.opposite = side := by
  cases side <;> rfl

section Spliced

variable {slots : Slots} {a b c x : NodeId} {side : Side}

theorem spliced_self (slots : Slots) (c : NodeId) (side : Side) :
    spliced slots c c side = .unknown := by
  simp [spliced]

theorem spliced_of_ne (h : x ≠ c) : spliced slots c x side =
    if slots c side.opposite = .to x then slots c side else slots x side := by
  simp [spliced, h]

/-- Nobody knows a node that was spliced out. -/
theorem Reciprocal.spliced_ne (hr : Reciprocal slots) (x : NodeId) (side : Side) :
    spliced slots c x side ≠ .to c := by
  by_cases hx : x = c
  · rw [hx, spliced_self]
    exact Link.noConfusion
  · rw [spliced_of_ne hx]
    split
    · intro hc
      exact hr.apart hc (hr.back hc)
    · rename_i hno
      intro hc
      exact hno (hr.back hc)

/-- Splicing out two nodes, where one is known to lie beside the other: whoever comes before the
first is joined to what comes after the second. -/
theorem Reciprocal.spliced_spliced_of_link (hr : Reciprocal slots) (hxa : x ≠ a) (hxb : x ≠ b)
    (hab : a ≠ b) (h : slots a side = .to b) :
    spliced (spliced slots a) b x side =
        (if slots a side.opposite = .to x then slots b side else slots x side) ∧
      spliced (spliced slots b) a x side =
        if slots a side.opposite = .to x then slots b side else slots x side := by
  have hback : slots b side.opposite = .to a := hr.back h
  have hprev : slots a side.opposite ≠ .to b := hr.apart h
  have hnext : slots b side ≠ .to a := by
    have := hr.apart hback
    rwa [Side.opposite_opposite] at this
  constructor
  · rw [spliced_of_ne hxb, spliced_of_ne hab.symm, spliced_of_ne hab.symm, spliced_of_ne hxa,
      Side.opposite_opposite, if_pos h, if_neg hprev]
    split <;> rfl
  · have hx : slots b side.opposite ≠ .to x := by
      rw [hback]
      exact fun hx => hxa (Link.to.inj hx).symm
    rw [spliced_of_ne hxa, spliced_of_ne hab, spliced_of_ne hab, spliced_of_ne hxb,
      Side.opposite_opposite, if_neg hnext, if_pos hback, if_neg hx]

/-- The order in which nodes are spliced out does not matter. -/
theorem Reciprocal.spliced_comm (hr : Reciprocal slots) (a b : NodeId) :
    spliced (spliced slots a) b = spliced (spliced slots b) a := by
  funext x side
  by_cases hab : a = b
  · rw [hab]
  by_cases hxa : x = a
  · subst hxa
    rw [spliced_self, spliced_of_ne hab, if_neg (hr.spliced_ne b _), spliced_self]
  by_cases hxb : x = b
  · subst hxb
    rw [spliced_self, spliced_of_ne hxa, if_neg (hr.spliced_ne a _), spliced_self]
  by_cases hlink : slots a side = .to b
  · obtain ⟨hleft, hright⟩ := hr.spliced_spliced_of_link hxa hxb hab hlink
    rw [hleft, hright]
  by_cases hlink' : slots b side = .to a
  · obtain ⟨hright, hleft⟩ := hr.spliced_spliced_of_link hxb hxa (Ne.symm hab) hlink'
    rw [hleft, hright]
  -- The two do not know each other, so `x` is joined around at most one of them.
  have hno : slots a side.opposite ≠ .to b := fun h => hlink' (by simpa using hr.back h)
  have hno' : slots b side.opposite ≠ .to a := fun h => hlink (by simpa using hr.back h)
  rw [spliced_of_ne hxb, spliced_of_ne (Ne.symm hab), spliced_of_ne (Ne.symm hab),
    spliced_of_ne hxa, spliced_of_ne hxa, spliced_of_ne hab, spliced_of_ne hab, spliced_of_ne hxb,
    Side.opposite_opposite, if_neg hlink, if_neg hno, if_neg hlink', if_neg hno']
  by_cases ha : slots a side.opposite = .to x
  · have hb : slots b side.opposite ≠ .to x := by
      intro hb
      have heq : slots x side = .to a ∧ slots x side = .to b := by
        exact ⟨by simpa using hr.back ha, by simpa using hr.back hb⟩
      exact hab (Link.to.inj (heq.1.symm.trans heq.2))
    rw [if_neg hb, if_pos ha, if_pos ha]
  · rw [if_neg ha, if_neg ha]

end Spliced

namespace Tree

variable {t t' : Tree} {id x : NodeId} {p : Node}

theorem WellLinked.reciprocal (hl : t.WellLinked) : Reciprocal t.slots := by
  -- A node that knows a neighbour stands in the row of its family.
  have row : ∀ {x y : NodeId} {side : Side}, t.slots x side = .to y →
      ∃ before after, (before ++ x :: after).Nodup ∧ Row t.slots (before ++ x :: after) := by
    intro x y side h
    cases hn : t.get? x with
    | none => simp [slots, hn] at h
    | some n =>
      rw [slots_eq hn] at h
      cases ha : n.attachment with
      | none =>
        rw [hl.loose hn ha] at h
        cases h
      | some a =>
        obtain ⟨p, before, after, hp, hsplit⟩ := hl.place hn ha
        have hids := Node.held_of_split hsplit
        exact ⟨_, _, hids ▸ hl.held_once hp, hids ▸ (hl.attached_family hn ha hp).2⟩
  constructor
  · intro x y side h
    obtain ⟨before, after, -, hrow⟩ := row h
    exact hrow.known_back side h
  · intro x y side h h'
    obtain ⟨before, after, hnd, hrow⟩ := row h
    have hnb := hrow.link_eq side (by simp [h])
    have hnb' := hrow.link_eq side.opposite (by simp [h'])
    rw [h, eq_comm, Link.ofOption_eq_to] at hnb
    rw [h', eq_comm, Link.ofOption_eq_to] at hnb'
    have hboth : y ∈ before ∧ y ∈ after := by
      cases side with
      | prev => exact ⟨List.mem_of_getLast? hnb, List.mem_of_head? hnb'⟩
      | next => exact ⟨List.mem_of_getLast? hnb', List.mem_of_head? hnb⟩
    exact (List.nodup_append.mp hnd).2.2 y hboth.1 y (List.mem_cons_of_mem _ hboth.2) rfl

/-- In a well-linked tree the recorded paths follow from the fields and the parents. -/
theorem WellLinked.ext (hl : t.WellLinked) (hl' : t'.WellLinked) (hb : t.SameBodies t')
    (hp : ∀ x, t'.parentOf? x = t.parentOf? x) (hs : ∀ x side, t'.slots x side = t.slots x side) :
    t' = t := by
  refine ext_get? fun x => get?_eq_of_records (hb x) ?_ (hs x)
  have hx := hp x
  rw [parentOf?_eq, parentOf?_eq] at hx
  cases ha : t.attachmentOf? x with
  | none => simpa [ha] using hx
  | some a =>
    rw [ha, Option.map_some, Option.map_eq_some_iff] at hx
    obtain ⟨a', ha', hparent⟩ := hx
    obtain ⟨n, hn, hna⟩ := Option.bind_eq_some_iff.mp ha
    obtain ⟨n', hn', hna'⟩ := Option.bind_eq_some_iff.mp ha'
    obtain ⟨p, hp, hm⟩ := hl.attached hn hna
    obtain ⟨p', hp', hm'⟩ := hl'.attached hn' hna'
    rw [hparent] at hp'
    obtain ⟨q, hq, hbody⟩ := hb.get? hp'
    obtain rfl : q = p := Option.some.inj (hq.symm.trans hp)
    rw [Node.heldNodes_of_body hbody] at hm'
    have hpath := hl.toForest.path_unique hp hm' hm
    obtain ⟨parent, path⟩ := a
    obtain ⟨parent', path'⟩ := a'
    obtain rfl : parent' = parent := hparent
    obtain rfl : path' = path := hpath
    exact ha'

/-- What taking `id` out leaves, node by node: every value has lost `id`, parents are kept, paths
are as long as before, and links are joined around `id`. -/
structure Plucked (t : Tree) (id : NodeId) (t' : Tree) : Prop where
  wellLinked : t'.WellLinked
  bodies : ∀ x, (t'.get? x).map Node.body =
    (t.get? x).map fun n => (n.kind, n.fields.map (Value.without id))
  parents : ∀ x, t'.parentOf? x = if x = id then none else t.parentOf? x
  depths : ∀ x, x ≠ id →
    (t'.attachmentOf? x).map (·.path.length) = (t.attachmentOf? x).map (·.path.length)
  slots : ∀ x side, t'.slots x side = spliced t.slots id x side

section Plucked

variable {a b : NodeId} {ta tb tab tba : Tree}

theorem Plucked.slots_eq (h : t.Plucked id t') : t'.slots = spliced t.slots id :=
  funext fun x => funext fun side => h.slots x side

theorem Plucked.bodies_twice (ha : t.Plucked a ta) (hab : ta.Plucked b tab) (x : NodeId) :
    (tab.get? x).map Node.body = (t.get? x).map fun n =>
      (n.kind, n.fields.map fun v => (v.without a).without b) := by
  have hbody : ∀ o : Option Node, (o.map fun n => (n.kind, n.fields.map (Value.without b))) =
      (o.map Node.body).map fun body => (body.1, body.2.map (Value.without b)) := by
    intro o
    rw [Option.map_map]
    rfl
  rw [hab.bodies, hbody, ha.bodies, Option.map_map]
  refine congrArg (Option.map · _) (funext fun n => ?_)
  simp [Function.comp_def]

/-- Two nodes taken out in either order leave the same tree. -/
theorem Plucked.comm (hl : t.WellLinked) (ha : t.Plucked a ta) (hab : ta.Plucked b tab)
    (hb : t.Plucked b tb) (hba : tb.Plucked a tba) : tab = tba := by
  refine hba.wellLinked.ext hab.wellLinked ?_ ?_ ?_
  · intro x
    rw [ha.bodies_twice hab, hb.bodies_twice hba]
    simp only [Value.without_comm]
  · intro x
    rw [hab.parents, ha.parents, hba.parents, hb.parents]
    by_cases hxa : x = a <;> by_cases hxb : x = b <;> simp [hxa, hxb]
  · intro x side
    rw [hab.slots_eq, ha.slots_eq, hba.slots_eq, hb.slots_eq, hl.reciprocal.spliced_comm]

/-- A node that was taken out before stays out. -/
theorem Plucked.unlinked (h : t.Plucked id t') (hx : x = id ∨ t.Unlinked x) : t'.Unlinked x := by
  have hparent : t'.parentOf? x = none := by
    rw [h.parents]
    rcases hx with rfl | hx
    · rw [if_pos rfl]
    · simp [parentOf?_eq, hx.1]
  have hnone : t'.attachmentOf? x = none := by simpa [parentOf?_eq] using hparent
  refine ⟨hnone, fun side => ?_⟩
  cases hn : t'.get? x with
  | none => simp [Tree.slots, hn]
  | some n =>
    rw [Tree.slots_eq hn]
    exact h.wellLinked.loose hn (attachmentOf?_eq hn ▸ hnone) side

end Plucked

/-- The node stands inside a list or a map of its parent. -/
def Removable (t : Tree) (id : NodeId) : Prop :=
  ∃ a, t.attachmentOf? id = some a ∧ 2 ≤ a.path.length

/-- A removal leaves every other node inside its list or map. -/
theorem Removable.after (h : t.Removable x) (hx : x ≠ id) (hp : t.Plucked id t') :
    t'.Removable x := by
  obtain ⟨a, ha, hlen⟩ := h
  have hdepth := hp.depths x hx
  rw [ha, Option.map_some, Option.map_eq_some_iff] at hdepth
  obtain ⟨a', ha', heq⟩ := hdepth
  exact ⟨a', ha', heq ▸ hlen⟩

theorem Plucked.rest_removable {ids : List NodeId} (h : t.Plucked id t') (hnd : (id :: ids).Nodup)
    (hr : ∀ x ∈ id :: ids, t.Removable x) : ∀ x ∈ ids, t'.Removable x := by
  intro x hx
  refine (hr x (List.mem_cons_of_mem id hx)).after ?_ h
  rintro rfl
  exact (List.nodup_cons.mp hnd).1 hx

/-- Erasing a held node takes it out of every value of the tree: nobody else holds it. -/
theorem bodies_of_erase {parent : NodeId} {above : Path} {last : Key} {done : Edited Value}
    (hl : t.WellLinked) (hp : t.get? parent = some p)
    (hm : (above ++ [last], id) ∈ p.heldNodes) (hne : above ≠ [])
    (h : t.erase (.node parent) (above ++ [last]) = .ok done) (x : NodeId) :
    (done.tree.get? x).map Node.body =
      (t.get? x).map fun n => (n.kind, n.fields.map (Value.without id)) := by
  obtain ⟨name, rest, i, v, v', u, u', rfl, hfield, hu, hv, herase⟩ :=
    erase_inside hp (hl.distinct hp) hm hne
  obtain rfl : _ = done := Except.ok.inj (herase.symm.trans h)
  have hnd := hl.held_once hp
  have hat : p.fields[i]? = some v := Node.getElem?_of_namedField? hfield
  have hndv : v.held.Nodup := by
    rw [Node.held_eq] at hnd
    exact (List.nodup_flatMap.mp hnd).1 v (List.mem_of_getElem? hat)
  obtain ⟨hid, -, rfl⟩ := hv.without hu.without hndv
  by_cases hx : x = parent
  · subst hx
    rw [get?_update_self, hp, Option.map_some, Option.map_some, Option.map_some, Node.body,
      Node.setField_without hat hid hnd]
    rfl
  · rw [get?_update_of_ne (Ne.symm hx)]
    cases hn : t.get? x with
    | none => rfl
    | some n =>
      have hnot : id ∉ n.held := fun hidn =>
        hx (hl.one_holder ⟨n, hn, hidn⟩ ⟨p, hp, List.mem_map_of_mem (f := (·.2)) hm⟩)
      rw [Node.held_eq] at hnot
      rw [Option.map_some, Option.map_some, Value.map_without_of_not_mem hnot]
      rfl

end Tree

namespace Linking

open Trellis.Tree

variable {t t' : Tree} {id : NodeId}

/-- A removal that succeeds has found the node in a list or a map. -/
theorem removable_of_run (hl : t.WellLinked) (h : (remove id).run t = .ok () t') :
    t.Removable id := by
  obtain ⟨⟨parent, path⟩, done, ha, herase, -⟩ := (ends_remove t id).of_ok h
  refine ⟨⟨parent, path⟩, ha, ?_⟩
  obtain ⟨n, hn, hna⟩ := Option.bind_eq_some_iff.mp ha
  obtain ⟨p, hp, -⟩ := hl.attached hn hna
  match path with
  | [] => cases herase
  | [last] =>
    rw [erase_field hp last] at herase
    cases herase
  | _ :: _ :: _ => simp

/-- Such a node can be removed, and is taken out of every value. -/
theorem run_remove_plucked (hl : t.WellLinked) (h : t.Removable id) :
    ∃ t', (remove id).run t = .ok () t' ∧ t.Plucked id t' := by
  obtain ⟨⟨parent, path⟩, ha, hlen⟩ := h
  obtain ⟨above, last, rfl⟩ : ∃ above last, path = above ++ [last] := by
    rcases List.eq_nil_or_concat' path with rfl | h
    · simp at hlen
    · exact h
  have hne : above ≠ [] := by
    rintro rfl
    simp at hlen
  obtain ⟨n, hn, hna⟩ := Option.bind_eq_some_iff.mp ha
  obtain ⟨p, hp, hm⟩ := hl.attached hn hna
  obtain ⟨p', u, before, after, after', t', -, hrun, hr, hsplit, hset, hcloses, hd⟩ :=
    run_remove hl hn hna hp hne
  refine ⟨t', hrun, hl.removed hn hna hp hr hsplit hset hcloses hd, ?_, ?_, ?_, ?_⟩
  · obtain ⟨a, done, ha', herase, hsame⟩ := (ends_remove t id).of_ok hrun
    obtain rfl := Option.some.inj (ha'.symm.trans ha)
    exact fun x => (hsame x).trans (bodies_of_erase hl hp hm hne herase x)
  · intro x
    by_cases hx : x = id
    · rw [if_pos hx, hx, parentOf?_eq, hr.unlinked.1]
      rfl
    · rw [if_neg hx, hr.parentOf?_eq hx]
  · intro x hx
    by_cases hmoved : x ∈ (u.renumbered last).map (·.1)
    · obtain ⟨⟨c, k⟩, hc, rfl⟩ := List.mem_map.mp hmoved
      rw [hr.renumbered c k hc, Option.map_map]
      simp [Function.comp_def]
    · rw [hr.attachment x hx hmoved]
  · intro x side
    by_cases hx : x = id
    · rw [hx, spliced_self, hr.unlinked.2]
    · rw [spliced_of_ne hx, hr.slots x hx]

/-- Two removals end in the same tree in either order. -/
theorem run_remove_remove {a b : NodeId} (hl : t.WellLinked) (hne : a ≠ b) (ha : t.Removable a)
    (hb : t.Removable b) : ∃ t', EStateM.run (do remove a; remove b) t = .ok () t' ∧
      EStateM.run (do remove b; remove a) t = .ok () t' := by
  obtain ⟨ta, hrun, hta⟩ := run_remove_plucked hl ha
  obtain ⟨tb, hrun', htb⟩ := run_remove_plucked hl hb
  obtain ⟨tab, hrun₂, htab⟩ := run_remove_plucked hta.wellLinked (hb.after hne.symm hta)
  obtain ⟨tba, hrun₂', htba⟩ := run_remove_plucked htb.wellLinked (ha.after hne htb)
  obtain rfl := hta.comm hl htab htb htba
  exact ⟨tab, (run_bind_ok hrun).trans hrun₂, (run_bind_ok hrun').trans hrun₂'⟩

/-- Removable nodes can be removed one after another. -/
theorem run_removals {ids : List NodeId} (hl : t.WellLinked) (hnd : ids.Nodup)
    (hr : ∀ id ∈ ids, t.Removable id) : ∃ t', (ids.forM remove).run t = .ok () t' ∧
      t'.WellLinked ∧ ∀ id, id ∈ ids ∨ t.Unlinked id → t'.Unlinked id := by
  induction ids generalizing t with
  | nil => exact ⟨t, rfl, hl, fun id h => h.resolve_left (List.not_mem_nil)⟩
  | cons a ids ih =>
    obtain ⟨ta, hrun, hta⟩ := run_remove_plucked hl (hr a List.mem_cons_self)
    obtain ⟨t', hrun', hl', hun⟩ :=
      ih hta.wellLinked (List.nodup_cons.mp hnd).2 (hta.rest_removable hnd hr)
    refine ⟨t', ?_, hl', fun id hid => hun id ?_⟩
    · rw [List.forM, run_bind_ok hrun, hrun']
    · rw [List.mem_cons, or_assoc] at hid
      rcases hid with hid | hid | hid
      · exact .inr (hta.unlinked (.inl hid))
      · exact .inl hid
      · exact .inr (hta.unlinked (.inr hid))

/-- A run of removals gives the same in every order. -/
theorem run_removals_perm {ids ids' : List NodeId} (hperm : ids.Perm ids') (hl : t.WellLinked)
    (hnd : ids.Nodup) (hr : ∀ id ∈ ids, t.Removable id) :
    (ids.forM remove).run t = (ids'.forM remove).run t := by
  induction hperm generalizing t with
  | nil => rfl
  | @cons a ids ids' _ ih =>
    obtain ⟨ta, hrun, hta⟩ := run_remove_plucked hl (hr a List.mem_cons_self)
    rw [List.forM, List.forM, run_bind_ok hrun, run_bind_ok hrun]
    exact ih hta.wellLinked (List.nodup_cons.mp hnd).2 (hta.rest_removable hnd hr)
  | swap a b ids =>
    have hne : b ≠ a := by
      rintro rfl
      simp at hnd
    obtain ⟨t', hrun, hrun'⟩ := run_remove_remove hl hne (hr b (by simp)) (hr a (by simp))
    have two : ∀ x y : NodeId, (List.forM (x :: y :: ids) remove).run t =
        EStateM.run ((do remove x; remove y) >>= fun _ => ids.forM remove) t := by
      intro x y
      rw [bind_assoc]
      rfl
    rw [two, two, run_bind_ok hrun, run_bind_ok hrun']
  | trans hperm _ ih ih' =>
    rw [ih hl hnd hr]
    exact ih' hl (hperm.nodup_iff.mp hnd) fun id hid => hr id (hperm.mem_iff.mpr hid)

/-- In a well-linked tree, two nodes of which each can be removed can both be removed, and both
orders end in the same tree. So any nodes that can each be removed can be removed one after another,
and every order ends in the same tree, which is well-linked and has none of them attached. -/
theorem removals_commute (hl : t.WellLinked) :
    (∀ a b, a ≠ b → (∃ ta, (remove a).run t = .ok () ta) → (∃ tb, (remove b).run t = .ok () tb) →
      ∃ t', EStateM.run (do remove a; remove b) t = .ok () t' ∧
        EStateM.run (do remove b; remove a) t = .ok () t') ∧
    ∀ ids : List NodeId, ids.Nodup → (∀ id ∈ ids, ∃ t', (remove id).run t = .ok () t') →
      ∃ t', t'.WellLinked ∧ (∀ id ∈ ids, t'.Unlinked id) ∧
        ∀ order : List NodeId, order.Perm ids → (order.forM remove).run t = .ok () t' := by
  have removable : ∀ {id : NodeId}, (∃ t', (remove id).run t = .ok () t') → t.Removable id := by
    rintro id ⟨t', hrun⟩
    exact removable_of_run hl hrun
  refine ⟨?_, ?_⟩
  · intro a b hne ha hb
    exact run_remove_remove hl hne (removable ha) (removable hb)
  · intro ids hnd hr
    have hr' : ∀ id ∈ ids, t.Removable id := fun id hid => removable (hr id hid)
    obtain ⟨t', hrun, hl', hun⟩ := run_removals hl hnd hr'
    refine ⟨t', hl', fun id hid => hun id (.inl hid), fun order hperm => ?_⟩
    rw [← run_removals_perm hperm.symm hl hnd hr', hrun]

/-- A grid whose rows are a cell and a list of two leaves. The cell holds a leaf behind a number and
knows what comes after it. -/
def nestedGrid : Tree where
  nodes := #[
    { kind := ⟨"Leaf", []⟩, fields := [], arity := Node.arity_leaf,
      attachment := some ⟨⟨1⟩, [.name "values", .index 1]⟩, prev := .absent },
    { kind := ⟨"Cell", ["values"]⟩, fields := [.list [.int 5, .node ⟨0⟩]], arity := rfl,
      attachment := some ⟨⟨4⟩, [.name "rows", .index 0]⟩, next := .to ⟨2⟩ },
    { kind := ⟨"Leaf", []⟩, fields := [], arity := Node.arity_leaf,
      attachment := some ⟨⟨4⟩, [.name "rows", .index 1, .index 0]⟩, prev := .to ⟨1⟩ },
    { kind := ⟨"Leaf", []⟩, fields := [], arity := Node.arity_leaf,
      attachment := some ⟨⟨4⟩, [.name "rows", .index 1, .index 1]⟩, next := .absent },
    { kind := ⟨"Grid", ["name", "rows"]⟩, arity := rfl,
      fields := [.text "grid", .list [.node ⟨1⟩, .list [.node ⟨2⟩, .node ⟨3⟩]]] }]

/-- Two neighbours that know each other, and the three nodes of which one lies below another. -/
theorem removals_commute_nestedGrid : nestedGrid.WellLinked ∧
    (∃ t', EStateM.run (do remove ⟨1⟩; remove ⟨2⟩) nestedGrid = .ok () t' ∧
      EStateM.run (do remove ⟨2⟩; remove ⟨1⟩) nestedGrid = .ok () t') ∧
    ∃ t', (∀ order : List NodeId, order.Perm [⟨0⟩, ⟨1⟩, ⟨2⟩] →
      (order.forM remove).run nestedGrid = .ok () t') ∧
      t'.attachmentOf? ⟨3⟩ = some ⟨⟨4⟩, [.name "rows", .index 0, .index 0]⟩ := by
  have hl : nestedGrid.WellLinked := Descending.wellLinked (by decide) (by decide)
  have hruns : ∀ id ∈ [(⟨0⟩ : NodeId), ⟨1⟩, ⟨2⟩],
      ∃ t', (remove id).run nestedGrid = .ok () t' := by
    intro id hid
    have hr : ∀ id ∈ [(⟨0⟩ : NodeId), ⟨1⟩, ⟨2⟩],
        ∃ a ∈ nestedGrid.attachmentOf? id, 2 ≤ a.path.length := by decide
    obtain ⟨a, ha, hlen⟩ := hr id hid
    obtain ⟨t', hrun, -⟩ := run_remove_plucked hl ⟨a, ha, hlen⟩
    exact ⟨t', hrun⟩
  obtain ⟨hpair, hset⟩ := removals_commute hl
  obtain ⟨t', -, -, horders⟩ := hset [⟨0⟩, ⟨1⟩, ⟨2⟩] (by decide) hruns
  have hbeside := hpair ⟨1⟩ ⟨2⟩ (by decide) (hruns _ (by decide)) (hruns _ (by decide))
  refine ⟨hl, hbeside, t', horders, ?_⟩
  have hrun := horders [⟨0⟩, ⟨1⟩, ⟨2⟩] (.refl _)
  cases hrun
  decide

end Linking

end Trellis
