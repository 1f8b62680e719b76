import Trellis.Proofs.Removing

/-!
# What a removal leaves

A node that stands in a list or a map of its parent is taken out. The child nodes of the parent close
up around the gap, and the two nodes beside it answer each other, whether they knew the removed node
before or not. Everybody else keeps its parent, and only nodes in later entries of the same list get
another path: the index of their entry drops by one. What lies below the removed node is not touched,
and the node itself ends up with no place and no neighbours.

The renumbered nodes are found before the entry is erased, by walking through the entries behind it.
They are the nodes whose recorded path leads through one of those entries, because recorded paths are
true.
-/

namespace Trellis

/-- `path` leads through an entry of a list behind the entry at `place`, and `path'` is the same path
with the index of that entry one lower. -/
def Path.MovesUp (place path path' : Path) : Prop :=
  ∃ above k j rest, place = above ++ [.index k] ∧ k ≤ j ∧ path = above ++ .index (j + 1) :: rest ∧
    path' = above ++ .index j :: rest

/-! ## The renumbered nodes -/

namespace Value

variable {u v w : Value} {keys rest : List Key} {last : Key} {c : NodeId} {i j k : Nat}

theorem Leads.unique {w' : Value} (hd : v.Distinct) (h : Leads v keys w) (h' : Leads v keys w') :
    w = w' := by
  have hw := Tree.empty.resolveFrom_of_leads h hd []
  have hw' := Tree.empty.resolveFrom_of_leads h' hd []
  exact Except.ok.inj (hw.symm.trans hw')

theorem leads_index : Leads u (.index i :: rest) w ↔
    ∃ items v, u = list items ∧ items[i]? = some v ∧ Leads v rest w := by
  constructor
  · intro h
    cases h with
    | @item before after v _ _ h => exact ⟨before ++ v :: after, v, rfl, by simp, h⟩
  · rintro ⟨items, v, rfl, hv, h⟩
    obtain ⟨hi, -⟩ := List.getElem?_eq_some_iff.mp hv
    have hitem : Leads (list (items.take i ++ v :: items.drop (i + 1)))
        (.index (items.take i).length :: rest) w := .item h
    rwa [← Tree.split_of_getElem? hv, List.length_take_of_le hi.le] at hitem

theorem mem_shifted {items : List Value} :
    (c, j) ∈ shifted items k ↔ k ≤ j ∧ ∃ v, items[j + 1]? = some v ∧ c ∈ v.held := by
  simp only [shifted, List.mem_flatMap, List.mem_map, Prod.mk.injEq]
  constructor
  · rintro ⟨⟨v, position⟩, hv, ⟨r, d⟩, hr, rfl, rfl⟩
    obtain ⟨i, hi⟩ := List.mem_iff_getElem?.mp hv
    rw [List.getElem?_drop, List.getElem?_zipIdx, Option.map_eq_some_iff] at hi
    obtain ⟨v', hv', heq⟩ := hi
    obtain ⟨rfl, rfl⟩ := Prod.mk.inj heq
    have hindex : 0 + (k + 1 + i) - 1 + 1 = k + 1 + i := by omega
    refine ⟨by omega, v', by rwa [hindex], ?_⟩
    exact List.mem_map_of_mem (f := (·.2)) hr
  · rintro ⟨hkj, v, hv, hc⟩
    obtain ⟨⟨r, d⟩, hr, rfl⟩ := List.mem_map.mp hc
    refine ⟨(v, j + 1), List.mem_iff_getElem?.mpr ⟨j - k, ?_⟩, (r, d), hr, rfl, rfl⟩
    have hindex : k + 1 + (j - k) = j + 1 := by omega
    rw [List.getElem?_drop, List.getElem?_zipIdx, hindex, hv]
    simp

/-- A node gets a new index if a path leads to it through an entry behind the one under `last`. -/
theorem mem_renumbered : (c, j) ∈ u.renumbered last ↔
    ∃ k rest, last = .index k ∧ k ≤ j ∧ u.Leads (.index (j + 1) :: rest) (node c) := by
  constructor
  · intro h
    unfold renumbered at h
    split at h
    · rename_i items k
      obtain ⟨hkj, v, hv, hc⟩ := mem_shifted.mp h
      obtain ⟨⟨r, d⟩, hr, rfl⟩ := List.mem_map.mp hc
      obtain ⟨rest, -, hlead⟩ := leads_of_mem_heldNodes hr
      exact ⟨k, rest, rfl, hkj, leads_index.mpr ⟨items, v, rfl, hv, hlead⟩⟩
    · cases h
  · rintro ⟨k, rest, rfl, hkj, hlead⟩
    obtain ⟨items, v, rfl, hv, hlead⟩ := leads_index.mp hlead
    have hmem := hlead.mem_heldNodes []
    exact mem_shifted.mpr ⟨hkj, v, hv, List.mem_map_of_mem (f := (·.2)) hmem⟩

end Value

namespace Node

variable {n : Node} {u w : Value} {above q : Path} {last : Key} {c : NodeId} {j : Nat}

theorem Leads.unique (hd : n.Distinct) (h : n.Leads q u) (h' : n.Leads q w) : u = w := by
  obtain ⟨name, rest, i, v, rfl, hfield, hl⟩ := h
  obtain ⟨name', rest', i', v', hq, hfield', hl'⟩ := h'
  obtain ⟨hname, rfl⟩ := List.cons.inj hq
  rw [← hname, hfield] at hfield'
  obtain ⟨rfl, rfl⟩ := Prod.mk.inj (Option.some.inj hfield')
  exact hl.unique (distinct_field hd hfield) hl'

/-- Among the nodes that a node holds, those behind an entry of a list are told by their paths. -/
theorem mem_renumbered (hd : n.Distinct) (hnd : n.held.Nodup) (hne : above ≠ [])
    (hu : n.Leads above u) (hq : (q, c) ∈ n.heldNodes) : (c, j) ∈ u.renumbered last ↔
      ∃ k rest, last = .index k ∧ k ≤ j ∧ q = above ++ .index (j + 1) :: rest := by
  rw [Value.mem_renumbered]
  constructor
  · rintro ⟨k, rest, hlast, hkj, hlead⟩
    have hmem := (hu.append hlead).mem_heldNodes
    have hpath := congrArg Prod.fst (List.inj_on_of_nodup_map hnd hq hmem rfl)
    exact ⟨k, rest, hlast, hkj, hpath⟩
  · rintro ⟨k, rest, hlast, hkj, rfl⟩
    obtain ⟨u', hu', hlead⟩ := Leads.split hne (leads_of_mem_heldNodes hd hq)
    rw [hu'.unique hd hu] at hlead
    exact ⟨k, rest, hlast, hkj, hlead⟩

/-- So a held node moves up if it gets a new index, which replaces the one of its entry. -/
theorem movesUp_iff {q' : Path} (hd : n.Distinct) (hnd : n.held.Nodup) (hne : above ≠ [])
    (hu : n.Leads above u) (hq : (q, c) ∈ n.heldNodes) : Path.MovesUp (above ++ [last]) q q' ↔
      ∃ j, (c, j) ∈ u.renumbered last ∧ q' = q.set above.length (.index j) := by
  constructor
  · rintro ⟨above', k, j, rest, hplace, hkj, rfl, rfl⟩
    obtain ⟨rfl, hlast⟩ := List.append_inj' hplace rfl
    have hmem := (mem_renumbered hd hnd hne hu hq).mpr
      ⟨k, rest, List.singleton_inj.mp hlast, hkj, rfl⟩
    exact ⟨j, hmem, by simp⟩
  · rintro ⟨j, hj, rfl⟩
    obtain ⟨k, rest, rfl, hkj, rfl⟩ := (mem_renumbered hd hnd hne hu hq).mp hj
    exact ⟨above, k, j, rest, rfl, hkj, rfl, by simp⟩

end Node

namespace Tree

variable {t t' : Tree} {id parent x : NodeId} {n p p' : Node} {a : Attachment}

/-- What taking `id` out of the place `a` leaves, as the tree answers it. -/
structure TakenOut (t : Tree) (id : NodeId) (a : Attachment) (t' : Tree) : Prop where
  /-- The child nodes close up, and the nodes beside the gap answer each other. -/
  children : ∃ before after, t.childNodes a.parent = .ok (before ++ id :: after) ∧
    t'.childNodes a.parent = .ok (before ++ after) ∧
    (∀ b, before.getLast? = some b → (Linking.nextSibling b).Answers t' after.head?) ∧
    ∀ b, after.head? = some b → (Linking.prevSibling b).Answers t' before.getLast?
  parents : ∀ x, x ≠ id → t'.parentOf? x = t.parentOf? x
  /-- Nodes in later entries of the same list move up by one. -/
  moved : ∀ x path path', t.attachmentOf? x = some ⟨a.parent, path⟩ → a.path.MovesUp path path' →
    t'.attachmentOf? x = some ⟨a.parent, path'⟩
  /-- All other nodes stay where they are. -/
  stayed : ∀ x, x ≠ id →
    (∀ path path', t.attachmentOf? x = some ⟨a.parent, path⟩ → ¬ a.path.MovesUp path path') →
    t'.attachmentOf? x = t.attachmentOf? x
  bodies : ∀ x, x ≠ a.parent → (t'.get? x).map Node.body = (t.get? x).map Node.body
  below : ∀ x, t.Below id x → t'.get? x = t.get? x
  unlinked : t'.Unlinked id

section Removed

variable {depth : Nat} {moved : List (NodeId × Nat)} {path : Path}
  {before after after' : List (Path × NodeId)} (hl : t.WellLinked) (hn : t.get? id = some n)
  (ha : n.attachment = some ⟨parent, path⟩) (hp : t.get? parent = some p)
  (hr : t.Removed id parent p' depth moved t')
  (hsplit : p.heldNodes = before ++ (path, id) :: after) (hset : p'.heldNodes = before ++ after')
  (hcloses : ClosesUp depth moved after after')

include hr in
theorem Removed.parentOf?_eq (hx : x ≠ id) : t'.parentOf? x = t.parentOf? x := by
  rw [Tree.parentOf?_eq, Tree.parentOf?_eq]
  by_cases hm : x ∈ moved.map (·.1)
  · obtain ⟨⟨c, k⟩, hc, rfl⟩ := List.mem_map.mp hm
    rw [hr.renumbered c k hc, Option.map_map]
    rfl
  · rw [hr.attachment x hx hm]

include hsplit hcloses in
theorem mem_held_of_moved {c : NodeId} (hc : c ∈ moved.map (·.1)) : c ∈ p.held := by
  simp [Node.held_of_split hsplit, hcloses.moved_sublist.subset hc]

include hl hn ha hp hr hsplit hset hcloses in
/-- The child nodes of the parent close up around the gap. -/
theorem Removed.children (hd : p'.Distinct) :
    t.childNodes parent = .ok (before.map (·.2) ++ id :: after.map (·.2)) ∧
    t'.childNodes parent = .ok (before.map (·.2) ++ after.map (·.2)) ∧
    (∀ b, (before.map (·.2)).getLast? = some b →
      (Linking.nextSibling b).Answers t' (after.map (·.2)).head?) ∧
    ∀ b, (after.map (·.2)).head? = some b →
      (Linking.prevSibling b).Answers t' (before.map (·.2)).getLast? := by
  have hl' := hl.removed hn ha hp hr hsplit hset hcloses hd
  have hids := Node.held_of_split hsplit
  obtain ⟨q, hq, hbody⟩ := hr.holder
  have hids' : q.held = before.map (·.2) ++ after.map (·.2) := by
    rw [Node.held_of_body hbody, Node.held, hset, List.map_append, hcloses.ids]
  -- The nodes beside the removed one have the same parent as before.
  have hbeside : ∀ b ∈ q.held, t'.parentOf? b = some parent := by
    intro b hb
    have hbp : b ∈ p.held := by
      rw [hids', List.mem_append] at hb
      rw [hids, List.mem_append, List.mem_cons]
      exact hb.imp_right .inr
    have hbid : b ≠ id := by
      rintro rfl
      have hnd := hl.held_once hp
      rw [hids, List.nodup_middle] at hnd
      exact (List.nodup_cons.mp hnd).1 (hids' ▸ hb)
    rw [hr.parentOf?_eq hbid]
    exact hl.parentOf?_held hn ha hp b hbp
  exact ⟨hids ▸ childNodes_eq hp, hids' ▸ childNodes_eq hq,
    Linking.answers_at_cut hl' hq hbeside hids'⟩

section Moved

variable (htells : ∀ {q q' : Path} {c : NodeId}, (q, c) ∈ p.heldNodes →
  (path.MovesUp q q' ↔ ∃ j, (c, j) ∈ moved ∧ q' = q.set depth (.index j)))

include hl hp hr htells in
theorem Removed.attachment_moved {q q' : Path} (hx : t.attachmentOf? x = some ⟨parent, q⟩)
    (hmoves : path.MovesUp q q') : t'.attachmentOf? x = some ⟨parent, q'⟩ := by
  obtain ⟨m, hm, hma⟩ := Option.bind_eq_some_iff.mp hx
  obtain ⟨p₂, hp₂, hheld⟩ := hl.attached hm hma
  obtain rfl : p₂ = p := Option.some.inj (hp₂.symm.trans hp)
  obtain ⟨j, hj, rfl⟩ := (htells hheld).mp hmoves
  rw [hr.renumbered x j hj, hx, Option.map_some]

include hl hn ha hp hr hsplit hcloses htells in
theorem Removed.attachment_stayed (hx : x ≠ id)
    (hstay : ∀ q q', t.attachmentOf? x = some ⟨parent, q⟩ → ¬ path.MovesUp q q') :
    t'.attachmentOf? x = t.attachmentOf? x := by
  refine hr.attachment x hx fun hm => ?_
  obtain ⟨⟨q, c⟩, he, rfl⟩ := List.mem_map.mp (mem_held_of_moved hsplit hcloses hm)
  obtain ⟨⟨c, j⟩, hj, rfl⟩ := List.mem_map.mp hm
  have hat := (hl.attached_family hn ha hp).1 _ he
  exact hstay q _ hat ((htells he).mpr ⟨j, hj, rfl⟩)

end Moved

include hl hn ha hp hr hsplit hcloses in
/-- A removal does not touch what lies below the removed node. -/
theorem Removed.get?_of_below (hx : t.Below id x) : t'.get? x = t.get? x := by
  obtain ⟨hxid, hxpar, hxp⟩ :=
    hl.toForest.apart_of_below hp (by simp [Node.held_of_split hsplit]) hx
  refine get?_eq_of_records (hr.bodies x hxpar) (hr.attachment x hxid ?_) fun s => ?_
  · intro hm
    exact hxp (mem_held_of_moved hsplit hcloses hm)
  · rw [hr.slots x hxid, if_neg]
    intro hto
    rw [slots_eq hn] at hto
    exact hxp (Linking.link_known hl hn ha hp hsplit hto).1

end Removed

end Tree

namespace Linking

open Trellis.Tree

variable {t : Tree} {id : NodeId} {n : Node} {a : Attachment}

/-- In a well-linked tree, an attached node that does not make up a whole field of its parent can be
removed, and this takes it out of its place. -/
theorem remove_takes_out (hl : t.WellLinked) (hn : t.get? id = some n)
    (ha : n.attachment = some a) (hlen : 2 ≤ a.path.length) :
    ∃ t', (remove id).run t = .ok () t' ∧ t.TakenOut id a t' := by
  obtain ⟨parent, path⟩ := a
  obtain ⟨above, last, rfl⟩ : ∃ above last, path = above ++ [last] := by
    rcases List.eq_nil_or_concat' path with rfl | h
    · simp at hlen
    · exact h
  have hne : above ≠ [] := by
    rintro rfl
    simp at hlen
  obtain ⟨p, hp, hm⟩ := hl.attached hn ha
  obtain ⟨p', u, before, after, after', t', hres, hrun, hr, hsplit, hset, hcloses, hd⟩ :=
    run_remove hl hn ha hp hne
  -- Recorded paths are true, so they tell which nodes were renumbered.
  obtain ⟨u', hu, -⟩ := Node.Leads.split hne (Node.leads_of_mem_heldNodes (hl.distinct hp) hm)
  obtain rfl : u' = u :=
    Except.ok.inj ((resolve_of_leads hp (hl.distinct hp) hu).symm.trans hres)
  have htells : ∀ {q q' : Path} {c : NodeId}, (q, c) ∈ p.heldNodes →
      (Path.MovesUp (above ++ [last]) q q' ↔
        ∃ j, (c, j) ∈ u'.renumbered last ∧ q' = q.set above.length (.index j)) := fun hq =>
    Node.movesUp_iff (hl.distinct hp) (hl.held_once hp) hne hu hq
  refine ⟨t', hrun, ?_⟩
  constructor
  · exact ⟨_, _, hr.children hl hn ha hp hsplit hset hcloses hd⟩
  · intro x hx
    exact hr.parentOf?_eq hx
  · intro x q q' hx hmoves
    exact hr.attachment_moved hl hp htells hx hmoves
  · intro x hx hstay
    exact hr.attachment_stayed hl hn ha hp hsplit hcloses htells hx hstay
  · exact hr.bodies
  · intro x hx
    exact hr.get?_of_below hl hn ha hp hsplit hcloses hx
  · exact hr.unlinked

/-- A grid whose rows are a cell and a list of two leaves. The cell holds a leaf itself and knows what
comes after it. -/
def raggedGrid : Tree where
  nodes := #[
    { kind := ⟨"Leaf", []⟩, fields := [], arity := Node.arity_leaf,
      attachment := some ⟨⟨1⟩, [.name "value"]⟩, next := .absent },
    { kind := ⟨"Cell", ["value"]⟩, fields := [.node ⟨0⟩], arity := rfl,
      attachment := some ⟨⟨4⟩, [.name "rows", .index 0]⟩, next := .to ⟨2⟩ },
    { kind := ⟨"Leaf", []⟩, fields := [], arity := Node.arity_leaf,
      attachment := some ⟨⟨4⟩, [.name "rows", .index 1, .index 0]⟩, prev := .to ⟨1⟩ },
    { kind := ⟨"Leaf", []⟩, fields := [], arity := Node.arity_leaf,
      attachment := some ⟨⟨4⟩, [.name "rows", .index 1, .index 1]⟩ },
    { kind := ⟨"Grid", ["rows"]⟩, fields := [.list [.node ⟨1⟩, .list [.node ⟨2⟩, .node ⟨3⟩]]],
      arity := rfl }]

theorem remove_takes_out_raggedGrid : raggedGrid.WellLinked ∧ ∃ t',
    (remove ⟨1⟩).run raggedGrid = .ok () t' ∧
    raggedGrid.TakenOut ⟨1⟩ ⟨⟨4⟩, [.name "rows", .index 0]⟩ t' ∧
    t'.attachmentOf? ⟨3⟩ = some ⟨⟨4⟩, [.name "rows", .index 0, .index 1]⟩ ∧
    t'.get? ⟨0⟩ = raggedGrid.get? ⟨0⟩ := by
  have hl : raggedGrid.WellLinked := Descending.wellLinked (by decide) (by decide)
  have hcell : raggedGrid.get? ⟨1⟩ = some raggedGrid.nodes[1] := rfl
  obtain ⟨t', hrun, hout⟩ := remove_takes_out hl hcell rfl (by decide)
  have hmoves : Path.MovesUp [.name "rows", .index 0] [.name "rows", .index 1, .index 1]
      [.name "rows", .index 0, .index 1] :=
    ⟨[.name "rows"], 0, 0, [.index 1], rfl, le_rfl, rfl, rfl⟩
  have hheld : raggedGrid.Holds ⟨1⟩ ⟨0⟩ := ⟨_, hcell, by decide⟩
  exact ⟨hl, t', hrun, hout, hout.moved ⟨3⟩ _ _ (by decide) hmoves, hout.below ⟨0⟩ (.single hheld)⟩

end Linking

end Trellis
