import Trellis.Proofs.Editing
import Trellis.Proofs.Siblings

/-!
# Removing

Removing a node takes its entry out of a list or map. What its parent holds before the entry stays;
what it holds after the entry closes up: the nodes keep their order, and those under later entries of
the same list stand at paths with the index one lower, which is what they are told. The neighbours
become neighbours of each other. So a tree that was well-linked is well-linked afterwards.
-/

namespace Trellis

/-- How the nodes after a removed entry close up. Some of them `moved`: these stand at their old path
with a new index at one depth. The others stay where they are. -/
structure ClosesUp (depth : Nat) (moved : List (NodeId × Nat))
    (after after' : List (Path × NodeId)) : Prop where
  ids : after'.map (·.2) = after.map (·.2)
  moved_sublist : (moved.map (·.1)).Sublist (after.map (·.2))
  place : ∀ path' c, (path', c) ∈ after' →
    (∃ path k, (path, c) ∈ after ∧ (c, k) ∈ moved ∧ path' = path.set depth (.index k)) ∨
    ((path', c) ∈ after ∧ c ∉ moved.map (·.1))

theorem ClosesUp.refl (depth : Nat) (after : List (Path × NodeId)) :
    ClosesUp depth [] after after :=
  ⟨rfl, by simp, fun _ _ h => .inr ⟨h, by simp⟩⟩

/-- Nodes further on are not concerned. -/
theorem ClosesUp.append {depth : Nat} {moved : List (NodeId × Nat)}
    {after after' rest : List (Path × NodeId)} (h : ClosesUp depth moved after after')
    (hnd : ((after ++ rest).map (·.2)).Nodup) :
    ClosesUp depth moved (after ++ rest) (after' ++ rest) := by
  constructor
  · simp [h.ids]
  · rw [List.map_append]
    exact h.moved_sublist.trans (List.sublist_append_left _ _)
  · intro path' c hc
    rcases List.mem_append.mp hc with hc | hc
    · rcases h.place path' c hc with ⟨path, k, hp, hk, rfl⟩ | ⟨hp, hm⟩
      · exact .inl ⟨path, k, List.mem_append_left _ hp, hk, rfl⟩
      · exact .inr ⟨List.mem_append_left _ hp, hm⟩
    · refine .inr ⟨List.mem_append_right _ hc, fun hm => ?_⟩
      rw [List.map_append] at hnd
      exact (List.nodup_append.mp hnd).2.2 c (h.moved_sublist.subset hm) c
        (List.mem_map_of_mem (f := (·.2)) hc) rfl

namespace Value

variable {u u' x : Value} {last : Key}

/-- Taking the entry under a key out of a list or map. -/
inductive Erases (x : Value) : Key → Value → Value → Prop where
  | item (before after : List Value) :
    Erases x (.index before.length) (list (before ++ x :: after)) (list (before ++ after))
  | entry (before after : List (String × Value)) (name : String) :
    Erases x (.name name) (map ⟨before ++ (name, x) :: after⟩) (map ⟨before ++ after⟩)

theorem Leads.exists_erases (h : Leads u [last] x) : ∃ u', Erases x last u u' := by
  cases h with
  | item h =>
    cases h
    exact ⟨_, .item _ _⟩
  | entry h =>
    cases h
    exact ⟨_, .entry _ _ _⟩

theorem Erases.asNode? (h : Erases x last u u') : u.asNode? = none := by
  cases h <;> rfl

theorem Erases.eraseEntry (h : Erases x last u u') (hd : u.Distinct) (path : Path) :
    Value.eraseEntry path last u = .ok (x, u') := by
  cases h with
  | item before after =>
    have herase : (before ++ x :: after).eraseIdx before.length = before ++ after := by
      simp [List.eraseIdx_append_of_length_le]
    simp [Value.eraseEntry, herase]
  | entry before after name =>
    have hn := (distinct_map.mp hd).1.not_mem_before
    simp [Value.eraseEntry, Key.asName?, Dict.remove?_of_split hn]

theorem Erases.distinct (h : Erases x last u u') (hd : u.Distinct) : u'.Distinct := by
  cases h with
  | item before after =>
    rw [distinct_list] at hd ⊢
    intro v hv
    rcases List.mem_append.mp hv with hv | hv
    · exact hd v (List.mem_append_left _ hv)
    · exact hd v (by simp [hv])
  | entry before after name =>
    rw [distinct_map] at hd ⊢
    refine ⟨?_, fun v hv => ?_⟩
    · have hsub : (before ++ after).Sublist (before ++ (name, x) :: after) :=
        (List.sublist_cons_self _ _).append_left before
      exact hd.1.sublist (hsub.map _)
    · rcases List.mem_append.mp hv with hv | hv
      · exact hd.2 v (List.mem_append_left _ hv)
      · exact hd.2 v (by simp [hv])

/-- The nodes that get a new index when the entry under a key is taken out, with that index. -/
def renumbered (u : Value) (last : Key) : List (NodeId × Nat) :=
  match u, last with
  | .list items, .index i => Value.shifted items i
  | _, _ => []

theorem shifted_split (before after : List Value) (x : Value) :
    shifted (before ++ x :: after) before.length =
      (after.zipIdx (before.length + 1)).flatMap fun y =>
        (y.1.heldNodes []).map fun e => (e.2, y.2 - 1) := by
  have hdrop : ((before ++ x :: after).zipIdx).drop (before.length + 1) =
      after.zipIdx (before.length + 1) := by
    rw [List.zipIdx_append, List.drop_append]
    simp
  rw [shifted, hdrop]

theorem map_snd_heldInItems (q : Path) (items : List Value) (i : Nat) :
    (heldInItems q i items).map (·.2) = items.flatMap held := by
  induction items generalizing i with
  | nil => rfl
  | cons v rest ih => simp [heldInItems, ih, map_snd_heldNodes]

theorem map_fst_shifted (before after : List Value) (x : Value) :
    (shifted (before ++ x :: after) before.length).map (·.1) = after.flatMap held := by
  rw [shifted_split, List.map_flatMap]
  conv_rhs => rw [← List.zipIdx_map_fst (before.length + 1) after, List.flatMap_map]
  refine List.flatMap_congr fun y _ => ?_
  simp [held]

/-- The items behind a removed one move up by one place. -/
theorem closesUp_items (before after : List Value) (x : Value) (q : Path) :
    ClosesUp q.length (shifted (before ++ x :: after) before.length)
      (heldInItems q (before.length + 1) after) (heldInItems q before.length after) := by
  constructor
  · rw [map_snd_heldInItems, map_snd_heldInItems]
  · rw [map_fst_shifted, map_snd_heldInItems]
  · intro path' c hc
    rw [heldInItems_eq, List.mem_flatMap] at hc
    obtain ⟨⟨y, j⟩, hy, hc⟩ := hc
    rw [heldNodes_eq_map, List.mem_map] at hc
    obtain ⟨⟨r, d⟩, hr, heq⟩ := hc
    obtain ⟨rfl, rfl⟩ := Prod.mk.inj heq
    have hy' : (y, j + 1) ∈ after.zipIdx (before.length + 1) := by
      rw [List.zipIdx_succ]
      exact List.mem_map.mpr ⟨(y, j), hy, rfl⟩
    refine .inl ⟨q ++ [.index (j + 1)] ++ r, j, ?_, ?_, ?_⟩
    · rw [heldInItems_eq, List.mem_flatMap]
      refine ⟨(y, j + 1), hy', ?_⟩
      rw [heldNodes_eq_map, List.mem_map]
      exact ⟨(r, d), hr, rfl⟩
    · rw [shifted_split, List.mem_flatMap]
      exact ⟨(y, j + 1), hy', List.mem_map.mpr ⟨(r, d), hr, rfl⟩⟩
    · simp

theorem Erases.heldNodes (h : Erases x last u u') (q : Path) : ∃ before after after',
    u.heldNodes q = before ++ x.heldNodes (q ++ [last]) ++ after ∧
      u'.heldNodes q = before ++ after' ∧ ClosesUp q.length (u.renumbered last) after after' := by
  cases h with
  | item before after =>
    refine ⟨heldInItems q 0 before, heldInItems q (before.length + 1) after,
      heldInItems q before.length after, ?_, ?_, closesUp_items before after x q⟩
    · simp [Value.heldNodes, heldInItems_append, heldInItems]
    · simp [Value.heldNodes, heldInItems_append]
  | entry before after name =>
    refine ⟨heldInEntries q before, heldInEntries q after, heldInEntries q after, ?_, ?_,
      .refl _ _⟩
    · simp [Value.heldNodes, heldInEntries_append, heldInEntries]
    · simp [Value.heldNodes, heldInEntries_append]

end Value

namespace Tree

variable {t : Tree} {parent id : NodeId} {p : Node} {above : Path} {last : Key}

/-- The fields of a node are fixed. -/
theorem erase_field (hp : t.get? parent = some p) (last : Key) :
    t.erase (.node parent) [last] = .error (.fixedField p.kind.name last.text) := by
  simp [erase, Path.splitLast?, editContainer, anchorFrom, Value.asNode?, get_of_get? hp, bind,
    Except.bind]

/-- Erasing a held node that does not make up a whole field takes its entry out of a list or map
inside a field of its holder. -/
theorem erase_inside (hp : t.get? parent = some p) (hd : p.Distinct)
    (hm : (above ++ [last], id) ∈ p.heldNodes) (hne : above ≠ []) :
    ∃ name rest i v v' u u', above = .name name :: rest ∧
      p.namedField? (.name name) = some (i, v) ∧ Value.Erases (.node id) last u u' ∧
      Value.Differ u u' rest v v' ∧ t.erase (.node parent) (above ++ [last]) =
        .ok ⟨t.update parent (·.setField i v'), .node parent, .node id⟩ := by
  obtain ⟨name, rest, i, v, hpath, hfield, hl⟩ := Node.leads_of_mem_heldNodes hd hm
  obtain ⟨rest, rfl, rfl⟩ : ∃ rest', above = .name name :: rest' ∧ rest = rest' ++ [last] := by
    cases above with
    | nil => exact absurd rfl hne
    | cons key above =>
      obtain ⟨rfl, rfl⟩ := List.cons.inj hpath
      exact ⟨above, rfl, rfl⟩
  obtain ⟨u, hu, hx⟩ := hl.split
  obtain ⟨u', hu'⟩ := hx.exists_erases
  obtain ⟨v', hv'⟩ := hu.exists_differ u'
  have hdu := hu.distinct (Node.distinct_field hd hfield)
  refine ⟨name, rest, i, v, v', u, u', rfl, hfield, hu', hv', ?_⟩
  have hlast : Path.splitLast? (.name name :: rest ++ [last]) =
      some (.name name :: rest, last) := by
    simp [Path.splitLast?, List.getLast?_cons, List.dropLast_cons_of_ne_nil]
  rw [erase, hlast]
  exact editContainer_of_field hp hd hfield hu hu'.asNode? hv' (hu'.eraseEntry hdu _)

/-- Erasing a held node that does not make up a whole field. -/
theorem erase_of_held (hp : t.get? parent = some p) (hd : p.Distinct) (hnd : p.held.Nodup)
    (hm : (above ++ [last], id) ∈ p.heldNodes) (hne : above ≠ []) :
    ∃ u i v before after after',
      t.resolve (.node parent) above = .ok u ∧
      t.erase (.node parent) (above ++ [last]) =
        .ok ⟨t.update parent (·.setField i v), .node parent, .node id⟩ ∧
      p.heldNodes = before ++ (above ++ [last], id) :: after ∧
      (p.setField i v).heldNodes = before ++ after' ∧
      ClosesUp above.length (u.renumbered last) after after' ∧ (p.setField i v).Distinct := by
  obtain ⟨name, rest, i, v, v', u, u', rfl, hfield, hu', hv', herase⟩ :=
    erase_inside hp hd hm hne
  have hu := hv'.leads
  have hdv := Node.distinct_field hd hfield
  have hdu := hu.distinct hdv
  obtain ⟨before₁, after₁, hn, hset⟩ := Node.heldNodes_setField hfield
  obtain ⟨before₂, after₂, hheld, hheld'⟩ := hv'.heldNodes [.name name]
  obtain ⟨before₃, after₃, after', hin, hin', hcloses⟩ := hu'.heldNodes (.name name :: rest)
  have hsplit : p.heldNodes = before₁ ++ before₂ ++ before₃ ++
      (.name name :: rest ++ [last], id) :: (after₃ ++ (after₂ ++ after₁)) := by
    rw [hn, hheld, List.singleton_append, hin]
    simp [Value.heldNodes]
  refine ⟨u, i, v', before₁ ++ before₂ ++ before₃, after₃ ++ (after₂ ++ after₁),
    after' ++ (after₂ ++ after₁), resolve_of_field hp hd hfield hu, herase, hsplit, ?_, ?_, ?_⟩
  · rw [hset, hheld', List.singleton_append, hin']
    simp
  · refine hcloses.append ?_
    rw [Node.held, hsplit, List.map_append, List.map_cons] at hnd
    exact (List.nodup_cons.mp (List.nodup_append.mp hnd).2.1).2
  · exact Node.distinct_setField hd (hv'.distinct hdv (hu'.distinct hdu))

end Tree

namespace Tree

/-- What removing `id` leaves: the parent has its new body, some nodes have a new index in their
path, and the neighbours that were known to `id` know each other. -/
structure Removed (t : Tree) (id parent : NodeId) (p' : Node) (depth : Nat)
    (moved : List (NodeId × Nat)) (t' : Tree) : Prop extends t.Rewritten parent p' t' where
  unlinked : t'.Unlinked id
  renumbered : ∀ c k, (c, k) ∈ moved → t'.attachmentOf? c =
    (t.attachmentOf? c).map fun a => { a with path := a.path.set depth (.index k) }
  attachment : ∀ x, x ≠ id → x ∉ moved.map (·.1) → t'.attachmentOf? x = t.attachmentOf? x
  slots : ∀ x, x ≠ id → ∀ s, t'.slots x s =
    if t.slots id s.opposite = .to x then t.slots id s else t.slots x s

/-- Why `id` cannot be taken out of a well-linked tree, if it cannot. A node that makes up a whole
field stays, since the fields of a node are fixed. -/
def removalFault? (t : Tree) (id : NodeId) : Option TreeError :=
  match t.get? id, t.attachmentOf? id with
  | none, _ => some (.unknownNode id)
  | some _, none => some (.detached id)
  | some _, some ⟨parent, [key]⟩ => (t.get? parent).map fun p => .fixedField p.kind.name key.text
  | some _, some _ => none

variable {t t' : Tree}

/-- A tree whose nodes hold less is still a forest. -/
theorem Forest.of_sublist (hf : t.Forest)
    (hsub : ∀ a n', t'.get? a = some n' → ∃ n, t.get? a = some n ∧ n'.held.Sublist n.held)
    (hknown : ∀ {x}, (∃ n, t.get? x = some n) → ∃ n', t'.get? x = some n') : t'.Forest := by
  have hholds : ∀ a b, t'.Holds a b → t.Holds a b := by
    rintro a b ⟨n', hn', hb⟩
    obtain ⟨n, hn, hs⟩ := hsub a n' hn'
    exact ⟨n, hn, hs.subset hb⟩
  constructor
  · exact fun hab => hknown (hf.known (hholds _ _ hab))
  · intro id n' hn'
    obtain ⟨n, hn, hs⟩ := hsub id n' hn'
    exact hs.nodup (hf.held_once hn)
  · exact fun ha hb => hf.one_holder (hholds _ _ ha) (hholds _ _ hb)
  · exact fun id h => hf.acyclic id (Relation.TransGen.mono hholds _ _ h)

/-- A removal keeps a tree well-linked. -/
theorem WellLinked.removed {id parent : NodeId} {n p p' : Node} {path : Path} {depth : Nat}
    {moved : List (NodeId × Nat)} {before after after' : List (Path × NodeId)}
    (hl : t.WellLinked) (hn : t.get? id = some n) (ha : n.attachment = some ⟨parent, path⟩)
    (hp : t.get? parent = some p) (hr : t.Removed id parent p' depth moved t')
    (hsplit : p.heldNodes = before ++ (path, id) :: after)
    (hset : p'.heldNodes = before ++ after') (hcloses : ClosesUp depth moved after after')
    (hd : p'.Distinct) : t'.WellLinked := by
  have hids := Node.held_of_split hsplit
  have hids' : p'.held = before.map (·.2) ++ after.map (·.2) := by
    simp [Node.held, hset, hcloses.ids]
  have hnd := hl.held_once hp
  rw [hids] at hnd
  have hsub : p'.held.Sublist p.held := by
    rw [hids, hids']
    exact (List.sublist_cons_self _ _).append_left _
  have hne : ∀ c ∈ p'.held, c ≠ id := by
    rintro c hc rfl
    rw [List.nodup_middle] at hnd
    exact (List.nodup_cons.mp hnd).1 (hids' ▸ hc)
  have hmoved : ∀ c ∈ moved.map (·.1), c ∈ after.map (·.2) := fun c hc =>
    hcloses.moved_sublist.subset hc
  have hlinks : ∀ side x, t.slots id side = .to x → x ∈ p.held := by
    intro side x hx
    rw [slots_eq hn] at hx
    exact (Linking.link_known hl hn ha hp hsplit hx).1
  obtain ⟨hat, hrow⟩ := hl.attached_family hn ha hp
  refine hl.of_rewritten hp hr.toRewritten (hl.toForest.of_sublist ?_ hr.known) hd ?_ ?_ ?_ ?_
  · intro a n' hn'
    rcases hr.cases hn' with ⟨rfl, hb⟩ | ⟨-, m, hm, hb⟩
    · exact ⟨p, hp, Node.held_of_body hb ▸ hsub⟩
    · exact ⟨m, hm, by rw [Node.held_of_body hb]⟩
  · refine .inr ⟨?_, ?_⟩
    · rintro ⟨path', c⟩ he
      have hcid : c ≠ id := hne c (List.mem_map_of_mem (f := (·.2)) he)
      rw [hset, List.mem_append] at he
      rcases he with he | he
      · rw [hr.attachment c hcid, hat (path', c) (by simp [hsplit, he])]
        intro hm
        exact (List.nodup_append.mp hnd).2.2 c (List.mem_map_of_mem (f := (·.2)) he) c
          (List.mem_cons_of_mem _ (hmoved c hm)) rfl
      · rcases hcloses.place path' c he with ⟨path, k, hpath, hk, rfl⟩ | ⟨hpath, hm⟩
        · rw [hr.renumbered c k hk, hat (path, c) (by simp [hsplit, hpath])]
          rfl
        · rw [hr.attachment c hcid hm, hat (path', c) (by simp [hsplit, hpath])]
    · rw [hids'] at hne ⊢
      rw [hids] at hrow
      exact hrow.remove hnd fun x hx => hr.slots x (hne x hx)
  · exact fun x hx hxp => absurd (hsub.subset hx) hxp
  · intro x hx hx'
    obtain rfl : x = id := by
      by_contra hxid
      rw [hids, List.mem_append, List.mem_cons] at hx
      rw [hids', List.mem_append] at hx'
      exact hx' (hx.imp_right fun h => h.resolve_left hxid)
    exact hr.unlinked
  · intro x hxp _
    have hxid : x ≠ id := by
      rintro rfl
      exact hxp (by simp [hids])
    refine ⟨hr.attachment x hxid fun hm => hxp ?_, fun s => ?_⟩
    · simp [hids, hmoved x hm]
    · rw [hr.slots x hxid, if_neg fun hto => hxp (hlinks _ x hto)]

end Tree

namespace Linking

open Trellis.Tree

variable {t t' : Tree} {id : NodeId} {n p : Node} {a : Attachment}

/-- Nodes told their new index. -/
theorem run_renumber (depth : Nat) {moved : List (NodeId × Nat)}
    (hknown : ∀ c ∈ moved.map (·.1), ∃ m, t.get? c = some m) (hnd : (moved.map (·.1)).Nodup) :
    ∃ t', (moved.forM fun (other, index) => change other (·.renumber depth index)).run t =
        .ok () t' ∧
      (∀ x, x ∉ moved.map (·.1) → t'.get? x = t.get? x) ∧ t.SameBodies t' ∧
      (∀ x s, t'.slots x s = t.slots x s) ∧
      ∀ c k, (c, k) ∈ moved → t'.attachmentOf? c =
        (t.attachmentOf? c).map fun a => { a with path := a.path.set depth (.index k) } := by
  obtain ⟨t', hrun, hin, hout⟩ := run_forM_change (fun e : NodeId × Nat => e.1)
    (fun (e : NodeId × Nat) (m : Node) => m.renumber depth e.2) moved t
    (fun e he => hknown e.1 (List.mem_map_of_mem he)) hnd
  have hcases : ∀ x, t'.get? x = t.get? x ∨
      ∃ k, t'.get? x = (t.get? x).map (·.renumber depth k) := by
    intro x
    by_cases hx : x ∈ moved.map (·.1)
    · obtain ⟨e, he, rfl⟩ := List.mem_map.mp hx
      exact .inr ⟨e.2, hin e he⟩
    · exact .inl (hout x hx)
  refine ⟨t', hrun, hout, ?_, ?_, ?_⟩
  · intro x
    rcases hcases x with h | ⟨k, h⟩
    · rw [h]
    · rw [h, Option.map_map]
      rfl
  · intro x s
    rcases hcases x with h | ⟨k, h⟩
    · exact slots_congr h s
    · cases hx : t.get? x <;> simp [slots, h, hx]
  · intro c k hck
    have h := hin (c, k) hck
    cases hx : t.get? c <;> simp_all [attachmentOf?, Node.renumber]

/-- The neighbours that a node knows are made known to each other, and the node is detached. -/
theorem run_splice (hn : t.get? id = some n)
    (hlink : ∀ side y, n.link side = .to y → y ≠ id ∧ ∃ m, t.get? y = some m) :
    ∃ t', EStateM.run (do
        relink n.prev .next n.next
        relink n.next .prev n.prev
        change id Node.detach : Linking Unit) t = .ok () t' ∧
      t.SameBodies t' ∧ t'.Unlinked id ∧ (∀ x, x ≠ id → t'.attachmentOf? x = t.attachmentOf? x) ∧
      ∀ x, x ≠ id → ∀ s, t'.slots x s =
        if n.link s.opposite = .to x then n.link s else t.slots x s := by
  obtain ⟨t₁, hrun, hsame, hget, hatt, hslots⟩ :=
    run_relink_both (fun side y hy => (hlink side y hy).2) n.link
  have hn₁ : t₁.get? id = some n := by
    rw [hget id fun side h => (hlink side id h).1 rfl, hn]
  refine ⟨t₁.update id Node.detach, (hrun _).trans (run_change hn₁ _),
    hsame.trans (sameBodies_update _ _ Node.body_detach), unlinked_detach hn₁, ?_, ?_⟩
  · intro x hx
    rw [attachmentOf?_congr (get?_update_of_ne hx.symm _), hatt]
  · intro x hx s
    rw [slots_congr (get?_update_of_ne hx.symm _), hslots]

/-- Removing a node that does not make up a whole field succeeds. -/
theorem run_remove {parent : NodeId} {above : Path} {last : Key} (hl : t.WellLinked)
    (hn : t.get? id = some n) (ha : n.attachment = some ⟨parent, above ++ [last]⟩)
    (hp : t.get? parent = some p) (hne : above ≠ []) :
    ∃ p' u before after after' t', t.resolve (.node parent) above = .ok u ∧
      (remove id).run t = .ok () t' ∧
      t.Removed id parent p' above.length (u.renumbered last) t' ∧
      p.heldNodes = before ++ (above ++ [last], id) :: after ∧ p'.heldNodes = before ++ after' ∧
      ClosesUp above.length (u.renumbered last) after after' ∧ p'.Distinct := by
  obtain ⟨q, hq, hm⟩ := hl.attached hn ha
  obtain rfl : q = p := Option.some.inj (hq.symm.trans hp)
  obtain ⟨u, i, v, before, after, after', hres, herase, hsplit, hset, hcloses, hdist⟩ :=
    erase_of_held hp (hl.distinct hp) (hl.held_once hp) hm hne
  have hids := Node.held_of_split hsplit
  have hnd := hl.held_once hp
  rw [hids, List.nodup_append] at hnd
  obtain ⟨hid, hnda⟩ := List.nodup_cons.mp hnd.2.1
  have hheld : ∀ c ∈ q.held, parent ≠ c ∧ ∃ m, t.get? c = some m := fun c hc =>
    ⟨hl.toForest.ne_of_holds ⟨q, hp, hc⟩, hl.toForest.get?_held hp hc⟩
  have hmoved : ∀ c ∈ (u.renumbered last).map (·.1), c ∈ q.held := by
    intro c hc
    simp [hids, hcloses.moved_sublist.subset hc]
  have hidm : id ∉ (u.renumbered last).map (·.1) := fun h => hid (hcloses.moved_sublist.subset h)
  -- Taking the entry out changes one body and no records.
  have hget₁ : ∀ x, parent ≠ x → (t.update parent (·.setField i v)).get? x = t.get? x :=
    fun x hx => get?_update_of_ne hx _
  have hatt₁ : ∀ x, (t.update parent (·.setField i v)).attachmentOf? x = t.attachmentOf? x :=
    fun x => attachmentOf?_update_of fun m => m.attachment_setField i v
  have hslots₁ : ∀ x s, (t.update parent (·.setField i v)).slots x s = t.slots x s :=
    fun x => slots_update_of fun m => m.link_setField i v
  have hknown₁ : ∀ c ∈ q.held, ∃ m, (t.update parent (·.setField i v)).get? c = some m := by
    intro c hc
    rw [hget₁ c (hheld c hc).1]
    exact (hheld c hc).2
  obtain ⟨t₂, hrun₂, hout₂, hsame₂, hslots₂, hatt₂⟩ := run_renumber above.length
    (fun c hc => hknown₁ c (hmoved c hc)) (hcloses.moved_sublist.nodup hnda)
  have hn₂ : t₂.get? id = some n := by
    rw [hout₂ id hidm, hget₁ id (hheld id (by simp [hids])).1, hn]
  obtain ⟨t₃, hrun₃, hsame₃, hun₃, hatt₃, hslots₃⟩ := run_splice hn₂ fun side y hy => by
    obtain ⟨hy, hne, -⟩ := link_known hl hn ha hp hsplit hy
    exact ⟨hne, hsame₂.known (hknown₁ y hy)⟩
  refine ⟨q.setField i v, u, before, after, after', t₃, hres, ?_, ?_, hsplit, hset, hcloses,
    hdist⟩
  · have hlast : Path.splitLast? (above ++ [last]) = some (above, last) := by
      simp [Path.splitLast?]
    rw [remove, run_bind_ok (run_ask_ok (get_of_get? hn)), ha]
    simp only [hlast]
    rw [run_bind_ok (run_ask_ok hres), run_bind_ok (run_edit_ok herase)]
    refine (run_bind_ok hrun₂).trans ?_
    rw [run_bind_ok (run_ask_ok (get_of_get? hn₂))]
    exact hrun₃
  · refine ⟨(rewritten_setField hp i v).trans (hsame₂.trans hsame₃), hun₃, ?_, ?_, ?_⟩
    · intro c k hck
      have hcid : c ≠ id := by
        rintro rfl
        exact hidm (List.mem_map_of_mem (f := (·.1)) hck)
      rw [hatt₃ c hcid, hatt₂ c k hck, hatt₁]
    · intro x hx hxm
      rw [hatt₃ x hx, attachmentOf?_congr (hout₂ x hxm), hatt₁]
    · intro x hx s
      rw [hslots₃ x hx, hslots₂, hslots₁, slots_eq hn, slots_eq hn]

/-- A removal has a fault and fails with it before anything is written, or the node stands inside a
list or map. -/
theorem run_remove_cases (hl : t.WellLinked) (id : NodeId) :
    (∃ e, t.removalFault? id = some e ∧ (remove id).run t = .error e t) ∨
      (t.removalFault? id = none ∧ ∃ n parent above last, t.get? id = some n ∧
        n.attachment = some ⟨parent, above ++ [last]⟩ ∧ above ≠ []) := by
  cases hn : t.get? id with
  | none =>
    refine .inl ⟨.unknownNode id, by simp [removalFault?, hn], ?_⟩
    exact run_bind_error (run_ask_error (get_of_get?_none hn))
  | some n =>
    cases ha : n.attachment with
    | none =>
      refine .inl ⟨.detached id, by simp [removalFault?, hn, attachmentOf?, ha], ?_⟩
      rw [remove, run_bind_ok (run_ask_ok (get_of_get? hn)), ha]
      rfl
    | some a =>
      obtain ⟨parent, path⟩ := a
      obtain ⟨p, hp, hmem⟩ := hl.attached hn ha
      obtain ⟨name, rest, -, -, rfl, -⟩ := Node.leads_of_mem_heldNodes (hl.distinct hp) hmem
      rcases List.eq_nil_or_concat' rest with rfl | ⟨above, last, rfl⟩
      · left
        refine ⟨.fixedField p.kind.name (Key.name name).text, ?_, ?_⟩
        · simp [removalFault?, hn, attachmentOf?, ha, hp]
        · have hres : t.resolve (.node parent) [] = .ok (.node parent) := rfl
          rw [remove, run_bind_ok (run_ask_ok (get_of_get? hn)), ha]
          simp only [Path.splitLast?, List.getLast?_singleton, Option.map_some,
            List.dropLast_singleton]
          rw [run_bind_ok (run_ask_ok hres), run_bind_error (run_edit_error (erase_field hp _))]
      · right
        refine ⟨?_, n, parent, .name name :: above, last, rfl, ha, by simp⟩
        cases above <;> simp [removalFault?, hn, attachmentOf?, ha]

/-- Removing any node, whether it succeeds or fails, keeps a tree well-linked. -/
theorem wellLinked_remove (hl : t.WellLinked) (id : NodeId) :
    ((remove id).after t).WellLinked := by
  rcases run_remove_cases hl id with ⟨e, -, hrun⟩ | ⟨-, n, parent, above, last, hn, ha, hne⟩
  · rw [after_of_error hrun]
    exact hl
  · obtain ⟨p, hp, -⟩ := hl.attached hn ha
    obtain ⟨p', u, before, after, after', t', -, hrun, hr, hsplit, hset, hcloses, hd⟩ :=
      run_remove hl hn ha hp hne
    rw [after_of_ok hrun]
    exact hl.removed hn ha hp hr hsplit hset hcloses hd

end Linking

end Trellis
