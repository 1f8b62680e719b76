import Trellis.Proofs.Resolving

/-!
# What an edit writes

An edit of the value at a path, if it succeeds, writes one field of one node, or no node at all when
the path stays inside a root outside the tree. In the written field a piece of what it holds is
exchanged: for the nodes of the new value by `Tree.assign`, for nothing by `Tree.erase`. Nothing else
about an edit matters for ownership: a forest stays one if what is put in was not held before and
does not lie above its new holder. No names need to be distinct here: where one repeats, reading
and writing both act on its first entry. What the nodes record about their places and links is left
alone.
-/

namespace Trellis

open Relation (ReflTransGen TransGen)

namespace Dict

variable {α : Type} {d : Dict α} {name : String} {v : α}

/-- A value that is found stands under the first entry of its name. -/
theorem split_of_get? (h : d.get? name = some v) : ∃ before after,
    d = ⟨before ++ (name, v) :: after⟩ ∧ name ∉ before.map (·.1) := by
  obtain ⟨entries⟩ := d
  induction entries with
  | nil => simp [get?] at h
  | cons e rest ih =>
    obtain ⟨n, u⟩ := e
    rw [get?, List.lookup_cons] at h
    by_cases hne : name = n
    · subst hne
      obtain rfl : u = v := by simpa using h
      exact ⟨[], rest, rfl, by simp⟩
    · rw [beq_false_of_ne hne] at h
      obtain ⟨before, after, hd, hb⟩ := ih h
      obtain rfl : rest = before ++ (name, v) :: after := congrArg Dict.entries hd
      exact ⟨(n, u) :: before, after, rfl, by simpa [hne] using hb⟩

theorem set?_of_not_mem {w : α} (h : name ∉ d.names) : d.set? name w = none := by
  obtain ⟨entries⟩ := d
  have hgo : set?.go name w entries = none := by
    induction entries with
    | nil => rfl
    | cons e rest ih =>
      have hmem : ¬ name = e.1 ∧ name ∉ names ⟨rest⟩ := by simpa [names] using h
      rw [set?.go, if_neg (Ne.symm hmem.1), ih hmem.2]
      rfl
  rw [set?, hgo]
  rfl

theorem not_mem_names_of_get? (h : d.get? name = none) : name ∉ d.names := by
  intro hm
  obtain ⟨e, he, rfl⟩ := List.mem_map.mp hm
  have hne := List.lookup_eq_none_iff.mp h e he
  simp at hne

/-- Writing under a name overwrites its first entry or adds one at the end. -/
theorem put_cases (d : Dict α) (name : String) (w : α) :
    (∃ before v after, d = ⟨before ++ (name, v) :: after⟩ ∧
      d.put name w = (some v, ⟨before ++ (name, w) :: after⟩)) ∨
    (name ∉ d.names ∧ d.put name w = (none, ⟨d.entries ++ [(name, w)]⟩)) := by
  cases hv : d.get? name with
  | some v =>
    obtain ⟨before, after, rfl, hb⟩ := split_of_get? hv
    exact .inl ⟨before, v, after, rfl, put_of_split hb⟩
  | none =>
    have hnot := not_mem_names_of_get? hv
    exact .inr ⟨hnot, by simp [put, set?_of_not_mem hnot]⟩

theorem remove?_of_not_mem (h : name ∉ d.names) : d.remove? name = none := by
  obtain ⟨entries⟩ := d
  have hgo : remove?.go name entries = none := by
    induction entries with
    | nil => rfl
    | cons e rest ih =>
      have hmem : ¬ name = e.1 ∧ name ∉ names ⟨rest⟩ := by simpa [names] using h
      rw [remove?.go, if_neg (Ne.symm hmem.1), ih hmem.2]
      rfl
  rw [remove?, hgo]
  rfl

theorem split_of_remove? {kept : Dict α} (h : d.remove? name = some (v, kept)) :
    ∃ before after, d = ⟨before ++ (name, v) :: after⟩ ∧ kept = ⟨before ++ after⟩ := by
  cases hv : d.get? name with
  | some u =>
    obtain ⟨before, after, rfl, hb⟩ := split_of_get? hv
    rw [remove?_of_split hb] at h
    obtain ⟨rfl, rfl⟩ := Prod.mk.inj (Option.some.inj h)
    exact ⟨before, after, rfl, rfl⟩
  | none =>
    rw [remove?_of_not_mem (not_mem_names_of_get? hv)] at h
    cases h

end Dict

/-! ## Exchanged pieces -/

/-- `l'` is `l` with one piece exchanged for `inserted`. -/
def Exchanged (inserted l l' : List NodeId) : Prop :=
  ∃ before dropped after, l = before ++ dropped ++ after ∧ l' = before ++ inserted ++ after

namespace Exchanged

variable {inserted l l' : List NodeId} {c : NodeId}

theorem around (h : Exchanged inserted l l') (left right : List NodeId) :
    Exchanged inserted (left ++ l ++ right) (left ++ l' ++ right) := by
  obtain ⟨before, dropped, after, rfl, rfl⟩ := h
  exact ⟨left ++ before, dropped, after ++ right, by simp, by simp⟩

theorem mem (h : Exchanged inserted l l') (hc : c ∈ l') : c ∈ l ∨ c ∈ inserted := by
  obtain ⟨before, dropped, after, rfl, rfl⟩ := h
  simp only [List.mem_append] at hc ⊢
  tauto

theorem nodup (h : Exchanged inserted l l') (hl : l.Nodup) (hi : inserted.Nodup)
    (hnew : ∀ c ∈ inserted, c ∉ l) : l'.Nodup := by
  obtain ⟨before, dropped, after, rfl, rfl⟩ := h
  have hkept : (before ++ after).Nodup := by
    have hsub : (before ++ after).Sublist (before ++ dropped ++ after) := by
      rw [List.append_assoc]
      exact (List.sublist_append_right dropped after).append_left before
    exact hsub.nodup hl
  have hperm : (before ++ inserted ++ after).Perm (inserted ++ (before ++ after)) := by
    rw [← List.append_assoc inserted]
    exact List.perm_append_comm.append_right after
  rw [hperm.nodup_iff, List.nodup_append]
  refine ⟨hi, hkept, ?_⟩
  intro c hc b hb hcb
  subst hcb
  refine hnew c hc ?_
  simp only [List.mem_append] at hb ⊢
  tauto

end Exchanged

/-! ## Values -/

namespace Value

variable {u u' v v' w : Value} {keys : List Key} {inserted : List NodeId} {path : Path} {key : Key}

theorem Differ.exchanged (h : Differ u u' keys v v')
    (hu : Exchanged inserted u.held u'.held) : Exchanged inserted v.held v'.held := by
  obtain ⟨before, after, hv, hv'⟩ := h.heldNodes []
  have hmap : ∀ x : Value, ∀ q : Path, (before ++ x.heldNodes q ++ after).map (·.2) =
      before.map (·.2) ++ x.held ++ after.map (·.2) := by
    intro x q
    rw [List.map_append, List.map_append, map_snd_heldNodes]
  unfold held
  rw [hv, hv', hmap, hmap]
  exact hu.around _ _

theorem Differ.at_index {items : List Value} {i : Nat} (h : Differ u u' keys w v')
    (hw : items[i]? = some w) :
    Differ u u' (.index i :: keys) (list items) (list (items.set i v')) := by
  obtain ⟨hi, rfl⟩ := List.getElem?_eq_some_iff.mp hw
  have hset : items.set i v' = items.take i ++ v' :: items.drop (i + 1) := by
    rw [List.set_eq_take_append_cons_drop, if_pos hi]
  have hitem : Differ u u' (.index (items.take i).length :: keys)
      (list (items.take i ++ items[i] :: items.drop (i + 1)))
      (list (items.take i ++ v' :: items.drop (i + 1))) := .item h
  rwa [← Tree.split_of_getElem? hw, ← hset, List.length_take_of_le hi.le] at hitem

/-- An edit that succeeds has found a place and changed the value there. -/
theorem differ_of_editAt {α : Type} {f : Value → Except TreeError (α × Value)} {answer : α}
    (h : v.editAt f path keys = .ok (answer, v')) :
    ∃ u u', f u = .ok (answer, u') ∧ Differ u u' keys v v' := by
  induction keys generalizing v v' path with
  | nil => exact ⟨v, v', h, .here⟩
  | cons key rest ih =>
    unfold editAt at h
    split at h
    · rename_i items i
      split at h
      · rename_i w hw
        cases hrec : editAt f w (path ++ [.index i]) rest with
        | error e => simp [hrec, bind, Except.bind] at h
        | ok done =>
          obtain ⟨a, w'⟩ := done
          simp only [hrec, bind, Except.bind, pure, Except.pure, Except.ok.injEq,
            Prod.mk.injEq] at h
          obtain ⟨rfl, rfl⟩ := h
          obtain ⟨u, u', hf, hd⟩ := ih hrec
          exact ⟨u, u', hf, hd.at_index hw⟩
      · cases h
    · rename_i entries n
      split at h
      · rename_i w hw
        cases hrec : editAt f w (path ++ [.name n]) rest with
        | error e => simp [hrec, bind, Except.bind] at h
        | ok done =>
          obtain ⟨a, w'⟩ := done
          simp only [hrec, bind, Except.bind, pure, Except.pure, Except.ok.injEq,
            Prod.mk.injEq] at h
          obtain ⟨rfl, rfl⟩ := h
          obtain ⟨u, u', hf, hd⟩ := ih hrec
          obtain ⟨before, after, rfl, hb⟩ := Dict.split_of_get? hw
          rw [Dict.insert, Dict.put_of_split hb]
          exact ⟨u, u', hf, .entry hd⟩
      · cases h
    · cases h

/-- Writing an entry exchanges what it held for what the new value holds. -/
theorem exchanged_of_assignEntry {new : Value} {old : Option Value}
    (h : assignEntry path key new v = .ok (old, v')) :
    Exchanged new.held v.held v'.held := by
  cases v with
  | list items =>
    cases key with
    | name n => simp [assignEntry] at h
    | index i =>
      simp only [assignEntry] at h
      split at h
      · rename_i w hw
        obtain ⟨-, rfl⟩ := Prod.mk.inj (Except.ok.inj h)
        obtain ⟨hi, rfl⟩ := List.getElem?_eq_some_iff.mp hw
        refine ⟨(items.take i).flatMap held, items[i].held, (items.drop (i + 1)).flatMap held,
          ?_, ?_⟩
        · have hs := Tree.split_of_getElem? hw
          rw [held_list]
          conv_lhs => rw [hs]
          rw [List.flatMap_append, List.flatMap_cons, List.append_assoc]
        · rw [List.set_eq_take_append_cons_drop, if_pos hi]
          simp
      · cases h
  | map d =>
    cases key with
    | index i => simp [assignEntry] at h
    | name n =>
      simp only [assignEntry] at h
      obtain ⟨-, rfl⟩ := Prod.mk.inj (Except.ok.inj h)
      rcases d.put_cases n new with ⟨before, w, after, rfl, hput⟩ | ⟨-, hput⟩
      · rw [hput]
        exact ⟨before.flatMap fun e => e.2.held, w.held, after.flatMap fun e => e.2.held,
          by simp, by simp⟩
      · rw [hput]
        exact ⟨(map d).held, [], [], by simp, by simp⟩
  | null => simp [assignEntry] at h
  | bool b => simp [assignEntry] at h
  | int i => simp [assignEntry] at h
  | text s => simp [assignEntry] at h
  | node id => simp [assignEntry] at h

/-- Taking an entry out exchanges what it held for nothing. -/
theorem exchanged_of_eraseEntry {old : Value} (h : eraseEntry path key v = .ok (old, v')) :
    Exchanged [] v.held v'.held := by
  cases v with
  | list items =>
    cases key with
    | name n => simp [eraseEntry] at h
    | index i =>
      simp only [eraseEntry] at h
      split at h
      · rename_i w hw
        obtain ⟨-, rfl⟩ := Prod.mk.inj (Except.ok.inj h)
        refine ⟨(items.take i).flatMap held, w.held, (items.drop (i + 1)).flatMap held, ?_, ?_⟩
        · conv_lhs => rw [Tree.split_of_getElem? hw]
          simp
        · rw [List.eraseIdx_eq_take_drop_succ]
          simp
      · cases h
  | map d =>
    simp only [eraseEntry] at h
    split at h
    · rename_i w kept hw
      obtain ⟨-, rfl⟩ := Prod.mk.inj (Except.ok.inj h)
      obtain ⟨n, -, hn⟩ := Option.bind_eq_some_iff.mp hw
      obtain ⟨before, after, rfl, rfl⟩ := Dict.split_of_remove? hn
      exact ⟨before.flatMap fun e => e.2.held, w.held, after.flatMap fun e => e.2.held,
        by simp, by simp⟩
    · cases h
  | null => simp [eraseEntry] at h
  | bool b => simp [eraseEntry] at h
  | int i => simp [eraseEntry] at h
  | text s => simp [eraseEntry] at h
  | node id => simp [eraseEntry] at h

end Value

namespace Node

variable {n : Node} {key : Key} {i : Nat} {v w : Value} {inserted : List NodeId}

theorem getElem?_of_namedField? (h : n.namedField? key = some (i, v)) : n.fields[i]? = some v := by
  cases key with
  | index j => simp [namedField?, fieldPosition?, Key.asName?] at h
  | name name => exact (namedField?_eq_some.mp h).2

theorem exchanged_setField (hv : n.fields[i]? = some v)
    (h : Exchanged inserted v.held w.held) : Exchanged inserted n.held (n.setField i w).held := by
  obtain ⟨hi, -⟩ := List.getElem?_eq_some_iff.mp hv
  have hset : (n.setField i w).fields = n.fields.take i ++ w :: n.fields.drop (i + 1) := by
    show n.fields.set i w = _
    rw [List.set_eq_take_append_cons_drop, if_pos hi]
  have hfields := Tree.split_of_getElem? hv
  rw [held_eq, held_eq, hset]
  conv in n.fields.flatMap Value.held => rw [hfields]
  have := h.around ((n.fields.take i).flatMap Value.held)
    ((n.fields.drop (i + 1)).flatMap Value.held)
  simpa using this

end Node

namespace Tree

variable {t t' : Tree} {root v : Value} {path : Path} {keys : List Key} {inserted : List NodeId}

/-- `t'` has the nodes of `t`, and they record the same places and links. -/
structure SameRecords (t t' : Tree) : Prop where
  unknown_iff : ∀ x, t'.get? x = none ↔ t.get? x = none
  attachment : ∀ x, t'.attachmentOf? x = t.attachmentOf? x
  slots : ∀ x side, t'.slots x side = t.slots x side

theorem SameRecords.refl (t : Tree) : t.SameRecords t :=
  ⟨fun _ => .rfl, fun _ => rfl, fun _ _ => rfl⟩

theorem SameRecords.trans {t'' : Tree} (h : t.SameRecords t') (h' : t'.SameRecords t'') :
    t.SameRecords t'' where
  unknown_iff := fun x => (h'.unknown_iff x).trans (h.unknown_iff x)
  attachment := fun x => (h'.attachment x).trans (h.attachment x)
  slots := fun x side => (h'.slots x side).trans (h.slots x side)

theorem SameRecords.known {x : NodeId} (h : t.SameRecords t') (hx : ∃ n, t.get? x = some n) :
    ∃ n, t'.get? x = some n := by
  rw [← Option.ne_none_iff_exists'] at hx ⊢
  exact (h.unknown_iff x).not.mpr hx

theorem get?_update_eq_none {id x : NodeId} {f : Node → Node} :
    (t.update id f).get? x = none ↔ t.get? x = none := by
  rw [get?_update]
  split
  · exact Option.map_eq_none_iff
  · rfl

theorem sameRecords_setField (t : Tree) (id : NodeId) (i : Nat) (w : Value) :
    t.SameRecords (t.update id (·.setField i w)) where
  unknown_iff := fun _ => get?_update_eq_none
  attachment := fun _ => attachmentOf?_update_of fun n => n.attachment_setField i w
  slots := fun _ => slots_update_of fun n => n.link_setField i w

/-- `t'` is `t` with one field of one node beneath `root` written, where a piece of what the node
holds is exchanged for `inserted`. -/
def Written (t : Tree) (root : Value) (inserted : List NodeId) (t' : Tree) : Prop :=
  ∃ id n i w, t.Beneath root id ∧ t.get? id = some n ∧ t' = t.update id (·.setField i w) ∧
    Exchanged inserted n.held (n.setField i w).held

theorem Written.sameRecords (h : t.Written root inserted t') : t.SameRecords t' := by
  obtain ⟨id, -, i, w, -, -, rfl, -⟩ := h
  exact t.sameRecords_setField id i w

theorem beneath_of_anchorFrom {anchor : Anchor} (h : t.anchorFrom v path keys = .ok (some anchor)) :
    t.Beneath v anchor.node := by
  have here : ∀ {v : Value} {path : Path} {keys : List Key} {anchor : Anchor},
      (v.asNode?.map fun id => (⟨id, path, keys⟩ : Anchor)) = some anchor →
      t.Beneath v anchor.node := by
    intro v path keys anchor h
    obtain ⟨id, hid, rfl⟩ := Option.map_eq_some_iff.mp h
    obtain rfl := Value.eq_node hid
    exact beneath_node.mpr .refl
  induction keys generalizing v path anchor with
  | nil => exact here (Except.ok.inj h)
  | cons key rest ih =>
    unfold anchorFrom at h
    cases hw : t.child v path key with
    | error e => simp [hw, bind, Except.bind] at h
    | ok w =>
      cases hrest : t.anchorFrom w (path ++ [key]) rest with
      | error e => simp [hw, hrest, bind, Except.bind] at h
      | ok found =>
        cases found with
        | none =>
          simp only [hw, hrest, bind, Except.bind, pure, Except.pure, Except.ok.injEq] at h
          exact here h
        | some below =>
          simp only [hw, hrest, bind, Except.bind, pure, Except.pure, Except.ok.injEq,
            Option.some.injEq] at h
          subst h
          obtain ⟨c, hc, hk⟩ := child_eq_ok.mp hw
          obtain ⟨before, after, hs⟩ := Children.split_of_child? hk
          have he : (key, w) ∈ t.entries .unrestricted v :=
            mem_entries.mpr ⟨c, hc, by simp [hs]⟩
          exact beneath_of_entry he (ih hrest)

/-- What an edit of a container writes, from what its two parts do. -/
theorem written_of_editContainer {α : Type} {onNode : Node → Except TreeError (α × Node)}
    {onValue : Value → Except TreeError (α × Value)} {done : Edited α}
    (hnode : ∀ n answer n', onNode n = .ok (answer, n') →
      ∃ i w, n' = n.setField i w ∧ Exchanged inserted n.held (n.setField i w).held)
    (hvalue : ∀ u answer u', onValue u = .ok (answer, u') →
      Exchanged inserted u.held u'.held)
    (h : t.editContainer root path onNode onValue = .ok done) :
    done.tree = t ∨ t.Written root inserted done.tree := by
  unfold editContainer at h
  cases ha : t.anchorFrom root [] path with
  | error e => simp [ha, bind, Except.bind] at h
  | ok found =>
    simp only [ha, bind, Except.bind] at h
    split at h
    · cases hedit : root.editAt onValue [] path with
      | error e => simp [hedit] at h
      | ok result =>
        simp only [hedit, pure, Except.pure, Except.ok.injEq] at h
        exact .inl (by rw [← h])
    · rename_i id above
      right
      cases hn : t.get? id with
      | none => simp [get_of_get?_none hn] at h
      | some n =>
        cases hedit : onNode n with
        | error e => simp [get_of_get? hn, hedit] at h
        | ok result =>
          obtain ⟨answer, n'⟩ := result
          simp only [get_of_get? hn, hedit, pure, Except.pure, Except.ok.injEq] at h
          obtain ⟨i, w, rfl, hx⟩ := hnode n answer n' hedit
          refine ⟨id, n, i, w, beneath_of_anchorFrom ha, hn, ?_, hx⟩
          rw [← h]
          exact update_congr fun m hm => by rw [Option.some.inj (hn.symm.trans hm)]
    · rename_i id above field rest
      right
      cases hn : t.get? id with
      | none => simp [get_of_get?_none hn] at h
      | some n =>
        simp only [get_of_get? hn] at h
        split at h
        · rename_i i v hfield
          cases hedit : v.editAt onValue (above ++ [field]) rest with
          | error e => simp [hedit] at h
          | ok result =>
            obtain ⟨answer, v'⟩ := result
            simp only [hedit, pure, Except.pure, Except.ok.injEq] at h
            obtain ⟨u, u', hu, hd⟩ := Value.differ_of_editAt hedit
            refine ⟨id, n, i, v', beneath_of_anchorFrom ha, hn, by rw [← h], ?_⟩
            exact Node.exchanged_setField (Node.getElem?_of_namedField? hfield)
              (hd.exchanged (hvalue u answer u' hu))
        · cases h

/-- Assigning exchanges a piece of what one node holds for what the new value holds. -/
theorem written_of_assign {new : Value} {done : Edited (Option Value)}
    (h : t.assign root path new = .ok done) :
    done.tree = t ∨ t.Written root new.held done.tree := by
  unfold assign at h
  split at h
  · cases h
  · refine written_of_editContainer ?_ (fun u answer u' hu => Value.exchanged_of_assignEntry hu) h
    intro n answer n' hn
    unfold Node.assignField at hn
    split at hn
    · rename_i i old hfield
      obtain ⟨-, rfl⟩ := Prod.mk.inj (Except.ok.inj hn)
      refine ⟨i, new, rfl, Node.exchanged_setField (Node.getElem?_of_namedField? hfield) ?_⟩
      exact ⟨[], old.held, [], by simp, by simp⟩
    · cases hn

theorem sameRecords_of_assign {new : Value} {done : Edited (Option Value)}
    (h : t.assign root path new = .ok done) : t.SameRecords done.tree := by
  rcases written_of_assign h with h | h
  · exact h ▸ .refl t
  · exact h.sameRecords

/-- Erasing exchanges a piece of what one node holds for nothing. -/
theorem written_of_erase {done : Edited Value} (h : t.erase root path = .ok done) :
    done.tree = t ∨ t.Written root [] done.tree := by
  unfold erase at h
  split at h
  · cases h
  · refine written_of_editContainer ?_ (fun u answer u' hu => Value.exchanged_of_eraseEntry hu) h
    intro n answer n' hn
    cases hn

theorem sameRecords_of_erase {done : Edited Value} (h : t.erase root path = .ok done) :
    t.SameRecords done.tree := by
  rcases written_of_erase h with h | h
  · exact h ▸ .refl t
  · exact h.sameRecords

/-! ## Ownership -/

/-- A way down that may use one more edge either does without it or splits at its last use. -/
theorem below_of_edge {holds holds' : NodeId → NodeId → Prop} {a b x y : NodeId}
    (hedge : ∀ a b, holds' a b → holds a b ∨ (a = x ∧ b = y)) (h : TransGen holds' a b) :
    TransGen holds a b ∨ (ReflTransGen holds a x ∧ ReflTransGen holds y b) := by
  induction h with
  | single h =>
    rcases hedge _ _ h with h | ⟨rfl, rfl⟩
    · exact .inl (.single h)
    · exact .inr ⟨.refl, .refl⟩
  | tail _ h ih =>
    rcases hedge _ _ h with h | ⟨rfl, rfl⟩
    · rcases ih with ih | ⟨hx, hy⟩
      · exact .inl (ih.tail h)
      · exact .inr ⟨hx, hy.tail h⟩
    · rcases ih with ih | ⟨hx, -⟩
      · exact .inr ⟨ih.to_reflTransGen, .refl⟩
      · exact .inr ⟨hx, .refl⟩

variable {parent new : NodeId} {p p' : Node}

/-- Exchanging a piece of what one node holds for `new` adds one edge at most. -/
theorem Rewritten.edge (hr : t.Rewritten parent p' t') (hp : t.get? parent = some p)
    (hx : Exchanged [new] p.held p'.held) (a b : NodeId) (hab : t'.Holds a b) :
    t.Holds a b ∨ (a = parent ∧ b = new) := by
  rcases hr.holds_iff.mp hab with ⟨rfl, hb⟩ | ⟨-, hb⟩
  · rcases hx.mem hb with hb | hb
    · exact .inl ⟨p, hp, hb⟩
    · exact .inr ⟨rfl, List.mem_singleton.mp hb⟩
  · exact .inl hb

/-- No node is held twice, and none comes to lie below itself, unless the holder of the new node lies
at or below it. -/
theorem Forest.exchanged (hf : t.Forest) (hp : t.get? parent = some p)
    (hr : t.Rewritten parent p' t') (hx : Exchanged [new] p.held p'.held)
    (hfree : ∀ holder, ¬ t.Holds holder new) (hknown : ∃ m, t.get? new = some m)
    (hbelow : ¬ ReflTransGen t.Holds new parent) : t'.Forest := by
  have hedge := hr.edge hp hx
  constructor
  · intro a b hab
    rcases hedge a b hab with hab | ⟨-, rfl⟩
    · exact hr.known (hf.known hab)
    · exact hr.known hknown
  · intro id n' hn'
    rcases hr.cases hn' with ⟨rfl, hb⟩ | ⟨-, m, hm, hb⟩
    · rw [Node.held_of_body hb]
      refine hx.nodup (hf.held_once hp) (by simp) fun c hc hcp => ?_
      exact hfree id ⟨p, hp, List.mem_singleton.mp hc ▸ hcp⟩
    · exact Node.held_of_body hb ▸ hf.held_once hm
  · intro a b c ha hb
    rcases hedge a c ha with ha | ⟨rfl, rfl⟩
    · rcases hedge b c hb with hb | ⟨rfl, rfl⟩
      · exact hf.one_holder ha hb
      · exact absurd ha (hfree a)
    · rcases hedge b _ hb with hb | ⟨rfl, -⟩
      · exact absurd hb (hfree b)
      · rfl
  · intro x hx
    rcases below_of_edge hedge hx with h | ⟨hxp, hnx⟩
    · exact hf.acyclic x h
    · exact hbelow (hnx.trans hxp)

end Tree

end Trellis
