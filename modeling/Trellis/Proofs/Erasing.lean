import Trellis.Proofs.Assigning

/-!
# Erasing removes one entry

Erasing finds its place as assigning does, and takes one entry out of the list or map that stands
there. In a list the entries behind it move down, and every path through one of them moves with it,
however deep it goes and whichever nodes it enters: what is read from a moved entry is not changed,
because the written node lies above it and is not met again. In a map the other entries keep their
order. Fields of nodes cannot be taken out.

Only the map that loses an entry must have distinct names: where a name repeats, its next entry
comes to light.
-/

namespace Trellis

namespace Dict

variable {α : Type} {d : Dict α} {name : String} {v : α}

theorem get?_filter_ne (d : Dict α) (name x : String) :
    get? ⟨d.entries.filter (·.1 ≠ name)⟩ x = if x = name then none else d.get? x := by
  obtain ⟨entries⟩ := d
  induction entries with
  | nil => simp [get?]
  | cons e rest ih =>
    obtain ⟨m, v⟩ := e
    simp only [get?] at ih ⊢
    by_cases hm : m = name
    · rw [List.filter_cons_of_neg (by simpa using hm), ih, hm]
      by_cases hx : x = name
      · simp [hx]
      · simp [hx, List.lookup_cons, beq_false_of_ne hx]
    · rw [List.filter_cons_of_pos (by simpa using hm), List.lookup_cons, List.lookup_cons, ih]
      by_cases hx : x = m
      · simp [hx, hm]
      · simp [beq_false_of_ne hx]

theorem filter_ne_of_not_mem {entries : List (String × α)} (h : name ∉ entries.map (·.1)) :
    entries.filter (·.1 ≠ name) = entries := by
  refine List.filter_eq_self.mpr fun e he => decide_eq_true ?_
  rintro rfl
  exact h (List.mem_map_of_mem he)

/-- Where names are distinct, no entry of the name is left. -/
theorem remove?_of_get? (hd : d.Distinct) (h : d.get? name = some v) :
    d.remove? name = some (v, ⟨d.entries.filter (·.1 ≠ name)⟩) := by
  obtain ⟨before, after, rfl, hb⟩ := split_of_get? h
  have hnd : (before.map (·.1) ++ name :: after.map (·.1)).Nodup := by
    simpa [Distinct, names] using hd
  have ha : name ∉ after.map (·.1) := (List.nodup_cons.mp (List.nodup_append.mp hnd).2.1).1
  rw [remove?_of_split hb, List.filter_append, List.filter_cons_of_neg (by simp),
    filter_ne_of_not_mem hb, filter_ne_of_not_mem ha]

end Dict

namespace Tree

variable {α : Type} {t : Tree} {v w u u' old root : Value} {k k' : Key} {path c p : Path}
  {e : TreeError} {done : Edited α}

/-! ## Reading on below an edited container -/

/-- Reading along a path goes on from wherever its first part leads. -/
theorem resolveFrom_append (h : t.resolveFrom v path p = .ok w) (q : Path) :
    t.resolveFrom v path (p ++ q) = t.resolveFrom w (path ++ p) q := by
  induction p generalizing v path with
  | nil =>
    obtain rfl : v = w := Except.ok.inj h
    rw [List.nil_append, List.append_nil]
  | cons key p ih =>
    rw [resolveFrom] at h
    rw [List.cons_append, resolveFrom]
    cases hx : t.child v path key with
    | error e =>
      rw [hx] at h
      cases h
    | ok x =>
      rw [hx] at h
      have hrest := ih (show t.resolveFrom x (path ++ [key]) p = .ok w from h)
      rw [List.append_assoc] at hrest
      exact hrest

theorem Alters.resolve_container (halt : t.Alters root c u u' done) :
    done.tree.resolve done.root c = .ok u' := by
  have hover := halt.along u' [] .here
  rw [List.append_nil] at hover
  exact hover.resolveFrom []

/-- What stood in the container reads the same in both trees. -/
theorem Alters.agree_child (halt : t.Alters root c u u' done) (hres : t.resolve root c = .ok u)
    (hw : t.child u path k = .ok w) : Agree t done.tree w := by
  refine halt.off (c ++ [k]) w (fun hp => ?_) ?_
  · have hlen := hp.length_le
    simp at hlen
  · exact resolve_append_eq_ok.mpr ⟨u, hres, resolve_of_child hw (resolve_nil t w)⟩

/-- Under a key where the container has the same as before, every path reads as before. -/
theorem Alters.resolve_kept (halt : t.Alters root c u u' done) (hres : t.resolve root c = .ok u)
    (hk : done.tree.child u' c k = t.child u c k) (r : Path) :
    done.tree.resolve done.root (c ++ k :: r) = t.resolve root (c ++ k :: r) := by
  have hnew := resolveFrom_append halt.resolve_container (k :: r)
  have hold := resolveFrom_append hres (k :: r)
  rw [resolve, resolve, hnew, hold, List.nil_append, resolveFrom, resolveFrom, hk]
  cases hw : t.child u c k with
  | error e => rfl
  | ok w => exact halt.agree_child hres hw (c ++ [k]) r

/-- Under a key where it has what stood under another, a path is found if it was found there. -/
theorem Alters.resolve_moved (halt : t.Alters root c u u' done) (hres : t.resolve root c = .ok u)
    (hk : ∀ w, done.tree.child u' [] k = .ok w ↔ t.child u [] k' = .ok w) (r : Path) (x : Value) :
    done.tree.resolve done.root (c ++ k :: r) = .ok x ↔ t.resolve root (c ++ k' :: r) = .ok x := by
  have hnew := resolveFrom_append halt.resolve_container (k :: r)
  have hold := resolveFrom_append hres (k' :: r)
  rw [resolve, resolve, hnew, hold, List.nil_append, resolveFrom_eq_ok, resolveFrom_eq_ok, resolve,
    resolve, resolveFrom_cons_eq_ok, resolveFrom_cons_eq_ok]
  refine exists_congr fun w => ?_
  rw [hk]
  refine and_congr_right fun hw => ?_
  rw [halt.agree_child hres hw, resolveFrom_eq_ok, resolveFrom_eq_ok]

/-- A path that leads neither to the container nor through it reads as before. -/
theorem Alters.resolve_elsewhere (halt : t.Alters root c u u' done) {q : Path} (hq : ¬ q <+: c)
    (hq' : ¬ c <+: q) : done.tree.resolve done.root q = t.resolve root q := by
  have hover := halt.along u' [] .here
  rw [List.append_nil] at hover
  exact hover.resolveFrom_elsewhere halt.off hq hq' []

/-! ## One entry -/

theorem child_list_eraseIdx {t' : Tree} (items : List Value) {i j : Nat} (hj : i ≤ j) (w : Value) :
    t'.child (.list (items.eraseIdx i)) [] (.index j) = .ok w ↔
      t.child (.list items) [] (.index (j + 1)) = .ok w := by
  simp only [child_list, List.getElem?_eraseIdx, if_neg (Nat.not_lt.mpr hj)]
  cases items[j + 1]? <;> simp

theorem eraseEntry_missing (hu : u.asNode? = none) (h : t.child u path k = .error e) :
    ∃ e, Value.eraseEntry c k u = .error e ∧ e.isAddress := by
  have missing : ∀ length, (missingEntry c k length).isAddress := by
    intro length
    cases k <;> rfl
  cases u with
  | list items =>
    cases k with
    | name name => exact ⟨_, rfl, missing items.length⟩
    | index i =>
      cases hi : items[i]? with
      | none => exact ⟨_, by simp [Value.eraseEntry, hi], missing items.length⟩
      | some w => simp [child_list, hi] at h
  | map d =>
    cases k with
    | index i => exact ⟨_, rfl, missing d.size⟩
    | name name =>
      cases hw : d.get? name with
      | none =>
        have hgone := Dict.remove?_of_not_mem (Dict.not_mem_names_of_get? hw)
        exact ⟨_, by simp [Value.eraseEntry, Key.asName?, hgone], missing d.size⟩
      | some w => simp [child_map, Key.asName?, hw] at h
  | node id => cases hu
  | null => exact ⟨_, rfl, rfl⟩
  | bool b => exact ⟨_, rfl, rfl⟩
  | int i => exact ⟨_, rfl, rfl⟩
  | text s => exact ⟨_, rfl, rfl⟩

/-! ## Erasing -/

theorem erase_append (t : Tree) (root : Value) (c : Path) (k : Key) :
    t.erase root (c ++ [k]) =
      t.editContainer root c (fun n => .error (.fixedField n.kind.name k.text))
        (Value.eraseEntry c k) := by
  simp [erase, Path.splitLast?]

/-- The list at `c` lost the item at `i`: paths through the items before it stay, paths through the
items behind it move down by one, and there are no others. -/
structure LostItem (t : Tree) (root : Value) (c : Path) (items : List Value) (i : Nat)
    (done : Edited Value) : Prop where
  container : done.tree.resolve done.root c = .ok (.list (items.eraseIdx i))
  before : ∀ j < i, ∀ r,
    done.tree.resolve done.root (c ++ .index j :: r) = t.resolve root (c ++ .index j :: r)
  behind : ∀ j ≥ i, ∀ r x, done.tree.resolve done.root (c ++ .index j :: r) = .ok x ↔
    t.resolve root (c ++ .index (j + 1) :: r) = .ok x

/-- The map at `c` lost a name: nothing is found under it, and the other entries keep their order
and whatever is found under them. -/
structure LostName (t : Tree) (root : Value) (c : Path) (d : Dict Value) (name : String)
    (done : Edited Value) : Prop where
  container : done.tree.resolve done.root c = .ok (.map ⟨d.entries.filter (·.1 ≠ name)⟩)
  gone : ∀ r x, done.tree.resolve done.root (c ++ .name name :: r) ≠ .ok x
  beside : ∀ k, k ≠ .name name → ∀ r,
    done.tree.resolve done.root (c ++ k :: r) = t.resolve root (c ++ k :: r)

/-- What erasing the entry `k` of the container at `c` leaves. -/
structure Erased (t : Tree) (root : Value) (c : Path) (k : Key) (done : Edited Value) : Prop where
  /-- The answer is what stood at the path. -/
  answer : t.resolve root (c ++ [k]) = .ok done.answer
  list : ∀ items, t.resolve root c = .ok (.list items) →
    ∃ i, k = .index i ∧ t.LostItem root c items i done
  map : ∀ d, t.resolve root c = .ok (.map d) →
    ∃ name, k = .name name ∧ t.LostName root c d name done
  /-- A path that parts from the one to the container finds the same, or fails in the same way. -/
  elsewhere : ∀ q, ¬ q <+: c → ¬ c <+: q → done.tree.resolve done.root q = t.resolve root q
  /-- A root in the tree is still the same node. -/
  root_node : ∀ id, root = .node id → done.root = .node id
  records : t.SameRecords done.tree
  kinds : ∀ x, (done.tree.get? x).map Node.kind = (t.get? x).map Node.kind

/-- Erasing changes no node's kind. -/
theorem kind_of_erase {done : Edited Value} (h : t.erase root p = .ok done) (x : NodeId) :
    (done.tree.get? x).map Node.kind = (t.get? x).map Node.kind := by
  rcases written_of_erase h with heq | hw
  · rw [heq]
  · exact hw.kinds x

theorem resolve_entry (hres : t.resolve root c = .ok u) (hold : t.child u [] k = .ok old) :
    t.resolve root (c ++ [k]) = .ok old :=
  resolve_append_eq_ok.mpr ⟨u, hres, resolve_of_child hold (resolve_nil t old)⟩

/-- An entry that can be taken out of its container is erased there. -/
theorem erase_altered (hs : t.Unshared root) (hres : t.resolve root c = .ok u)
    (hu : u.asNode? = none) (hentry : Value.eraseEntry c k u = .ok (old, u')) :
    ∃ done, t.erase root (c ++ [k]) = .ok done ∧ done.answer = old ∧ t.Alters root c u u' done := by
  rw [erase_append]
  exact editContainer_value hs hres hu hentry

theorem erase_item {items : List Value} {i : Nat} (hs : t.Unshared root)
    (hres : t.resolve root c = .ok (.list items)) (hi : items[i]? = some old) :
    ∃ done, t.erase root (c ++ [.index i]) = .ok done ∧ t.Erased root c (.index i) done := by
  have hentry : Value.eraseEntry c (.index i) (.list items) =
      .ok (old, .list (items.eraseIdx i)) := by
    simp [Value.eraseEntry, hi]
  obtain ⟨done, hok, rfl, halt⟩ := erase_altered hs hres rfl hentry
  have hlost : t.LostItem root c items i done := by
    refine ⟨halt.resolve_container, fun j hj r => halt.resolve_kept hres ?_ r,
      fun j hj r x => halt.resolve_moved hres (child_list_eraseIdx items hj) r x⟩
    obtain ⟨hlt, -⟩ := List.getElem?_eq_some_iff.mp hi
    simp [child_list, List.getElem?_eraseIdx, hj, hj.trans hlt]
  refine ⟨done, hok, resolve_entry hres (by simp [child_list, hi]), ?_, ?_,
    fun q => halt.resolve_elsewhere, halt.root_node, sameRecords_of_erase hok, kind_of_erase hok⟩
  · intro items' hitems
    cases hres.symm.trans hitems
    exact ⟨i, rfl, hlost⟩
  · intro d hd
    cases hres.symm.trans hd

theorem erase_member {d : Dict Value} {name : String} (hs : t.Unshared root)
    (hres : t.resolve root c = .ok (.map d)) (hd : d.Distinct) (hv : d.get? name = some old) :
    ∃ done, t.erase root (c ++ [.name name]) = .ok done ∧ t.Erased root c (.name name) done := by
  have hentry : Value.eraseEntry c (.name name) (.map d) =
      .ok (old, .map ⟨d.entries.filter (·.1 ≠ name)⟩) := by
    simp [Value.eraseEntry, Key.asName?, Dict.remove?_of_get? hd hv]
  obtain ⟨done, hok, rfl, halt⟩ := erase_altered hs hres rfl hentry
  have hlost : t.LostName root c d name done := by
    refine ⟨halt.resolve_container, fun r x hx => ?_, fun k hk r => halt.resolve_kept hres ?_ r⟩
    · obtain ⟨u, hu, hrest⟩ := resolve_append_eq_ok.mp hx
      cases halt.resolve_container.symm.trans hu
      obtain ⟨w, -, hw, -⟩ := resolve_cons_eq_ok.mp hrest
      simp only [child_map, Key.asName?, Option.bind_some, Dict.get?_filter_ne, if_pos] at hw
      cases hw
    · cases k with
      | index j => rfl
      | name x =>
        have hx : x ≠ name := by
          rintro rfl
          exact hk rfl
        simp only [child_map, Key.asName?, Option.bind_some, Dict.get?_filter_ne, if_neg hx]
  refine ⟨done, hok, resolve_entry hres (by simp [child_map, Key.asName?, hv]), ?_, ?_,
    fun q => halt.resolve_elsewhere, halt.root_node, sameRecords_of_erase hok, kind_of_erase hok⟩
  · intro items hitems
    cases hres.symm.trans hitems
  · intro d' hd'
    cases hres.symm.trans hd'
    exact ⟨name, rfl, hlost⟩

/-- An entry of a list or map that is found can be erased. -/
theorem erase_found (hs : t.Unshared root) (hd : ∀ d, t.resolve root c = .ok (.map d) → d.Distinct)
    (hres : t.resolve root c = .ok u) (hu : u.asNode? = none) (hold : t.child u path k = .ok old) :
    ∃ done, t.erase root (c ++ [k]) = .ok done ∧ t.Erased root c k done := by
  rcases child_plain hu hold with ⟨items, i, rfl, rfl, hi⟩ | ⟨d, name, rfl, rfl, hv⟩
  · exact erase_item hs hres hi
  · exact erase_member hs hres (hd d hres) hv

/-- Where there is none, or it is a field, erasing fails. -/
theorem erase_refused
    (h : ¬ ((∃ x, t.resolve root (c ++ [k]) = .ok x) ∧ ∀ id, t.resolve root c ≠ .ok (.node id))) :
    ∃ e, t.erase root (c ++ [k]) = .error e ∧ (e.isAddress ∨ ∃ id n,
      t.resolve root c = .ok (.node id) ∧ t.get? id = some n ∧
        e = .fixedField n.kind.name k.text) := by
  rw [erase_append]
  cases hres : t.resolve root c with
  | error e => exact ⟨e, editContainer_missing hres, .inl (isAddress_of_resolveFrom hres)⟩
  | ok u =>
    cases hu : u.asNode? with
    | some id =>
      obtain rfl := Value.eq_node hu
      cases hn : t.get? id with
      | none => exact ⟨.unknownNode id, editContainer_unknown hres hn, .inl rfl⟩
      | some n => exact ⟨_, editContainer_node hres hn, .inr ⟨id, n, rfl, hn, rfl⟩⟩
    | none =>
      cases hold : t.child u [] k with
      | error e =>
        obtain ⟨e', hentry, he⟩ := eraseEntry_missing (c := c) hu hold
        exact ⟨e', editContainer_value_error hres hu hentry, .inl he⟩
      | ok old =>
        refine absurd ⟨⟨old, resolve_entry hres hold⟩, ?_⟩ h
        rintro id hid
        cases hres.symm.trans hid
        cases hu

/-- Erasing succeeds at an entry that is found in a list or a map, and only there. What it leaves,
if no node is reached in two ways and the map that loses an entry has distinct names, is the tree
without this entry. Where it fails, the path is at fault or names a field, and the tree stays as it
was. -/
theorem erase_removes_one_entry (hs : t.Unshared root) (c : Path)
    (hd : ∀ d, t.resolve root c = .ok (.map d) → d.Distinct) (k : Key) :
    ((∃ done, t.erase root (c ++ [k]) = .ok done) ↔
      (∃ x, t.resolve root (c ++ [k]) = .ok x) ∧ ∀ id, t.resolve root c ≠ .ok (.node id)) ∧
    (∀ done, t.erase root (c ++ [k]) = .ok done → t.Erased root c k done) ∧
    ∀ e, t.erase root (c ++ [k]) = .error e →
      (e.isAddress ∨ ∃ id n, t.resolve root c = .ok (.node id) ∧ t.get? id = some n ∧
        e = .fixedField n.kind.name k.text) ∧
      (Linking.edit (·.erase root (c ++ [k]))).run t = .error e t := by
  by_cases h : (∃ x, t.resolve root (c ++ [k]) = .ok x) ∧ ∀ id, t.resolve root c ≠ .ok (.node id)
  · obtain ⟨⟨x, hx⟩, hnode⟩ := h
    obtain ⟨u, hres, hrest⟩ := resolve_append_eq_ok.mp hx
    obtain ⟨old, -, hold, -⟩ := resolve_cons_eq_ok.mp hrest
    have hu : u.asNode? = none := by
      refine Option.eq_none_iff_forall_ne_some.mpr fun id hid => hnode id ?_
      rw [hres, Value.eq_node hid]
    obtain ⟨done, hok, herased⟩ := erase_found hs hd hres hu hold
    refine ⟨⟨fun _ => ⟨⟨x, hx⟩, hnode⟩, fun _ => ⟨done, hok⟩⟩, ?_, ?_⟩
    · intro done' hok'
      rwa [← Except.ok.inj (hok.symm.trans hok')]
    · intro e herr
      cases hok.symm.trans herr
  · obtain ⟨e, herr, he⟩ := erase_refused h
    refine ⟨⟨?_, fun h' => absurd h' h⟩, ?_, ?_⟩
    · rintro ⟨done, hok⟩
      cases herr.symm.trans hok
    · intro done hok
      cases herr.symm.trans hok
    · intro e' herr'
      obtain rfl : e = e' := Except.error.inj (herr.symm.trans herr')
      exact ⟨he, Linking.run_edit_error herr⟩

/-- A shelf with a box behind a number in a list, and a leaf among its tags. -/
def shelf : Tree where
  nodes := #[
    { kind := ⟨"Leaf", []⟩, fields := [], arity := Node.arity_leaf },
    { kind := ⟨"Box", ["label"]⟩, fields := [.list [.text "a", .text "b"]], arity := rfl },
    { kind := ⟨"Shelf", ["boxes", "tags"]⟩, arity := rfl,
      fields := [.list [.int 1, .node ⟨1⟩],
        .map ⟨[("x", .int 1), ("y", .null), ("z", .node ⟨0⟩)]⟩] }]

/-- The shelf stands in a list outside the tree. Without the number a path into the box moves down;
without the middle tag the others keep their order. -/
theorem erase_removes_one_entry_shelf :
    shelf.Unshared (.list [.null, .node ⟨2⟩]) ∧
    (∃ done, shelf.erase (.list [.null, .node ⟨2⟩]) [.index 1, .name "boxes", .index 0] = .ok done ∧
      done.tree.resolve done.root [.index 1, .name "boxes", .index 0, .name "label", .index 1] =
        .ok (.text "b") ∧
      ∀ x, done.tree.resolve done.root [.index 1, .name "boxes", .index 1] ≠ .ok x) ∧
    ∃ done, shelf.erase (.list [.null, .node ⟨2⟩]) [.index 1, .name "tags", .name "y"] = .ok done ∧
      done.answer = .null ∧
      done.tree.resolve done.root [.index 1, .name "tags"] =
        .ok (.map ⟨[("x", .int 1), ("z", .node ⟨0⟩)]⟩) ∧
      done.tree.resolve done.root [.index 0] = .ok .null := by
  have hf : shelf.Forest := Descending.forest (by decide) (by decide)
  have hs : shelf.Unshared (.list [.null, .node ⟨2⟩]) := by
    refine hf.unshared (by decide) ?_
    intro a ha b hb
    have hsame : ∀ x ∈ (Value.list [.null, .node ⟨2⟩]).held, x = ⟨2⟩ := by decide
    rw [hsame a ha, hsame b hb]
    exact hf.acyclic ⟨2⟩
  have hlist : shelf.resolve (.list [.null, .node ⟨2⟩]) [.index 1, .name "boxes"] =
      .ok (.list [.int 1, .node ⟨1⟩]) := by decide
  have hmap : shelf.resolve (.list [.null, .node ⟨2⟩]) [.index 1, .name "tags"] =
      .ok (.map ⟨[("x", .int 1), ("y", .null), ("z", .node ⟨0⟩)]⟩) := by decide
  refine ⟨hs, ?_, ?_⟩
  · obtain ⟨hiff, hdone, -⟩ := erase_removes_one_entry hs [.index 1, .name "boxes"]
      (fun d hd => by cases hlist.symm.trans hd) (.index 0)
    obtain ⟨done, hok⟩ := hiff.mpr
      ⟨⟨.int 1, by decide⟩, fun id hid => by cases hlist.symm.trans hid⟩
    obtain ⟨i, hi, hlost⟩ := (hdone done hok).list _ hlist
    cases hi
    refine ⟨done, hok, (hlost.behind 0 le_rfl [.name "label", .index 1] _).mpr (by decide), ?_⟩
    intro x hx
    have hgone := (hlost.behind 1 (by decide) [] x).mp hx
    cases hgone
  · obtain ⟨hiff, hdone, -⟩ := erase_removes_one_entry hs [.index 1, .name "tags"]
      (fun d hd => by cases hmap.symm.trans hd; decide) (.name "y")
    obtain ⟨done, hok⟩ := hiff.mpr
      ⟨⟨.null, by decide⟩, fun id hid => by cases hmap.symm.trans hid⟩
    have herased := hdone done hok
    obtain ⟨name, hname, hlost⟩ := herased.map _ hmap
    cases hname
    refine ⟨done, hok, ?_, hlost.container, ?_⟩
    · exact (Except.ok.inj ((show _ = .ok .null by decide).symm.trans herased.answer)).symm
    · exact (herased.elsewhere [.index 0] (by decide) (by decide)).trans (by decide)

end Tree

end Trellis
