import Trellis.Proofs.Overwriting

/-!
# Assigning writes one position

Reading follows a path key by key. Writing goes another way: it first follows the path to find the
last node on it, and then descends once more from the field of that node, or from the root if there
is no node, through lists and maps only. The two meet at the same place. After a write the path reads
back what was written, and every path that parts from it reads what it read before, down to the error.

The written node is one that the path passes through. A path that parts from the written one could
still come upon this node if the node were reached in two ways, so no node may be.
-/

namespace Trellis

namespace Tree

variable {t : Tree} {v w u u' new root : Value} {key last : Key} {keys rest : List Key}
  {id : NodeId} {n : Node} {path parent stem : Path} {e : TreeError}

/-! ## The last node on the way -/

/-- Keys lead from a value through lists and maps, where reading goes on. -/
inductive Inside (t : Tree) : Value → List Key → Value → Prop where
  | here (v : Value) : Inside t v [] v
  | step {v w u : Value} {key : Key} {rest : List Key} : v.asNode? = none →
    t.child v [] key = .ok w → Inside t w rest u → Inside t v (key :: rest) u

theorem Inside.asNode? (h : t.Inside v keys u) (hu : u.asNode? = none) : v.asNode? = none := by
  cases h with
  | here v => exact hu
  | step hv _ _ => exact hv

/-- A path that is not found has no last node either, and the error is the same. -/
theorem anchorFrom_error (h : t.resolveFrom v path keys = .error e) :
    t.anchorFrom v path keys = .error e := by
  induction keys generalizing v path with
  | nil => cases h
  | cons key rest ih =>
    rw [resolveFrom] at h
    rw [anchorFrom]
    cases hw : t.child v path key with
    | error e' =>
      rw [hw] at h
      obtain rfl : e' = e := Except.error.inj h
      rfl
    | ok w =>
      rw [hw] at h
      have hrest := ih (show t.resolveFrom w (path ++ [key]) rest = .error e from h)
      simp [hrest, bind, Except.bind]

/-- On a path that is found there is a last node, at the end or further up, or none at all. From it on
the path leads through lists and maps. -/
theorem anchorFrom_cases (h : t.resolve v keys = .ok u) (path : Path) :
    (t.anchorFrom v path keys = .ok none ∧ t.Inside v keys u ∧ u.asNode? = none) ∨
    (∃ id, t.anchorFrom v path keys = .ok (some ⟨id, path ++ keys, []⟩) ∧ u = .node id) ∨
    ∃ stem id field rest w, keys = stem ++ field :: rest ∧
      t.anchorFrom v path keys = .ok (some ⟨id, path ++ stem, field :: rest⟩) ∧
      t.resolve v stem = .ok (.node id) ∧ t.child (.node id) [] field = .ok w ∧
      t.Inside w rest u ∧ u.asNode? = none := by
  induction keys generalizing v path with
  | nil =>
    obtain rfl : v = u := Except.ok.inj h
    cases hv : v.asNode? with
    | none => exact .inl ⟨by simp [anchorFrom, hv], .here v, rfl⟩
    | some id => exact .inr (.inl ⟨id, by simp [anchorFrom, hv], Value.eq_node hv⟩)
  | cons key rest ih =>
    obtain ⟨w, -, hw, hrest⟩ := resolve_cons_eq_ok.mp h
    have hw' := child_at hw path
    rcases ih hrest (path ++ [key]) with ⟨ha, hin, hu⟩ | ⟨id, ha, rfl⟩ |
      ⟨stem, id, field, rest', w', rfl, ha, hstem, hfield, hin, hu⟩
    · cases hv : v.asNode? with
      | none =>
        refine .inl ⟨?_, .step hv hw hin, hu⟩
        simp [anchorFrom, hw', ha, hv, bind, Except.bind, pure, Except.pure]
      | some id =>
        obtain rfl := Value.eq_node hv
        refine .inr (.inr ⟨[], id, key, rest, w, rfl, ?_, rfl, hw, hin, hu⟩)
        simp [anchorFrom, hw', ha, hv, bind, Except.bind, pure, Except.pure]
    · refine .inr (.inl ⟨id, ?_, rfl⟩)
      simp [anchorFrom, hw', ha, bind, Except.bind, pure, Except.pure]
    · refine .inr (.inr ⟨key :: stem, id, field, rest', w', rfl, ?_, resolve_of_child hw hstem,
        hfield, hin, hu⟩)
      simp [anchorFrom, hw', ha, bind, Except.bind, pure, Except.pure]

/-! ## Descending once more -/

/-- A step down that meets no node goes into a list or a map. -/
theorem child_plain (hv : v.asNode? = none) (h : t.child v path key = .ok w) :
    (∃ items i, v = .list items ∧ key = .index i ∧ items[i]? = some w) ∨
    ∃ d name, v = .map d ∧ key = .name name ∧ d.get? name = some w := by
  obtain ⟨c, hc, hw⟩ := child_eq_ok.mp h
  cases v with
  | list items =>
    obtain rfl := Option.some.inj hc
    rw [Children.child?_list] at hw
    cases key with
    | index i => exact .inl ⟨items, i, rfl, rfl, hw⟩
    | name name => cases hw
  | map d =>
    obtain rfl := Option.some.inj hc
    rw [Children.child?_map] at hw
    cases key with
    | index i => cases hw
    | name name => exact .inr ⟨d, name, rfl, rfl, hw⟩
  | node id => cases hv
  | null => cases hc
  | bool b => cases hc
  | int i => cases hc
  | text s => cases hc

section Descent

variable {α : Type} {f : Value → Except TreeError (α × Value)} {answer : α}

/-- An edit of the value at the end changes the values on the way along it, and nothing beside
them. -/
theorem Inside.editAt (h : t.Inside v keys u) (hf : f u = .ok (answer, u')) (path : Path) :
    ∃ v', v.editAt f path keys = .ok (answer, v') ∧ ∀ t' new ks,
      Overwrites t t' new ks u u' → Overwrites t t' new (keys ++ ks) v v' := by
  induction h generalizing path with
  | here u => exact ⟨u', hf, fun _ _ _ hover => hover⟩
  | @step v w u key rest hv hw _ ih =>
    obtain ⟨w', hedit, hover⟩ := ih hf (path ++ [key])
    rcases child_plain hv hw with ⟨items, i, rfl, rfl, hi⟩ | ⟨d, name, rfl, rfl, hd⟩
    · refine ⟨.list (items.set i w'), ?_, fun t' new ks hks => ?_⟩
      · simp [Value.editAt, hi, hedit, bind, Except.bind, pure, Except.pure]
      · obtain ⟨hlt, -⟩ := List.getElem?_eq_some_iff.mp hi
        exact .step hw (putAt_list hlt) (hover t' new ks hks)
    · refine ⟨.map (d.insert name w'), ?_, fun t' new ks hks => ?_⟩
      · simp [Value.editAt, hd, hedit, bind, Except.bind, pure, Except.pure]
      · exact .step hw putAt_map (hover t' new ks hks)

theorem Inside.editAt_error (h : t.Inside v keys u) (hf : f u = .error e) (path : Path) :
    v.editAt f path keys = .error e := by
  induction h generalizing path with
  | here u => exact hf
  | @step v w u key rest hv hw _ ih =>
    have hedit := ih hf (path ++ [key])
    rcases child_plain hv hw with ⟨items, i, rfl, rfl, hi⟩ | ⟨d, name, rfl, rfl, hd⟩
    · simp [Value.editAt, hi, hedit, bind, Except.bind]
    · simp [Value.editAt, hd, hedit, bind, Except.bind]

end Descent

theorem get?_of_child (h : t.child (.node id) path key = .ok w) : ∃ n, t.get? id = some n := by
  obtain ⟨c, hc, -⟩ := child_eq_ok.mp h
  obtain ⟨n, hn, -⟩ := Option.map_eq_some_iff.mp hc
  exact ⟨n, hn⟩

theorem namedField?_of_child (hn : t.get? id = some n) (h : t.child (.node id) path key = .ok w) :
    ∃ i, n.namedField? key = some (i, w) := by
  obtain ⟨c, hc, hw⟩ := child_eq_ok.mp h
  obtain ⟨m, hm, rfl⟩ := Option.map_eq_some_iff.mp hc
  obtain rfl : n = m := Option.some.inj (hn.symm.trans hm)
  rw [Node.child?_children] at hw
  obtain ⟨⟨i, w'⟩, hfield, rfl⟩ := Option.map_eq_some_iff.mp hw
  exact ⟨i, hfield⟩

/-! ## The last key -/

/-- What can be written under a key: a field that a known node declares, an entry that a list has, or
any name of a map. -/
def Accepts (t : Tree) (key : Key) : Value → Prop
  | .node id => ∃ n, t.get? id = some n ∧ ∃ name ∈ n.kind.fields, key = .name name
  | .list items => ∃ i < items.length, key = .index i
  | .map _ => ∃ name, key = .name name
  | _ => False

/-- The answer of a write under a key: what stood there, or nothing if it was a new name of a map. -/
def Displaces (t : Tree) (key : Key) (u : Value) : Option Value → Prop
  | some old => t.child u [] key = .ok old
  | none => ∃ d name, u = .map d ∧ key = .name name ∧ name ∉ d.names

theorem child_missing {d : Dict Value} {name : String} (h : name ∉ d.names) (path : Path) :
    t.child (.map d) path (.name name) = .error (.keyNotFound path (.name name)) := by
  have hnone : d.get? name = none := by
    refine Option.eq_none_iff_forall_ne_some.mpr fun v hv => h ?_
    obtain ⟨before, after, rfl, -⟩ := Dict.split_of_get? hv
    simp [Dict.names]
  simp [child_map, Key.asName?, hnone]

theorem Displaces.eq_none_iff {answer : Option Value} (h : t.Displaces key u answer) :
    answer = none ↔ ∃ d name, u = .map d ∧ key = .name name ∧ name ∉ d.names := by
  cases answer with
  | none => exact ⟨fun _ => h, fun _ => rfl⟩
  | some old =>
    constructor
    · intro hnone
      cases hnone
    · rintro ⟨d, name, rfl, rfl, hname⟩
      cases (child_missing hname []).symm.trans h

theorem Displaces.eq_some_iff {answer : Option Value} (h : t.Displaces key u answer)
    (old : Value) : answer = some old ↔ t.child u [] key = .ok old := by
  cases answer with
  | none =>
    obtain ⟨d, name, rfl, rfl, hname⟩ := h
    simp [child_missing hname]
  | some found =>
    have hfound : t.child u [] key = .ok found := h
    rw [hfound, Except.ok.injEq, Option.some.injEq]

theorem accepts_node (hn : t.get? id = some n) :
    t.Accepts key (.node id) ↔ ∃ i old, n.namedField? key = some (i, old) := by
  constructor
  · rintro ⟨m, hm, name, hname, rfl⟩
    obtain rfl : n = m := Option.some.inj (hn.symm.trans hm)
    obtain ⟨i, hi⟩ := Option.isSome_iff_exists.mp (List.isSome_idxOf?.mpr hname)
    obtain ⟨hlt, -⟩ := List.idxOf?_eq_some_iff.mp hi
    rw [← n.arity] at hlt
    exact ⟨i, n.fields[i], Node.namedField?_eq_some.mpr ⟨hi, List.getElem?_eq_getElem hlt⟩⟩
  · rintro ⟨i, old, hfield⟩
    cases key with
    | index j => cases hfield
    | name name =>
      obtain ⟨hi, -⟩ := Node.namedField?_eq_some.mp hfield
      exact ⟨n, hn, name, List.isSome_idxOf?.mp (by simp [hi]), rfl⟩

theorem assignEntry_accepted (hu : u.asNode? = none) (h : t.Accepts key u) (path : Path)
    (new : Value) : ∃ answer u', Value.assignEntry path key new u = .ok (answer, u') ∧
      t.Displaces key u answer ∧ ∀ t', PutAt t t' key new u u' := by
  cases u with
  | list items =>
    obtain ⟨i, hi, rfl⟩ := h
    refine ⟨some items[i], .list (items.set i new), ?_, ?_, fun t' => putAt_list hi⟩
    · simp [Value.assignEntry, hi]
    · simp [Displaces, child_list, hi]
  | map d =>
    obtain ⟨name, rfl⟩ := h
    refine ⟨(d.put name new).1, .map (d.put name new).2, rfl, ?_, fun t' => putAt_map⟩
    cases hv : d.get? name with
    | some v =>
      obtain ⟨before, after, rfl, hb⟩ := Dict.split_of_get? hv
      rw [Dict.put_of_split hb]
      simp [Displaces, child_map, Key.asName?, hv]
    | none =>
      have hnot := Dict.not_mem_names_of_get? hv
      simp only [Dict.put, Dict.set?_of_not_mem hnot]
      exact ⟨d, name, rfl, rfl, hnot⟩
  | node id => cases hu
  | null => cases h
  | bool b => cases h
  | int i => cases h
  | text s => cases h

theorem assignEntry_refused (h : ¬ t.Accepts key u) (hu : u.asNode? = none) (path : Path)
    (new : Value) : ∃ e, Value.assignEntry path key new u = .error e ∧ e.isAddress := by
  cases u with
  | list items =>
    cases key with
    | index i =>
      have hi : items[i]? = none := by
        refine List.getElem?_eq_none_iff.mpr (Nat.not_lt.mp fun hlt => h ?_)
        exact ⟨i, hlt, rfl⟩
      refine ⟨.indexOutOfBounds path i items.length, ?_, rfl⟩
      simp [Value.assignEntry, hi, missingEntry]
    | name name => exact ⟨_, rfl, rfl⟩
  | map d =>
    cases key with
    | index i => exact ⟨_, rfl, rfl⟩
    | name name => exact absurd ⟨name, rfl⟩ h
  | node id => cases hu
  | null => exact ⟨_, rfl, rfl⟩
  | bool b => exact ⟨_, rfl, rfl⟩
  | int i => exact ⟨_, rfl, rfl⟩
  | text s => exact ⟨_, rfl, rfl⟩

/-! ## Forests share nothing -/

theorem path_ne_nil {c : NodeId} (h : (path, c) ∈ n.heldNodes) : path ≠ [] := by
  rw [n.heldNodes_eq_entries] at h
  obtain ⟨e, -, he⟩ := List.mem_flatMap.mp h
  rw [Value.heldNodes_eq_map] at he
  obtain ⟨x, -, hx⟩ := List.mem_map.mp he
  rw [← (Prod.mk.inj hx).1]
  simp

/-- In a forest no node is reached in two ways, from a value that holds every node once and none
below another. -/
theorem Forest.unshared (hf : t.Forest) (hnd : v.held.Nodup)
    (hapart : ∀ a ∈ v.held, ∀ b ∈ v.held, ¬ t.Below a b) : t.Unshared v := by
  -- What the value holds itself is not found again below something else that it holds.
  have top : ∀ {p q : Path} {id a n path}, (p, id) ∈ v.heldNodes [] →
      t.resolve v q = .ok (.node a) → t.get? a = some n → (path, id) ∈ n.heldNodes → False := by
    intro p q id a n path hp hq hn hheld
    obtain ⟨b, hb, hreach⟩ := beneath_of_resolve hq (beneath_node.mpr .refl)
    refine hapart b hb id (List.mem_map_of_mem (f := (·.2)) hp) ?_
    exact Relation.TransGen.tail' hreach ⟨n, hn, List.mem_map_of_mem (f := (·.2)) hheld⟩
  rintro id - p q - hp hq
  induction hlen : p.length using Nat.strong_induction_on generalizing p q id with
  | _ len ih =>
    rcases holder_of_resolve hp with hheld | ⟨a, m, above, path, rfl, habove, hm, hheld⟩
    · rcases holder_of_resolve hq with hheld' | ⟨b, k, above', path', rfl, habove', hk, hheld'⟩
      · exact congrArg Prod.fst (List.inj_on_of_nodup_map hnd hheld hheld' rfl)
      · exact (top hheld habove' hk hheld').elim
    · rcases holder_of_resolve hq with hheld' | ⟨b, k, above', path', rfl, habove', hk, hheld'⟩
      · exact (top hheld' habove hm hheld).elim
      · obtain rfl : a = b := hf.one_holder ⟨m, hm, List.mem_map_of_mem (f := (·.2)) hheld⟩
          ⟨k, hk, List.mem_map_of_mem (f := (·.2)) hheld'⟩
        obtain rfl : m = k := Option.some.inj (hm.symm.trans hk)
        have hpath : path = path' := hf.path_unique hm hheld hheld'
        have hshort : above.length < len := by
          have := List.length_pos_iff.mpr (path_ne_nil hheld)
          rw [List.length_append] at hlen
          omega
        rw [hpath, ih above.length hshort a above above' habove habove' rfl]

/-! ## Editing a container -/

/-- An edit put `u'` in the place of the value `u` at `c`: what is written into the one is written
along `c` from the root, and off this path nothing is seen of the edit. -/
structure Alters {α : Type} (t : Tree) (root : Value) (c : Path) (u u' : Value)
    (done : Edited α) : Prop where
  along : ∀ new ks, Overwrites t done.tree new ks u u' →
    Overwrites t done.tree new (c ++ ks) root done.root
  off : ∀ r w, ¬ r <+: c → t.resolve root r = .ok w → Agree t done.tree w
  root_node : ∀ id, root = .node id → done.root = .node id

section Container

variable {α : Type} {onNode : Node → Except TreeError (α × Node)}
  {onValue : Value → Except TreeError (α × Value)} {answer : α}

/-- A node that is met on one path only is changed along this path. -/
theorem Unshared.alters (hs : t.Unshared root) (hn : t.get? id = some n)
    (hstem : t.resolve root stem = .ok (.node id)) {f : Node → Node}
    (hover : ∀ new ks, Overwrites t (t.update id f) new ks u u' →
      Overwrites t (t.update id f) new (keys ++ ks) (.node id) (.node id)) (answer : α) :
    t.Alters root (stem ++ keys) u u' ⟨t.update id f, root, answer⟩ where
  along := fun new ks hks => by
    rw [List.append_assoc]
    exact (hover new ks hks).from_root hstem fun r hr => hs id n r stem hn hr hstem
  off := fun r w hr hw =>
    hs.agree hn hstem f (fun hp => hr (hp.trans (List.prefix_append stem keys))) hw
  root_node := fun id hid => hid

/-- The value that reading finds is the one that is edited. -/
theorem editContainer_value (hs : t.Unshared root) (hres : t.resolve root parent = .ok u)
    (hu : u.asNode? = none) (hf : onValue u = .ok (answer, u')) :
    ∃ done, t.editContainer root parent onNode onValue = .ok done ∧ done.answer = answer ∧
      t.Alters root parent u u' done := by
  rcases anchorFrom_cases hres [] with ⟨ha, hin, -⟩ | ⟨id, -, rfl⟩ |
    ⟨stem, id, field, rest, w, rfl, ha, hstem, hfield, hin, -⟩
  · obtain ⟨root', hedit, hover⟩ := hin.editAt hf []
    refine ⟨⟨t, root', answer⟩, ?_, rfl, hover t, ?_, ?_⟩
    · simp [editContainer, ha, hedit, bind, Except.bind, pure, Except.pure]
    · intro r w _ _ path q
      rfl
    · rintro id rfl
      cases hin.asNode? hu
  · cases hu
  · obtain ⟨n, hn⟩ := get?_of_child hfield
    obtain ⟨i, hfield'⟩ := namedField?_of_child hn hfield
    obtain ⟨w', hedit, hover⟩ := hin.editAt hf (stem ++ [field])
    have hput : PutAt t (t.update id (·.setField i w')) field w' (.node id) (.node id) := by
      refine putAt_field hn hfield' ?_
      rw [get?_update_self, hn, Option.map_some]
    refine ⟨⟨t.update id (·.setField i w'), root, answer⟩, ?_, rfl, ?_⟩
    · simp [editContainer, ha, get_of_get? hn, hfield', hedit, bind, Except.bind, pure, Except.pure]
    · exact hs.alters hn hstem (fun new ks hks => .step hfield hput (hover _ new ks hks)) answer

theorem editContainer_value_error (hres : t.resolve root parent = .ok u) (hu : u.asNode? = none)
    (hf : onValue u = .error e) : t.editContainer root parent onNode onValue = .error e := by
  rcases anchorFrom_cases hres [] with ⟨ha, hin, -⟩ | ⟨id, -, rfl⟩ |
    ⟨stem, id, field, rest, w, rfl, ha, -, hfield, hin, -⟩
  · simp [editContainer, ha, hin.editAt_error hf, bind, Except.bind]
  · cases hu
  · obtain ⟨n, hn⟩ := get?_of_child hfield
    obtain ⟨i, hfield'⟩ := namedField?_of_child hn hfield
    simp [editContainer, ha, get_of_get? hn, hfield', hin.editAt_error hf, bind, Except.bind]

theorem anchorFrom_node (hres : t.resolve root parent = .ok (.node id)) :
    t.anchorFrom root [] parent = .ok (some ⟨id, parent, []⟩) := by
  rcases anchorFrom_cases hres [] with ⟨-, -, hu⟩ | ⟨id', ha, hid⟩ | ⟨_, _, _, _, _, -, -, -, -, -, hu⟩
  · cases hu
  · cases hid
    exact ha
  · cases hu

theorem editContainer_node (hres : t.resolve root parent = .ok (.node id))
    (hn : t.get? id = some n) : t.editContainer root parent onNode onValue =
      (onNode n).map fun done => ⟨t.update id fun _ => done.2, root, done.1⟩ := by
  simp only [editContainer, anchorFrom_node hres, get_of_get? hn, bind, Except.bind, pure,
    Except.pure]
  cases onNode n <;> rfl

theorem editContainer_unknown (hres : t.resolve root parent = .ok (.node id))
    (hn : t.get? id = none) :
    t.editContainer root parent onNode onValue = .error (.unknownNode id) := by
  simp [editContainer, anchorFrom_node hres, get_of_get?_none hn, bind, Except.bind]

theorem editContainer_missing (hres : t.resolve root parent = .error e) :
    t.editContainer root parent onNode onValue = .error e := by
  rw [editContainer, anchorFrom_error hres]
  rfl

end Container

/-! ## Assigning -/

theorem assign_append (t : Tree) (root : Value) (parent : Path) (last : Key) (new : Value) :
    t.assign root (parent ++ [last]) new =
      t.editContainer root parent (Node.assignField parent last new)
        (Value.assignEntry parent last new) := by
  simp [assign, Path.splitLast?]

/-- What assigning at a path leaves, as the tree answers it. -/
structure Assigned (t : Tree) (root : Value) (p : Path) (new : Value)
    (done : Edited (Option Value)) : Prop where
  written : done.tree.resolve done.root p = .ok new
  /-- The answer is what stood at the path. -/
  displaced : ∀ old, done.answer = some old ↔ t.resolve root p = .ok old
  /-- There is none exactly if the path names no entry of a map. -/
  added : done.answer = none ↔ ∃ parent d name, p = parent ++ [.name name] ∧
    t.resolve root parent = .ok (.map d) ∧ name ∉ d.names
  /-- A path that parts from the written one finds the same, or fails in the same way. -/
  elsewhere : ∀ q, ¬ q <+: p → ¬ p <+: q → done.tree.resolve done.root q = t.resolve root q
  /-- A root in the tree is still the same node. -/
  root_node : ∀ id, root = .node id → done.root = .node id
  records : t.SameRecords done.tree
  kinds : ∀ x, (done.tree.get? x).map Node.kind = (t.get? x).map Node.kind

/-- Where the container at the parent path accepts the last key, assigning succeeds. It writes along
the path, and off the path it is not seen. -/
theorem assign_accepted (hs : t.Unshared root) (hres : t.resolve root parent = .ok u)
    (hacc : t.Accepts last u) (new : Value) :
    ∃ done, t.assign root (parent ++ [last]) new = .ok done ∧
      t.Displaces last u done.answer ∧
      Overwrites t done.tree new (parent ++ [last]) root done.root ∧
      (∀ r u, ¬ r <+: parent ++ [last] → t.resolve root r = .ok u → Agree t done.tree u) ∧
      ∀ id, root = .node id → done.root = .node id := by
  rw [assign_append]
  have hoff : ∀ r : Path, ¬ r <+: parent ++ [last] → ¬ r <+: parent :=
    fun r hr hp => hr (hp.trans (List.prefix_append parent [last]))
  cases hu : u.asNode? with
  | none =>
    obtain ⟨answer, u', hentry, hdisp, hput⟩ := assignEntry_accepted hu hacc parent new
    obtain ⟨done, hok, rfl, halt⟩ := editContainer_value hs hres hu hentry
    exact ⟨done, hok, hdisp, halt.along new [last] (.last (hput done.tree)),
      fun r w hr hw => halt.off r w (hoff r hr) hw, halt.root_node⟩
  | some id =>
    obtain rfl := Value.eq_node hu
    obtain ⟨n, hn, -⟩ := show t.Accepts last (.node id) from hacc
    obtain ⟨i, old, hfield⟩ := (accepts_node hn).mp hacc
    have hput : PutAt t (t.update id fun _ => n.setField i new) last new (.node id) (.node id) := by
      refine putAt_field hn hfield ?_
      rw [get?_update_self, hn, Option.map_some]
    refine ⟨⟨t.update id fun _ => n.setField i new, root, some old⟩, ?_, ?_, ?_, ?_, ?_⟩
    · simp [editContainer_node hres hn, Node.assignField, hfield, Except.map]
    · simp [Displaces, child_node hn, hfield]
    · exact Overwrites.from_root hres (fun r hr => hs id n r parent hn hr hres) (.last hput)
    · exact fun r w hr hw => hs.agree hn hres _ (hoff r hr) hw
    · exact fun id hid => hid

/-- Where it does not accept the key, assigning fails with an address error. -/
theorem assign_refused (hres : t.resolve root parent = .ok u) (hacc : ¬ t.Accepts last u)
    (new : Value) : ∃ e, t.assign root (parent ++ [last]) new = .error e ∧ e.isAddress := by
  rw [assign_append]
  cases hu : u.asNode? with
  | none =>
    obtain ⟨e, hentry, he⟩ := assignEntry_refused hacc hu parent new
    exact ⟨e, editContainer_value_error hres hu hentry, he⟩
  | some id =>
    obtain rfl := Value.eq_node hu
    cases hn : t.get? id with
    | none => exact ⟨.unknownNode id, editContainer_unknown hres hn, rfl⟩
    | some n =>
      have hfield : n.namedField? last = none := by
        refine Option.eq_none_iff_forall_ne_some.mpr ?_
        rintro ⟨i, old⟩ hsome
        exact hacc ((accepts_node hn).mpr ⟨i, old, hsome⟩)
      refine ⟨.keyNotFound parent last, ?_, rfl⟩
      simp [editContainer_node hres hn, Node.assignField, hfield, Except.map]

theorem isAddress_of_resolveFrom (h : t.resolveFrom v path keys = .error e) : e.isAddress := by
  induction keys generalizing v path with
  | nil => cases h
  | cons key rest ih =>
    rw [resolveFrom] at h
    cases hw : t.child v path key with
    | error e' =>
      rw [hw] at h
      obtain rfl : e' = e := Except.error.inj h
      exact isAddress_of_child hw
    | ok w =>
      rw [hw] at h
      exact ih (show t.resolveFrom w (path ++ [key]) rest = .error e from h)

theorem Written.kinds {inserted : List NodeId} {t' : Tree} (h : t.Written root inserted t')
    (x : NodeId) : (t'.get? x).map Node.kind = (t.get? x).map Node.kind := by
  obtain ⟨id, n, i, w, -, -, rfl, -⟩ := h
  rw [get?_update]
  split
  · rw [Option.map_map]
    rfl
  · rfl

/-- Assigning changes no node's kind. -/
theorem kind_of_assign {p : Path} {done : Edited (Option Value)}
    (h : t.assign root p new = .ok done) (x : NodeId) :
    (done.tree.get? x).map Node.kind = (t.get? x).map Node.kind := by
  rcases written_of_assign h with heq | hw
  · rw [heq]
  · exact hw.kinds x

/-- What a write along the path leaves, read off from the root. -/
theorem assigned_of_overwrites {done : Edited (Option Value)}
    (hok : t.assign root (parent ++ [last]) new = .ok done)
    (hres : t.resolve root parent = .ok u) (hdisp : t.Displaces last u done.answer)
    (hover : Overwrites t done.tree new (parent ++ [last]) root done.root)
    (hoff : ∀ r u, ¬ r <+: parent ++ [last] → t.resolve root r = .ok u → Agree t done.tree u)
    (hnode : ∀ id, root = .node id → done.root = .node id) :
    t.Assigned root (parent ++ [last]) new done := by
  have hread : ∀ old, t.resolve root (parent ++ [last]) = .ok old ↔
      t.child u [] last = .ok old := by
    intro old
    rw [resolve_append_eq_ok]
    constructor
    · rintro ⟨w, hw, hold⟩
      obtain rfl : u = w := Except.ok.inj (hres.symm.trans hw)
      obtain ⟨x, -, hx, hxold⟩ := resolve_cons_eq_ok.mp hold
      rwa [← Except.ok.inj hxold]
    · intro hold
      exact ⟨u, hres, resolve_of_child hold (resolve_nil t old)⟩
  refine ⟨hover.resolveFrom [], fun old => (hdisp.eq_some_iff old).trans (hread old).symm, ?_,
    fun q hq hq' => hover.resolveFrom_elsewhere hoff hq hq' [], hnode, sameRecords_of_assign hok,
    kind_of_assign hok⟩
  rw [hdisp.eq_none_iff]
  constructor
  · rintro ⟨d, name, rfl, rfl, hname⟩
    exact ⟨parent, d, name, rfl, hres, hname⟩
  · rintro ⟨parent', d, name, hpath, hd, hname⟩
    obtain ⟨rfl, hlast⟩ := List.append_inj' hpath rfl
    exact ⟨d, name, Except.ok.inj (hres.symm.trans hd), List.singleton_inj.mp hlast, hname⟩

/-- `p` names a place that can be written: the value above it is found and accepts the last key. -/
def Assignable (t : Tree) (root : Value) (p : Path) : Prop :=
  ∃ parent last u, p = parent ++ [last] ∧ t.resolve root parent = .ok u ∧ t.Accepts last u

theorem assignable_append :
    t.Assignable root (parent ++ [last]) ↔ ∃ u, t.resolve root parent = .ok u ∧ t.Accepts last u := by
  constructor
  · rintro ⟨parent', last', u, heq, hu, hacc⟩
    obtain ⟨rfl, hlast⟩ := List.append_inj' heq rfl
    rw [← List.singleton_inj.mp hlast] at hacc
    exact ⟨u, hu, hacc⟩
  · rintro ⟨u, hu, hacc⟩
    exact ⟨parent, last, u, rfl, hu, hacc⟩

theorem assign_unassignable {p : Path} (h : ¬ t.Assignable root p) (new : Value) :
    ∃ e, t.assign root p new = .error e ∧ e.isAddress := by
  rcases List.eq_nil_or_concat' p with rfl | ⟨parent, last, rfl⟩
  · exact ⟨.emptyPath, rfl, rfl⟩
  · rw [assignable_append] at h
    cases hres : t.resolve root parent with
    | error e =>
      refine ⟨e, ?_, isAddress_of_resolveFrom hres⟩
      rw [assign_append, editContainer_missing hres]
    | ok u => exact assign_refused hres (fun hacc => h ⟨u, hres, hacc⟩) new

/-- Assigning succeeds at a path whose parent is found and accepts the last key, and only there. What
it leaves, if no node is reached in two ways, is the tree with the one position written. Where it
fails, the path is at fault and the tree stays as it was. -/
theorem assign_writes_one_position (hs : t.Unshared root) (p : Path) (new : Value) :
    ((∃ done, t.assign root p new = .ok done) ↔ t.Assignable root p) ∧
    (∀ done, t.assign root p new = .ok done → t.Assigned root p new done) ∧
    ∀ e, t.assign root p new = .error e →
      e.isAddress ∧ (Linking.edit (·.assign root p new)).run t = .error e t := by
  by_cases h : t.Assignable root p
  · obtain ⟨parent, last, u, rfl, hres, hacc⟩ := show t.Assignable root p from h
    obtain ⟨done, hok, hdisp, hover, hoff, hnode⟩ := assign_accepted hs hres hacc new
    refine ⟨⟨fun _ => h, fun _ => ⟨done, hok⟩⟩, ?_, ?_⟩
    · intro done' hok'
      obtain rfl : done = done' := Except.ok.inj (hok.symm.trans hok')
      exact assigned_of_overwrites hok hres hdisp hover hoff hnode
    · intro e herr
      rw [hok] at herr
      cases herr
  · obtain ⟨e, herr, he⟩ := assign_unassignable h new
    refine ⟨⟨?_, fun h' => absurd h' h⟩, ?_, ?_⟩
    · rintro ⟨done, hok⟩
      rw [herr] at hok
      cases hok
    · intro done hok
      rw [herr] at hok
      cases hok
    · intro e' herr'
      obtain rfl : e = e' := Except.error.inj (herr.symm.trans herr')
      exact ⟨he, Linking.run_edit_error herr⟩

/-- A record that holds a leaf in a map and stands at a place that is not there. -/
def recordInList : Tree where
  nodes := #[
    { kind := ⟨"Leaf", []⟩, fields := [], arity := Node.arity_leaf },
    { kind := ⟨"Record", ["title", "parts"]⟩, fields := [.int 7, .map ⟨[("x", .node ⟨0⟩)]⟩],
      arity := rfl, attachment := some ⟨⟨7⟩, [.index 3]⟩, next := .absent }]

/-- A new name in a map of a node that stands in a list outside the tree. -/
theorem assign_writes_one_position_recordInList :
    recordInList.Unshared (.list [.int 5, .node ⟨1⟩]) ∧ ∃ done,
      recordInList.assign (.list [.int 5, .node ⟨1⟩]) [.index 1, .name "parts", .name "y"]
        (.bool true) = .ok done ∧
      done.tree.resolve done.root [.index 1, .name "parts", .name "y"] = .ok (.bool true) ∧
      done.answer = none ∧
      done.tree.resolve done.root [.index 1, .name "parts", .name "x"] = .ok (.node ⟨0⟩) ∧
      done.tree.resolve done.root [.index 4, .name "z"] = .error (.indexOutOfBounds [] 4 2) := by
  have hf : recordInList.Forest := Descending.forest (by decide) (by decide)
  have hs : recordInList.Unshared (.list [.int 5, .node ⟨1⟩]) := by
    refine hf.unshared (by decide) ?_
    intro a ha b hb
    have hsame : ∀ x ∈ (Value.list [.int 5, .node ⟨1⟩]).held, x = ⟨1⟩ := by decide
    rw [hsame a ha, hsame b hb]
    exact hf.acyclic ⟨1⟩
  obtain ⟨hiff, hdone, -⟩ :=
    assign_writes_one_position hs [.index 1, .name "parts", .name "y"] (.bool true)
  obtain ⟨done, hok⟩ := hiff.mpr
    ⟨[.index 1, .name "parts"], .name "y", .map ⟨[("x", .node ⟨0⟩)]⟩, rfl, by decide, "y", rfl⟩
  have hassigned := hdone done hok
  refine ⟨hs, done, hok, hassigned.written, ?_, ?_, ?_⟩
  · exact hassigned.added.mpr
      ⟨[.index 1, .name "parts"], ⟨[("x", .node ⟨0⟩)]⟩, "y", rfl, by decide, by decide⟩
  · exact (hassigned.elsewhere _ (by decide) (by decide)).trans (by decide)
  · exact (hassigned.elsewhere _ (by decide) (by decide)).trans (by decide)

end Tree

end Trellis
