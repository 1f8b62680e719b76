import Trellis.Proofs.Writing

/-!
# Reading after a write

`Tree.Overwrites` compares two trees along one path: at every key of it one child was put in place of
another, and what stands under the other keys is as it was, or is missing with the same error. The path
then reads back what was written. A path that parts from it reads on in a value that was there before,
and finds the same in both trees if they agree below that value.

Where the trees differ in one node only, they agree wherever this node is not reached. No names need to
be distinct here: reading and writing both act on the first entry of a name.
-/

namespace Trellis

/-! ## Looking up by key -/

theorem Children.child?_list (items : List Value) (key : Key) :
    (Children.list items).child? key = key.asIndex?.bind fun i => items[i]? := by
  cases key with
  | name n => rfl
  | index i =>
    by_cases hi : i < items.length
    · simp [child?, position?, valueAt?, hi, Key.asIndex?]
    · simp [child?, position?, hi, Key.asIndex?]

theorem Children.child?_map (d : Dict Value) (key : Key) :
    (Children.map d).child? key = key.asName?.bind d.get? := by
  cases key with
  | index i => rfl
  | name n =>
    cases hv : d.get? n with
    | none =>
      have hpos : d.names.idxOf? n = none :=
        List.idxOf?_eq_none_iff.mpr (Dict.not_mem_names_of_get? hv)
      simp [child?, position?, Dict.position?, hpos, Key.asName?, hv]
    | some v =>
      obtain ⟨before, after, rfl, hb⟩ := Dict.split_of_get? hv
      have hpos : (Dict.mk (before ++ (n, v) :: after)).names.idxOf? n = some before.length := by
        refine List.idxOf?_eq_some_iff.mpr ⟨by simp [Dict.names], by simp [Dict.names], ?_⟩
        intro j hj hjn
        refine hb ?_
        have hlt : j < (before.map (·.1)).length := by simpa using hj
        simp only [Dict.names, List.map_append, List.getElem_append_left hlt] at hjn
        exact hjn ▸ List.getElem_mem hlt
      simp [child?, position?, Dict.position?, hpos, valueAt?, Dict.entryAt?, Key.asName?, hv]

theorem Node.child?_children (n : Node) (key : Key) :
    n.children.child? key = (n.namedField? key).map (·.2) := by
  cases key with
  | index i => rfl
  | name name =>
    cases hi : n.kind.fields.idxOf? name with
    | none =>
      simp [children, Children.child?, Children.position?, namedField?, fieldPosition?, Key.asName?,
        hi]
    | some i =>
      have hlt : i < n.fields.length := by
        obtain ⟨h, -⟩ := List.idxOf?_eq_some_iff.mp hi
        rwa [n.arity]
      simp [children, Children.child?, Children.position?, Children.valueAt?, namedField?,
        fieldPosition?, Key.asName?, hi, hlt, Option.filter]

theorem Dict.get?_put {α : Type} (d : Dict α) (name x : String) (w : α) :
    (d.put name w).2.get? x = if x = name then some w else d.get? x := by
  cases hv : d.get? name with
  | none =>
    have hnot := Dict.not_mem_names_of_get? hv
    have hput : d.put name w = (none, ⟨d.entries ++ [(name, w)]⟩) := by
      simp [put, set?_of_not_mem hnot]
    rw [hput, get?, List.lookup_append]
    by_cases hx : x = name
    · subst hx
      have hlookup : d.entries.lookup x = none := hv
      simp [hlookup]
    · simp [hx, get?, List.lookup_cons, beq_false_of_ne hx]
  | some v =>
    obtain ⟨before, after, rfl, hb⟩ := Dict.split_of_get? hv
    rw [put_of_split hb]
    by_cases hx : x = name
    · subst hx
      rw [if_pos rfl, get?_of_split hb]
    · simp [get?, List.lookup_append, List.lookup_cons, hx, beq_false_of_ne hx]

theorem Node.namedField?_setField (n : Node) {key : Key} {i : Nat} {v : Value}
    (h : n.namedField? key = some (i, v)) (k : Key) (w : Value) :
    (n.setField i w).namedField? k = if k = key then some (i, w) else n.namedField? k := by
  have hnone : ∀ (m : Node) (j : Nat), m.namedField? (.index j) = none := fun _ _ => rfl
  cases key with
  | index j =>
    rw [hnone] at h
    cases h
  | name name =>
    obtain ⟨hidx, hv⟩ := namedField?_eq_some.mp h
    obtain ⟨hi, hname, -⟩ := List.idxOf?_eq_some_iff.mp hidx
    obtain ⟨hlt, -⟩ := List.getElem?_eq_some_iff.mp hv
    cases k with
    | index j => simp [hnone]
    | name x =>
      by_cases hx : x = name
      · subst hx
        rw [if_pos rfl]
        exact namedField?_eq_some.mpr ⟨hidx, by simp [setField, hlt]⟩
      · rw [if_neg (by simpa using hx)]
        -- The first field called `x` is another one, since a position has one name.
        have hother : ∀ j, n.kind.fields.idxOf? x = some j →
            (n.fields.set i w)[j]? = n.fields[j]? := by
          intro j hj
          obtain ⟨hlt', hxj, -⟩ := List.idxOf?_eq_some_iff.mp hj
          refine List.getElem?_set_ne ?_
          rintro rfl
          exact hx (hxj.symm.trans hname)
        simp only [namedField?, fieldPosition?, Key.asName?, Option.bind_some, setField]
        cases hj : n.kind.fields.idxOf? x with
        | none => rfl
        | some j => simp only [Option.bind_some, hother j hj]

namespace Tree

variable {t t' : Tree} {v v' w w' u u' new root : Value} {key k : Key} {keys rest : List Key}
  {id : NodeId} {n : Node} {path p q parent stem : Path} {last : Key}

theorem child_list (t : Tree) (items : List Value) (path : Path) (key : Key) :
    t.child (.list items) path key = match key with
      | .index i => match items[i]? with
        | some w => .ok w
        | none => .error (.indexOutOfBounds path i items.length)
      | .name _ => .error (.keyNotFound path key) := by
  cases key with
  | index i =>
    cases hi : items[i]? with
    | none => simp [child, expand?, Children.child?_list, Key.asIndex?, hi]
    | some w => simp [child, expand?, Children.child?_list, Key.asIndex?, hi]
  | name n => rfl

theorem child_map (t : Tree) (d : Dict Value) (path : Path) (key : Key) :
    t.child (.map d) path key = match key.asName?.bind d.get? with
      | some w => .ok w
      | none => .error (.keyNotFound path key) := by
  cases hw : key.asName?.bind d.get? with
  | none => simp [child, expand?, Children.child?_map, hw]
  | some w => simp [child, expand?, Children.child?_map, hw]

theorem child_node (hn : t.get? id = some n) (path : Path) (key : Key) :
    t.child (.node id) path key = match n.namedField? key with
      | some (_, w) => .ok w
      | none => .error (.keyNotFound path key) := by
  have hexpand : t.expand? .unrestricted (.node id) =
      some (.fields ⟨n.kind.fields, n.fields⟩) := by
    rw [expand?, hn, Option.map_some, Node.children]
  have hchild := n.child?_children key
  rw [Node.children] at hchild
  cases hw : n.namedField? key with
  | none => simp [child, hexpand, hchild, hw]
  | some w => simp [child, hexpand, hchild, hw]

/-- Where the value stands only matters for errors. -/
theorem child_at (h : t.child v path key = .ok w) (q : Path) : t.child v q key = .ok w :=
  child_eq_ok.mpr (child_eq_ok.mp h)

theorem resolve_of_child (hw : t.child v path key = .ok w) (h : t.resolve w p = .ok u) :
    t.resolve v (key :: p) = .ok u :=
  resolveFrom_cons_eq_ok.mpr ⟨w, child_at hw [], resolveFrom_eq_ok.mpr h⟩

/-- A step down that fails is an address error. -/
theorem isAddress_of_child {e : TreeError} (h : t.child v path key = .error e) : e.isAddress := by
  unfold child at h
  split at h
  · split at h
    · cases h
    · split at h <;> cases h <;> rfl
  · split at h <;> cases h <;> rfl

/-! ## One level -/

/-- `v'` in `t'` is `v` in `t` with `w` put under one key: under every other key it has the same, or
misses it with the same error. -/
structure PutAt (t t' : Tree) (key : Key) (w v v' : Value) : Prop where
  under : ∀ path, t'.child v' path key = .ok w
  beside : ∀ k, k ≠ key → ∀ path, t'.child v' path k = t.child v path k

theorem putAt_list {items : List Value} {i : Nat} (hi : i < items.length) :
    PutAt t t' (.index i) w (.list items) (.list (items.set i w)) where
  under := fun path => by simp [child_list, hi]
  beside := by
    intro k hk path
    cases k with
    | name n => rfl
    | index j =>
      have hij : i ≠ j := by
        rintro rfl
        exact hk rfl
      simp only [child_list, List.getElem?_set_ne hij, List.length_set]

theorem putAt_map {d : Dict Value} {name : String} :
    PutAt t t' (.name name) w (.map d) (.map (d.put name w).2) where
  under := fun path => by simp [child_map, Key.asName?, Dict.get?_put]
  beside := by
    intro k hk path
    cases k with
    | index j => rfl
    | name x =>
      have hx : x ≠ name := by
        rintro rfl
        exact hk rfl
      simp only [child_map, Key.asName?, Option.bind_some, Dict.get?_put, if_neg hx]

theorem putAt_field {i : Nat} {old : Value} (hn : t.get? id = some n)
    (hfield : n.namedField? key = some (i, old)) (hn' : t'.get? id = some (n.setField i w)) :
    PutAt t t' key w (.node id) (.node id) where
  under := fun path => by
    simp only [child_node hn', n.namedField?_setField hfield, if_pos]
  beside := by
    intro k hk path
    simp only [child_node hn', child_node hn, n.namedField?_setField hfield, if_neg hk]

/-! ## Along a path -/

/-- `v'` in `t'` is `v` in `t` with `new` written where keys lead. The last of them need not lead
anywhere in `t`. -/
inductive Overwrites (t t' : Tree) (new : Value) : List Key → Value → Value → Prop where
  | here {v : Value} : Overwrites t t' new [] v new
  | last {key : Key} {v v' : Value} : PutAt t t' key new v v' → Overwrites t t' new [key] v v'
  | step {key : Key} {rest : List Key} {v v' w w' : Value} : t.child v [] key = .ok w →
    PutAt t t' key w' v v' → Overwrites t t' new rest w w' →
    Overwrites t t' new (key :: rest) v v'

/-- Reading back gives what was written. -/
theorem Overwrites.resolveFrom (h : Overwrites t t' new keys v v') (path : Path) :
    t'.resolveFrom v' path keys = .ok new := by
  induction h generalizing path with
  | here => rfl
  | last hput => simp [Tree.resolveFrom, hput.under, bind, Except.bind]
  | step _ hput _ ih => simp [Tree.resolveFrom, hput.under, ih, bind, Except.bind]

/-- The values that are read from `u` are the same in both trees, and so are the errors. -/
def Agree (t t' : Tree) (u : Value) : Prop :=
  ∀ path q, t'.resolveFrom u path q = t.resolveFrom u path q

/-- A path that parts from the written one at its first key reads on in a value that was there. -/
theorem PutAt.resolveFrom_beside (h : PutAt t t' key w v v') (hk : k ≠ key)
    (hoff : ∀ u, t.resolve v [k] = .ok u → Agree t t' u) (path q : Path) :
    t'.resolveFrom v' path (k :: q) = t.resolveFrom v path (k :: q) := by
  rw [Tree.resolveFrom, Tree.resolveFrom, h.beside k hk]
  cases hu : t.child v path k with
  | error e => rfl
  | ok u => exact hoff u (resolve_of_child hu (resolve_nil t u)) (path ++ [k]) q

/-- What is read at a path that parts from the written one stays the same, if the two trees agree
below every value off the written path. -/
theorem Overwrites.resolveFrom_elsewhere (h : Overwrites t t' new keys v v')
    (hoff : ∀ r u, ¬ r <+: keys → t.resolve v r = .ok u → Agree t t' u)
    (hq : ¬ q <+: keys) (hq' : ¬ keys <+: q) (path : Path) :
    t'.resolveFrom v' path q = t.resolveFrom v path q := by
  induction h generalizing q path with
  | here => exact absurd List.nil_prefix hq'
  | @last key v v' hput =>
    cases q with
    | nil => exact absurd List.nil_prefix hq
    | cons k q =>
      have hk : k ≠ key := by
        rintro rfl
        exact hq' ⟨q, rfl⟩
      refine hput.resolveFrom_beside hk (fun u hu => hoff [k] u ?_ hu) path q
      simpa [List.cons_prefix_cons] using hk
  | @step key rest v v' w w' hw hput _ ih =>
    cases q with
    | nil => exact absurd List.nil_prefix hq
    | cons k q =>
      rw [List.cons_prefix_cons] at hq hq'
      by_cases hk : k = key
      · subst hk
        simp only [Tree.resolveFrom, hput.under, child_at hw path, bind, Except.bind]
        refine ih ?_ (fun hp => hq ⟨rfl, hp⟩) (fun hp => hq' ⟨rfl, hp⟩) _
        intro r u hr hu
        exact hoff (k :: r) u (fun hp => hr (List.cons_prefix_cons.mp hp).2)
          (resolve_of_child hw hu)
      · refine hput.resolveFrom_beside hk (fun u hu => hoff [k] u ?_ hu) path q
        rw [List.cons_prefix_cons]
        exact fun hp => hk hp.1

/-! ## One written node -/

theorem child_update_of_ne {f : Node → Node} (h : v ≠ .node id) (path : Path) (key : Key) :
    (t.update id f).child v path key = t.child v path key := by
  cases v with
  | node x =>
    have hx : id ≠ x := by
      rintro rfl
      exact h rfl
    simp only [child, expand?, get?_update_of_ne hx]
  | null => rfl
  | bool b => rfl
  | int i => rfl
  | text s => rfl
  | list items => rfl
  | map d => rfl

/-- Changing a node is not seen where the node is not reached. -/
theorem agree_update (f : Node → Node) (h : ∀ q, t.resolve u q ≠ .ok (.node id)) :
    Agree t (t.update id f) u := by
  intro path q
  induction q generalizing u path with
  | nil => rfl
  | cons k q ih =>
    have hu : u ≠ .node id := by
      rintro rfl
      exact h [] rfl
    rw [resolveFrom, resolveFrom, child_update_of_ne hu]
    cases hw : t.child u path k with
    | error e => rfl
    | ok w =>
      exact ih (fun q hq => h (k :: q) (resolve_of_child hw hq)) (path ++ [k])

/-- No known node is reached from `root` by two paths. -/
def Unshared (t : Tree) (root : Value) : Prop :=
  ∀ id n p q, t.get? id = some n → t.resolve root p = .ok (.node id) →
    t.resolve root q = .ok (.node id) → p = q

/-- A write inside a node is a write along every path to the node that meets it only at its end. -/
theorem Overwrites.from_root {f : Node → Node} (hstem : t.resolve v stem = .ok (.node id))
    (honce : ∀ r, t.resolve v r = .ok (.node id) → r = stem)
    (h : Overwrites t (t.update id f) new keys (.node id) (.node id)) :
    Overwrites t (t.update id f) new (stem ++ keys) v v := by
  induction stem generalizing v with
  | nil =>
    obtain rfl : v = .node id := Except.ok.inj hstem
    exact h
  | cons key stem ih =>
    obtain ⟨w, -, hw, hrest⟩ := resolve_cons_eq_ok.mp hstem
    have hv : v ≠ .node id := by
      rintro rfl
      cases honce [] rfl
    have hput : PutAt t (t.update id f) key w v v := by
      refine ⟨fun path => ?_, fun k _ path => child_update_of_ne hv path k⟩
      rw [child_update_of_ne hv]
      exact child_at hw path
    refine .step hw hput (ih hrest ?_)
    intro r hr
    exact (List.cons.inj (honce (key :: r) (resolve_of_child hw hr))).2

/-- Off the path through the written node nothing is seen of the write. -/
theorem Unshared.agree (hu : t.Unshared root) (hn : t.get? id = some n)
    (hstem : t.resolve root stem = .ok (.node id)) (f : Node → Node) {r : Path}
    (hr : ¬ r <+: stem) (hres : t.resolve root r = .ok u) : Agree t (t.update id f) u := by
  refine agree_update f fun q hq => hr ?_
  have hpath : t.resolve root (r ++ q) = .ok (.node id) :=
    resolve_append_eq_ok.mpr ⟨u, hres, hq⟩
  exact ⟨q, hu id n _ _ hn hpath hstem⟩

end Tree

end Trellis
