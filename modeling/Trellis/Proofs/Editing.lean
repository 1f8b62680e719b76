import Trellis.Proofs.Linking
import Trellis.Proofs.Stepping

/-!
# Editing the value at a path

Keys lead through lists and maps to a place inside a value. An edit there keeps everything around
the place: the nodes held before it and after it, with their paths, stay as they are, and only the
nodes of the place itself are exchanged. So an edit at the recorded path of a node acts on the entry
that holds the node.
-/

namespace Trellis

namespace Dict

variable {α : Type} {before after : List (String × α)} {name : String} {v w : α}

theorem get?_of_split (h : name ∉ before.map (·.1)) :
    get? ⟨before ++ (name, v) :: after⟩ name = some v := by
  induction before with
  | nil => simp [get?]
  | cons e before ih =>
    obtain ⟨hne, hb⟩ := not_or.mp (List.mem_cons.not.mp h)
    have := ih hb
    simp only [get?, List.cons_append] at this ⊢
    rw [List.lookup_cons, this, beq_false_of_ne hne]

theorem set?_of_split (h : name ∉ before.map (·.1)) :
    set? ⟨before ++ (name, v) :: after⟩ name w = some ⟨before ++ (name, w) :: after⟩ := by
  have hgo : set?.go name w (before ++ (name, v) :: after) =
      some (before ++ (name, w) :: after) := by
    induction before with
    | nil => simp [set?.go]
    | cons e before ih =>
      obtain ⟨hne, hb⟩ := not_or.mp (List.mem_cons.not.mp h)
      rw [List.cons_append, set?.go, if_neg (Ne.symm hne), ih hb]
      rfl
  rw [set?, hgo]
  rfl

theorem put_of_split (h : name ∉ before.map (·.1)) :
    put ⟨before ++ (name, v) :: after⟩ name w =
      (some v, ⟨before ++ (name, w) :: after⟩) := by
  simp [put, set?_of_split h, get?_of_split h]

theorem remove?_of_split (h : name ∉ before.map (·.1)) :
    remove? ⟨before ++ (name, v) :: after⟩ name = some (v, ⟨before ++ after⟩) := by
  have hgo : remove?.go name (before ++ (name, v) :: after) = some (v, before ++ after) := by
    induction before with
    | nil => simp [remove?.go]
    | cons e before ih =>
      obtain ⟨hne, hb⟩ := not_or.mp (List.mem_cons.not.mp h)
      rw [List.cons_append, remove?.go, if_neg (Ne.symm hne), ih hb]
      rfl
  rw [remove?, hgo]
  rfl

theorem Distinct.not_mem_before (h : Distinct ⟨before ++ (name, v) :: after⟩) :
    name ∉ before.map (·.1) := by
  intro hm
  have hnd : (before.map (·.1) ++ name :: after.map (·.1)).Nodup := by
    simpa [Distinct, names] using h
  exact (List.nodup_append.mp hnd).2.2 name hm name (by simp) rfl

end Dict

namespace Value

variable {u u' v v' w : Value} {keys rest : List Key} {q : Path}

/-- Keys lead from a value through lists and maps to a value inside it. -/
inductive Leads : Value → List Key → Value → Prop where
  | here (v : Value) : Leads v [] v
  | item {before after : List Value} {w u : Value} {rest : List Key} :
    Leads w rest u → Leads (list (before ++ w :: after)) (.index before.length :: rest) u
  | entry {before after : List (String × Value)} {name : String} {w u : Value}
    {rest : List Key} :
    Leads w rest u → Leads (map ⟨before ++ (name, w) :: after⟩) (.name name :: rest) u

/-- Two values that differ at one place only, where one has `u` and the other `u'`. -/
inductive Differ (u u' : Value) : List Key → Value → Value → Prop where
  | here : Differ u u' [] u u'
  | item {before after : List Value} {w w' : Value} {rest : List Key} :
    Differ u u' rest w w' →
      Differ u u' (.index before.length :: rest) (list (before ++ w :: after))
        (list (before ++ w' :: after))
  | entry {before after : List (String × Value)} {name : String} {w w' : Value}
    {rest : List Key} :
    Differ u u' rest w w' →
      Differ u u' (.name name :: rest) (map ⟨before ++ (name, w) :: after⟩)
        (map ⟨before ++ (name, w') :: after⟩)

/-! ## Where keys lead -/

theorem Distinct.item {before after : List Value}
    (hd : (list (before ++ w :: after)).Distinct) : w.Distinct :=
  distinct_list.mp hd w (by simp)

theorem Distinct.entry {before after : List (String × Value)} {name : String}
    (hd : (map ⟨before ++ (name, w) :: after⟩).Distinct) : w.Distinct :=
  (distinct_map.mp hd).2 (name, w) (by simp)

theorem Leads.exists_differ (h : Leads v keys u) (u' : Value) : ∃ v', Differ u u' keys v v' := by
  induction h with
  | here v => exact ⟨u', .here⟩
  | item _ ih =>
    obtain ⟨w', hw'⟩ := ih
    exact ⟨_, .item hw'⟩
  | entry _ ih =>
    obtain ⟨w', hw'⟩ := ih
    exact ⟨_, .entry hw'⟩

theorem Leads.distinct (h : Leads v keys u) (hd : v.Distinct) : u.Distinct := by
  induction h with
  | here v => exact hd
  | item _ ih => exact ih hd.item
  | entry _ ih => exact ih hd.entry

/-- Keys that lead on from where other keys have led. -/
theorem Leads.split {above : List Key} (h : Leads v (above ++ rest) w) :
    ∃ u, Leads v above u ∧ Leads u rest w := by
  induction above generalizing v with
  | nil => exact ⟨v, .here v, h⟩
  | cons key above ih =>
    cases h with
    | item h =>
      obtain ⟨u, hu, hw⟩ := ih h
      exact ⟨u, .item hu, hw⟩
    | entry h =>
      obtain ⟨u, hu, hw⟩ := ih h
      exact ⟨u, .entry hu, hw⟩

theorem Leads.append {above : List Key} (h : Leads v above u) (hw : Leads u rest w) :
    Leads v (above ++ rest) w := by
  induction h with
  | here v => exact hw
  | item _ ih => exact .item (ih hw)
  | entry _ ih => exact .entry (ih hw)

/-- A node that keys lead to is held under them. -/
theorem Leads.mem_heldNodes {id : NodeId} (h : Leads v keys (node id)) (q : Path) :
    (q ++ keys, id) ∈ v.heldNodes q := by
  generalize hu : node id = u at h
  induction h generalizing q with
  | here v =>
    subst hu
    simp [heldNodes]
  | @item before after w u rest _ ih =>
    rw [heldNodes, heldInItems_eq, List.mem_flatMap]
    refine ⟨(w, before.length), ?_, ?_⟩
    · rw [List.mk_mem_zipIdx_iff_getElem?]
      simp
    · have hmem := ih (q ++ [.index before.length]) hu
      rwa [List.append_assoc] at hmem
  | @entry before after name w u rest _ ih =>
    rw [heldNodes, heldInEntries_eq, List.mem_flatMap]
    have hmem := ih (q ++ [.name name]) hu
    rw [List.append_assoc] at hmem
    exact ⟨(name, w), by simp, hmem⟩

/-- The path of a held node leads to it. -/
theorem leads_of_mem_heldNodes {p : Path} {id : NodeId} (h : (p, id) ∈ v.heldNodes q) :
    ∃ keys, p = q ++ keys ∧ Leads v keys (node id) := by
  induction v using induct generalizing q with
  | leaf v hv => simp [heldNodes_leaf hv] at h
  | node c =>
    obtain ⟨rfl, rfl⟩ : p = q ∧ id = c := by simpa [heldNodes] using h
    exact ⟨[], by simp, .here _⟩
  | list items ih =>
    rw [heldNodes, heldInItems_eq, List.mem_flatMap] at h
    obtain ⟨⟨w, i⟩, hx, hm⟩ := h
    have hi := List.mk_mem_zipIdx_iff_getElem?.mp hx
    obtain ⟨hlt, rfl⟩ := List.getElem?_eq_some_iff.mp hi
    obtain ⟨keys, rfl, hl⟩ := ih _ (List.getElem_mem hlt) hm
    refine ⟨.index i :: keys, by simp, ?_⟩
    have hsplit : items = items.take i ++ items[i] :: items.drop (i + 1) := by
      rw [← List.drop_eq_getElem_cons hlt, List.take_append_drop]
    have hitem : Leads (list (items.take i ++ items[i] :: items.drop (i + 1)))
        (.index (items.take i).length :: keys) (node id) := .item hl
    rwa [← hsplit, List.length_take_of_le hlt.le] at hitem
  | map d ih =>
    obtain ⟨entries⟩ := d
    rw [heldNodes, heldInEntries_eq, List.mem_flatMap] at h
    obtain ⟨⟨name, w⟩, hx, hm⟩ := h
    obtain ⟨keys, rfl, hl⟩ := ih _ hx hm
    obtain ⟨before, after, rfl⟩ := List.append_of_mem hx
    exact ⟨.name name :: keys, by simp, .entry hl⟩

/-! ## Edits -/

theorem heldInItems_append (q : Path) (before after : List Value) (i : Nat) :
    heldInItems q i (before ++ after) =
      heldInItems q i before ++ heldInItems q (i + before.length) after := by
  rw [heldInItems_eq, heldInItems_eq, heldInItems_eq, List.zipIdx_append, List.flatMap_append]

theorem heldInEntries_append (q : Path) (before after : List (String × Value)) :
    heldInEntries q (before ++ after) = heldInEntries q before ++ heldInEntries q after := by
  rw [heldInEntries_eq, heldInEntries_eq, heldInEntries_eq, List.flatMap_append]

/-- What is held around the place of an edit stays, with its paths. -/
theorem Differ.heldNodes (h : Differ u u' keys v v') (q : Path) : ∃ before after,
    v.heldNodes q = before ++ u.heldNodes (q ++ keys) ++ after ∧
      v'.heldNodes q = before ++ u'.heldNodes (q ++ keys) ++ after := by
  induction h generalizing q with
  | here => exact ⟨[], [], by simp, by simp⟩
  | @item earlier later w w' rest _ ih =>
    obtain ⟨before, after, hv, hv'⟩ := ih (q ++ [.index earlier.length])
    refine ⟨heldInItems q 0 earlier ++ before, after ++ heldInItems q (earlier.length + 1) later,
      ?_, ?_⟩
    · simp [Value.heldNodes, heldInItems_append, heldInItems, hv]
    · simp [Value.heldNodes, heldInItems_append, heldInItems, hv']
  | @entry earlier later name w w' rest _ ih =>
    obtain ⟨before, after, hv, hv'⟩ := ih (q ++ [.name name])
    refine ⟨heldInEntries q earlier ++ before, after ++ heldInEntries q later, ?_, ?_⟩
    · simp [Value.heldNodes, heldInEntries_append, heldInEntries, hv]
    · simp [Value.heldNodes, heldInEntries_append, heldInEntries, hv']

theorem Differ.distinct (h : Differ u u' keys v v') (hd : v.Distinct) (hu : u'.Distinct) :
    v'.Distinct := by
  induction h with
  | here => exact hu
  | item _ ih =>
    have hw := ih hd.item
    rw [distinct_list] at hd ⊢
    intro x hx
    rcases List.mem_append.mp hx with hx | hx
    · exact hd x (List.mem_append_left _ hx)
    · rcases List.mem_cons.mp hx with rfl | hx
      · exact hw
      · exact hd x (by simp [hx])
  | entry _ ih =>
    have hw := ih hd.entry
    rw [distinct_map] at hd ⊢
    refine ⟨by simpa [Dict.Distinct, Dict.names] using hd.1, ?_⟩
    intro x hx
    rcases List.mem_append.mp hx with hx | hx
    · exact hd.2 x (List.mem_append_left _ hx)
    · rcases List.mem_cons.mp hx with rfl | hx
      · exact hw
      · exact hd.2 x (by simp [hx])

theorem Differ.split {above : List Key} (h : Differ u u' (above ++ rest) v v') :
    ∃ w w', Differ w w' above v v' ∧ Differ u u' rest w w' := by
  induction above generalizing v v' with
  | nil => exact ⟨v, v', .here, h⟩
  | cons key above ih =>
    cases h with
    | item h =>
      obtain ⟨w, w', hv, hw⟩ := ih h
      exact ⟨w, w', .item hv, hw⟩
    | entry h =>
      obtain ⟨w, w', hv, hw⟩ := ih h
      exact ⟨w, w', .entry hv, hw⟩

theorem Differ.leads (h : Differ u u' keys v v') : Leads v keys u := by
  induction h with
  | here => exact .here u
  | item _ ih => exact .item ih
  | entry _ ih => exact .entry ih

/-- Writing an entry that is there. -/
theorem Differ.assignEntry {last : Key} (h : Differ u u' [last] v v') (hd : v.Distinct)
    (path : Path) : Value.assignEntry path last u' v = .ok (some u, v') := by
  cases h with
  | item h =>
    cases h
    simp [Value.assignEntry]
  | entry h =>
    cases h
    simp [Value.assignEntry, Dict.put_of_split (distinct_map.mp hd).1.not_mem_before]

theorem Differ.asNode? {last : Key} (h : Differ u u' [last] v v') : v.asNode? = none := by
  cases h <;> rfl

theorem Differ.editAt {α : Type} {f : Value → Except TreeError (α × Value)} {answer : α}
    (h : Differ u u' keys v v') (hd : v.Distinct) (hf : f u = .ok (answer, u')) (path : Path) :
    v.editAt f path keys = .ok (answer, v') := by
  induction h generalizing path with
  | here => exact hf
  | item _ ih =>
    have hrec := ih hd.item
    simp [Value.editAt, hrec, bind, Except.bind, pure, Except.pure]
  | entry _ ih =>
    have hrec := ih hd.entry
    have hn := (distinct_map.mp hd).1.not_mem_before
    simp [Value.editAt, Dict.get?_of_split hn, Dict.insert, Dict.put_of_split hn, hrec, bind,
      Except.bind, pure, Except.pure]

end Value

namespace Node

variable {n : Node} {name : String} {i : Nat} {v : Value}

theorem namedField?_eq_some : n.namedField? (.name name) = some (i, v) ↔
    n.kind.fields.idxOf? name = some i ∧ n.fields[i]? = some v := by
  simp only [namedField?, fieldPosition?, Key.asName?, Option.bind_some, Option.bind_eq_some_iff,
    Option.map_eq_some_iff, Prod.mk.injEq]
  constructor
  · rintro ⟨j, hj, w, hw, rfl, rfl⟩
    exact ⟨hj, hw⟩
  · rintro ⟨hi, hv⟩
    exact ⟨i, hi, v, hv, rfl, rfl⟩

/-- A path leads to a place inside the fields of a node: its first key names a field, and the others
lead on inside it. -/
def Leads (n : Node) (path : Path) (u : Value) : Prop :=
  ∃ name rest i v, path = .name name :: rest ∧ n.namedField? (.name name) = some (i, v) ∧
    v.Leads rest u

/-- Two nodes that differ at one place inside their fields only, where one has `u` and the other
`u'`. -/
def Differ (u u' : Value) (path : Path) (n n' : Node) : Prop :=
  ∃ name rest i v v', path = .name name :: rest ∧ n.namedField? (.name name) = some (i, v) ∧
    Value.Differ u u' rest v v' ∧ n' = n.setField i v'

theorem Leads.append {path : Path} {keys : List Key} {u w : Value} (h : n.Leads path u)
    (hw : u.Leads keys w) : n.Leads (path ++ keys) w := by
  obtain ⟨name, rest, i, v, rfl, hfield, hl⟩ := h
  exact ⟨name, rest ++ keys, i, v, rfl, hfield, hl.append hw⟩

/-- A path inside the fields that goes on below another one passes through the place there. -/
theorem Leads.split {path : Path} {keys : List Key} {w : Value} (hne : path ≠ [])
    (h : n.Leads (path ++ keys) w) : ∃ u, n.Leads path u ∧ u.Leads keys w := by
  obtain ⟨name, rest, i, v, hpath, hfield, hl⟩ := h
  cases path with
  | nil => exact absurd rfl hne
  | cons key path =>
    obtain ⟨rfl, rfl⟩ := List.cons.inj hpath
    obtain ⟨u, hu, hw⟩ := hl.split
    exact ⟨u, ⟨name, path, i, v, rfl, hfield, hu⟩, hw⟩

/-- The path of a held node starts with a field and leads on inside it. -/
theorem leads_of_mem_heldNodes (hd : n.Distinct) {p : Path} {id : NodeId}
    (h : (p, id) ∈ n.heldNodes) : ∃ name rest i v, p = .name name :: rest ∧
      n.namedField? (.name name) = some (i, v) ∧ v.Leads rest (.node id) := by
  rw [heldNodes, Value.heldInEntries_eq, List.mem_flatMap] at h
  obtain ⟨⟨name, v⟩, he, hm⟩ := h
  obtain ⟨rest, rfl, hl⟩ := Value.leads_of_mem_heldNodes hm
  obtain ⟨i, hi⟩ := List.mem_iff_getElem?.mp he
  obtain ⟨hname, hv⟩ := List.getElem?_zip_eq_some.mp hi
  refine ⟨name, rest, i, v, by simp, namedField?_eq_some.mpr ⟨?_, hv⟩, hl⟩
  exact Children.idxOf?_of_nodup hd.1 hname

/-- What is held outside a field stays when the field is written. -/
theorem heldNodes_setField (h : n.namedField? (.name name) = some (i, v)) : ∃ before after,
    n.heldNodes = before ++ v.heldNodes [.name name] ++ after ∧
      ∀ w, (n.setField i w).heldNodes = before ++ w.heldNodes [.name name] ++ after := by
  obtain ⟨hidx, hv⟩ := namedField?_eq_some.mp h
  obtain ⟨hi, hname, -⟩ := List.idxOf?_eq_some_iff.mp hidx
  have hnames := Tree.split_of_getElem? (List.getElem?_eq_some_iff.mpr ⟨hi, hname⟩)
  have hfields := Tree.split_of_getElem? hv
  have hlt : i < n.fields.length := n.arity ▸ hi
  have hzip : ∀ w, n.kind.fields.zip (n.fields.take i ++ w :: n.fields.drop (i + 1)) =
      (n.kind.fields.take i).zip (n.fields.take i) ++
        (name, w) :: (n.kind.fields.drop (i + 1)).zip (n.fields.drop (i + 1)) := by
    intro w
    conv_lhs => rw [hnames]
    rw [List.zip_append (by simp [n.arity]), List.zip_cons_cons]
  refine ⟨Value.heldInEntries [] ((n.kind.fields.take i).zip (n.fields.take i)),
    Value.heldInEntries [] ((n.kind.fields.drop (i + 1)).zip (n.fields.drop (i + 1))),
    ?_, fun w => ?_⟩
  · have hall := hzip v
    rw [← hfields] at hall
    rw [heldNodes, namedFields, hall]
    simp [Value.heldInEntries_append, Value.heldInEntries]
  · have hset : n.fields.set i w = n.fields.take i ++ w :: n.fields.drop (i + 1) := by
      rw [List.set_eq_take_append_cons_drop, if_pos hlt]
    have hall : (n.setField i w).namedFields = _ := hset ▸ hzip w
    rw [heldNodes, hall]
    simp [Value.heldInEntries_append, Value.heldInEntries]

/-- A node is held where a path leads to it. -/
theorem Leads.mem_heldNodes {path : Path} {id : NodeId} (h : n.Leads path (.node id)) :
    (path, id) ∈ n.heldNodes := by
  obtain ⟨name, rest, i, v, rfl, hfield, hl⟩ := h
  obtain ⟨before, after, hn, -⟩ := heldNodes_setField hfield
  have hmem := hl.mem_heldNodes [.name name]
  rw [hn]
  simp only [List.mem_append]
  exact .inl (.inr hmem)

theorem distinct_setField (hd : n.Distinct) {w : Value} (hw : w.Distinct) :
    (n.setField i w).Distinct := by
  refine ⟨hd.1, fun x hx => ?_⟩
  rcases List.mem_or_eq_of_mem_set hx with hx | rfl
  · exact hd.2 x hx
  · exact hw

theorem distinct_field (hd : n.Distinct) (h : n.namedField? (.name name) = some (i, v)) :
    v.Distinct :=
  hd.2 v (List.mem_of_getElem? (namedField?_eq_some.mp h).2)

end Node

namespace Tree

variable {t : Tree} {u v : Value} {key : Key} {keys rest : List Key} {parent : NodeId} {p : Node}
  {name : String} {i : Nat}

/-! ## Following keys in a tree -/

theorem child_of_leads (t : Tree) (h : v.Leads (key :: rest) u) (hd : v.Distinct) (path : Path) :
    ∃ w, t.child v path key = .ok w ∧ w.Leads rest u ∧ w.Distinct ∧ v.asNode? = none := by
  cases h with
  | @item before after w _ _ h =>
    refine ⟨w, ?_, h, hd.item, rfl⟩
    simp [child, expand?, Children.child?, Children.position?, Children.valueAt?]
  | @entry before after name w _ _ h =>
    refine ⟨w, ?_, h, hd.entry, rfl⟩
    have hdc : Children.Distinct (.map ⟨before ++ (name, w) :: after⟩) :=
      (Value.distinct_map.mp hd).1
    have hsplit : Children.entries (.map ⟨before ++ (name, w) :: after⟩) =
        before.map (fun e => (.name e.1, e.2)) ++
          (.name name, w) :: after.map fun e => (.name e.1, e.2) := by
      simp [Children.entries]
    exact child_of_split rfl hdc hsplit path

theorem resolveFrom_of_leads (t : Tree) (h : v.Leads keys u) (hd : v.Distinct) (path : Path) :
    t.resolveFrom v path keys = .ok u := by
  induction keys generalizing v path with
  | nil =>
    cases h
    rfl
  | cons key rest ih =>
    obtain ⟨w, hw, hl, hdw, -⟩ := t.child_of_leads h hd path
    simp [resolveFrom, hw, ih hl hdw, bind, Except.bind]

/-- On the way through lists and maps to one of them there is no node. -/
theorem anchorFrom_of_leads (t : Tree) (h : v.Leads keys u) (hd : v.Distinct)
    (hu : u.asNode? = none) (path : Path) : t.anchorFrom v path keys = .ok none := by
  induction keys generalizing v path with
  | nil =>
    cases h
    simp [anchorFrom, hu]
  | cons key rest ih =>
    obtain ⟨w, hw, hl, hdw, hv⟩ := t.child_of_leads h hd path
    simp [anchorFrom, hw, ih hl hdw, hv, bind, Except.bind, pure, Except.pure]

theorem child_of_field (hp : t.get? parent = some p)
    (h : p.namedField? (.name name) = some (i, v)) (path : Path) :
    t.child (.node parent) path (.name name) = .ok v := by
  obtain ⟨hidx, hv⟩ := Node.namedField?_eq_some.mp h
  obtain ⟨hi, rfl⟩ := List.getElem?_eq_some_iff.mp hv
  simp [child, expand?, hp, Node.children, Children.child?, Children.position?, hidx, hi,
    Option.filter, Children.valueAt?]

theorem resolve_of_field (hp : t.get? parent = some p) (hd : p.Distinct)
    (h : p.namedField? (.name name) = some (i, v)) (hl : v.Leads rest u) :
    t.resolve (.node parent) (.name name :: rest) = .ok u := by
  have hres := t.resolveFrom_of_leads hl (Node.distinct_field hd h) [.name name]
  simp [resolve, resolveFrom, child_of_field hp h, hres, bind, Except.bind]

theorem resolve_of_leads {path : Path} (hp : t.get? parent = some p) (hd : p.Distinct)
    (h : p.Leads path u) : t.resolve (.node parent) path = .ok u := by
  obtain ⟨name, rest, i, v, rfl, hfield, hl⟩ := h
  exact resolve_of_field hp hd hfield hl

/-- Editing a list or map inside a field of a node. -/
theorem editContainer_of_field {α : Type} {onNode : Node → Except TreeError (α × Node)}
    {onValue : Value → Except TreeError (α × Value)} {answer : α} {u' v' : Value}
    (hp : t.get? parent = some p) (hd : p.Distinct)
    (h : p.namedField? (.name name) = some (i, v)) (hl : v.Leads rest u) (hu : u.asNode? = none)
    (hv' : Value.Differ u u' rest v v') (hedit : onValue u = .ok (answer, u')) :
    t.editContainer (.node parent) (.name name :: rest) onNode onValue =
      .ok ⟨t.update parent (·.setField i v'), .node parent, answer⟩ := by
  have hdv := Node.distinct_field hd h
  have hanchor := t.anchorFrom_of_leads hl hdv hu [.name name]
  have hat := hv'.editAt hdv hedit [.name name]
  simp [editContainer, anchorFrom, child_of_field hp h, hanchor, get_of_get? hp, h, hat,
    Value.asNode?, bind, Except.bind, pure, Except.pure]

/-- Writing over a held node puts what the new value holds in its place. -/
theorem assign_of_held {path : Path} {id : NodeId} {w : Value} (hp : t.get? parent = some p)
    (hd : p.Distinct) (hm : (path, id) ∈ p.heldNodes) (hw : w.Distinct) :
    ∃ i v answer before after,
      t.assign (.node parent) path w =
        .ok ⟨t.update parent (·.setField i v), .node parent, answer⟩ ∧
      p.heldNodes = before ++ (path, id) :: after ∧
      (p.setField i v).heldNodes = before ++ w.heldNodes path ++ after ∧
      (p.setField i v).Distinct ∧ Node.Differ (.node id) w path p (p.setField i v) := by
  obtain ⟨name, rest, i, v, rfl, hfield, hl⟩ := Node.leads_of_mem_heldNodes hd hm
  obtain ⟨v', hv'⟩ := hl.exists_differ w
  have hdv := Node.distinct_field hd hfield
  have hassign : t.assign (.node parent) (.name name :: rest) w =
      .ok ⟨t.update parent (·.setField i v'), .node parent, some (.node id)⟩ := by
    rcases List.eq_nil_or_concat' rest with rfl | ⟨above, last, rfl⟩
    · cases hv'
      have hupdate : t.update parent (fun _ => p.setField i w) =
          t.update parent (·.setField i w) :=
        update_congr fun n hn => by rw [Option.some.inj (hp.symm.trans hn)]
      simp [assign, Path.splitLast?, editContainer, anchorFrom, Value.asNode?, get_of_get? hp,
        Node.assignField, hfield, hupdate, bind, Except.bind, pure, Except.pure]
    · obtain ⟨u, u', habove, hlast⟩ := hv'.split
      have hdu := habove.leads.distinct hdv
      have hsplit : Path.splitLast? (.name name :: (above ++ [last])) =
          some (.name name :: above, last) := by
        simp [Path.splitLast?, List.getLast?_cons, List.dropLast_cons_of_ne_nil]
      rw [assign, hsplit]
      exact editContainer_of_field hp hd hfield habove.leads hlast.asNode? habove
        (hlast.assignEntry hdu _)
  obtain ⟨before, after, hn, hset⟩ := Node.heldNodes_setField hfield
  obtain ⟨before', after', hv, hv''⟩ := hv'.heldNodes [.name name]
  refine ⟨i, v', _, before ++ before', after' ++ after, hassign, ?_, ?_,
    Node.distinct_setField hd (hv'.distinct hdv hw), name, rest, i, v, v', rfl, hfield, hv', rfl⟩
  · rw [hn, hv]
    simp [Value.heldNodes]
  · rw [hset, hv'']
    simp

end Tree

end Trellis
