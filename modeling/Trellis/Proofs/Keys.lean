import Trellis.Proofs.Children

/-!
# Keys and positions of a container

A container is asked by position and by key. A key has a position just when it is one of the keys
that are listed, and then it leads to a child; this needs no names to be distinct. Where they are
distinct, the key at a position and the position of a key undo each other, and so do the key after
another one and the key before it.

A fields view has two lengths, that of its names and that of its values. Every answer about a key
stops at the shorter one, also where only names or only values are left over.
-/

namespace Trellis

namespace Children

/-- The keys of a container in order. -/
def keys (c : Children) : List Key := c.entries.map (·.1)

/-- The sort of key a container is asked by: an index for a list, a name for a map or a node. -/
def Suits : Children → Key → Prop
  | list _, .index _ => True
  | map _, .name _ => True
  | fields _, .name _ => True
  | _, _ => False

variable {c : Children} {k k' : Key} {i : Nat}

/-! ## Keys that are present -/

theorem length_keys (c : Children) : c.keys.length = c.size := by
  rw [keys, List.length_map, length_entries]

theorem keyAt?_eq_keys (c : Children) (i : Nat) : c.keyAt? i = c.keys[i]? := by
  rw [keyAt?_eq, keys, List.getElem?_map]

theorem mem_keys_iff : k ∈ c.keys ↔ ∃ i, c.keyAt? i = some k := by
  simp only [keyAt?_eq_keys, List.mem_iff_getElem?]

theorem lt_size_of_keyAt? (h : c.keyAt? i = some k) : i < c.size := by
  rw [keyAt?_eq_keys] at h
  obtain ⟨hi, -⟩ := List.getElem?_eq_some_iff.mp h
  rwa [length_keys] at hi

theorem exists_keyAt? (h : i < c.size) : ∃ k, c.keyAt? i = some k := by
  rw [← length_keys] at h
  exact ⟨c.keys[i], by rw [keyAt?_eq_keys, List.getElem?_eq_getElem h]⟩

theorem keyAt?_of_position? (h : c.position? k = some i) : c.keyAt? i = some k := by
  obtain ⟨w, hw⟩ := entry_of_position? h
  rw [keyAt?_eq, hw, Option.map_some]

/-- A key is found where it stands or earlier, whether names repeat or not. -/
theorem position?_le_of_keyAt? (h : c.keyAt? i = some k) : ∃ j ≤ i, c.position? k = some j := by
  rw [keyAt?_eq] at h
  obtain ⟨⟨key, w⟩, he, rfl⟩ := Option.map_eq_some_iff.mp h
  exact position?_le_of_entry he

/-- A key has a position just when it is present, whether names repeat or not. -/
theorem position?_eq_none_iff : c.position? k = none ↔ k ∉ c.keys := by
  constructor
  · intro hnone hk
    obtain ⟨i, hi⟩ := mem_keys_iff.mp hk
    obtain ⟨j, -, hj⟩ := position?_le_of_keyAt? hi
    cases hnone.symm.trans hj
  · intro hk
    refine Option.eq_none_iff_forall_ne_some.mpr fun i hi => hk ?_
    exact mem_keys_iff.mpr ⟨i, keyAt?_of_position? hi⟩

/-- A key leads to a child just when it is present, whether names repeat or not. -/
theorem child?_eq_none_iff : c.child? k = none ↔ k ∉ c.keys := by
  rw [← position?_eq_none_iff]
  cases hp : c.position? k with
  | none => simp [child?, hp]
  | some i =>
    obtain ⟨w, hw⟩ := entry_of_position? hp
    simp [child?, hp, valueAt?_of_entry hw]

theorem keyAt?_of_lastKey? (h : c.lastKey? = some k) : c.keyAt? (c.size - 1) = some k := by
  unfold lastKey? at h
  split at h
  · cases h
  · exact h

theorem suits_of_mem_keys (h : k ∈ c.keys) : c.Suits k := by
  obtain ⟨⟨key, w⟩, he, rfl⟩ := List.mem_map.mp h
  cases c with
  | list items =>
    obtain ⟨⟨v, i⟩, -, heq⟩ := List.mem_map.mp he
    cases heq
    trivial
  | map d =>
    obtain ⟨⟨n, v⟩, -, heq⟩ := List.mem_map.mp he
    cases heq
    trivial
  | fields view =>
    obtain ⟨⟨n, v⟩, -, heq⟩ := List.mem_map.mp he
    cases heq
    trivial

/-- Nothing is answered about a key that is not there. -/
theorem no_answers (h : k ∉ c.keys) :
    c.position? k = none ∧ c.child? k = none ∧ c.nextKey? k = none ∧ c.prevKey? k = none := by
  have hp : c.position? k = none := position?_eq_none_iff.mpr h
  exact ⟨hp, child?_eq_none_iff.mpr h, by simp [nextKey?, hp], by simp [prevKey?, hp]⟩

/-! ## Distinct names -/

/-- The key at a position and the position of a key undo each other. -/
theorem position?_eq_some_iff (hc : c.Distinct) :
    c.position? k = some i ↔ c.keyAt? i = some k := by
  refine ⟨keyAt?_of_position?, fun h => ?_⟩
  rw [keyAt?_eq] at h
  obtain ⟨⟨key, w⟩, he, rfl⟩ := Option.map_eq_some_iff.mp h
  exact position?_of_entry hc he

theorem nextKey?_eq_some_iff (hc : c.Distinct) :
    c.nextKey? k = some k' ↔ ∃ i, c.keyAt? i = some k ∧ c.keyAt? (i + 1) = some k' := by
  rw [nextKey?, Option.bind_eq_some_iff]
  exact exists_congr fun i => and_congr_left fun _ => position?_eq_some_iff hc

theorem prevKey?_eq_some_iff (hc : c.Distinct) :
    c.prevKey? k' = some k ↔ ∃ i, c.keyAt? i = some k ∧ c.keyAt? (i + 1) = some k' := by
  rw [prevKey?, Option.bind_eq_some_iff]
  constructor
  · rintro ⟨j, hj, hk⟩
    cases j with
    | zero => cases hk
    | succ i => exact ⟨i, hk, (position?_eq_some_iff hc).mp hj⟩
  · rintro ⟨i, hk, hk'⟩
    exact ⟨i + 1, (position?_eq_some_iff hc).mpr hk', hk⟩

/-- The first key is the one present key with none before it. -/
theorem firstKey?_eq_some_iff (hc : c.Distinct) :
    c.firstKey? = some k ↔ k ∈ c.keys ∧ c.prevKey? k = none := by
  constructor
  · intro h
    have hp : c.position? k = some 0 := (position?_eq_some_iff hc).mpr h
    exact ⟨mem_keys_iff.mpr ⟨0, h⟩, by simp [prevKey?, hp]⟩
  · rintro ⟨hk, hnone⟩
    obtain ⟨i, hi⟩ := mem_keys_iff.mp hk
    cases i with
    | zero => exact hi
    | succ i =>
      have hlt := lt_size_of_keyAt? hi
      obtain ⟨before, hb⟩ := exists_keyAt? (c := c) (i := i) (by omega)
      cases hnone.symm.trans ((prevKey?_eq_some_iff hc).mpr ⟨i, hb, hi⟩)

/-- The last key is the one present key with none after it. -/
theorem lastKey?_eq_some_iff (hc : c.Distinct) :
    c.lastKey? = some k ↔ k ∈ c.keys ∧ c.nextKey? k = none := by
  constructor
  · intro h
    have hlast := keyAt?_of_lastKey? h
    refine ⟨mem_keys_iff.mpr ⟨_, hlast⟩, Option.eq_none_iff_forall_ne_some.mpr ?_⟩
    intro next hnext
    obtain ⟨i, hi, hi'⟩ := (nextKey?_eq_some_iff hc).mp hnext
    have hsame := (position?_eq_some_iff hc).mpr hi
    have heq : i = c.size - 1 :=
      Option.some.inj (hsame.symm.trans ((position?_eq_some_iff hc).mpr hlast))
    have hlt := lt_size_of_keyAt? hi'
    omega
  · rintro ⟨hk, hnone⟩
    obtain ⟨i, hi⟩ := mem_keys_iff.mp hk
    have hlt := lt_size_of_keyAt? hi
    have hsize : ¬ i + 1 < c.size := by
      intro hnext
      obtain ⟨next, hn⟩ := exists_keyAt? hnext
      cases hnone.symm.trans ((nextKey?_eq_some_iff hc).mpr ⟨i, hi, hn⟩)
    have hne : c.isEmpty = false := by
      rw [isEmpty, beq_eq_false_iff_ne]
      omega
    rw [lastKey?, hne, show c.size - 1 = i by omega]
    exact hi

/-- Key, value, child and entry at a position below the size belong together. -/
theorem entry_at (hc : c.Distinct) (hi : i < c.size) : ∃ k v,
    c.keyAt? i = some k ∧ c.valueAt? i = some v ∧ c.position? k = some i ∧
      c.child? k = some v ∧ c.entries[i]? = some (k, v) := by
  rw [← length_entries] at hi
  obtain ⟨⟨k, v⟩, he⟩ : ∃ e, c.entries[i]? = some e := ⟨_, List.getElem?_eq_getElem hi⟩
  have hp : c.position? k = some i := position?_of_entry hc he
  have hv : c.valueAt? i = some v := valueAt?_of_entry he
  exact ⟨k, v, keyAt?_of_position? hp, hv, hp, by rw [child?, hp, Option.bind_some, hv], he⟩

/-- In a list, in a map with distinct names and in a fields view over distinct names, whatever the
number of its values, keys and positions undo each other and lead to the same children, which are
listed in that order. The key after another one and the key before it undo each other; only the
first key has none before it, and only the last none after it. A key of the wrong sort and a key
that is absent have no answers. -/
theorem keys_and_positions_agree (hc : c.Distinct) :
    c.entries.length = c.size ∧
    (∀ i < c.size, ∃ k v, c.keyAt? i = some k ∧ c.valueAt? i = some v ∧
      c.position? k = some i ∧ c.child? k = some v ∧ c.entries[i]? = some (k, v)) ∧
    (∀ k i, c.position? k = some i → c.keyAt? i = some k ∧ i < c.size) ∧
    (∀ k k', c.nextKey? k = some k' ↔ c.prevKey? k' = some k) ∧
    (∀ k, c.firstKey? = some k ↔ k ∈ c.keys ∧ c.prevKey? k = none) ∧
    (∀ k, c.lastKey? = some k ↔ k ∈ c.keys ∧ c.nextKey? k = none) ∧
    ∀ k, ¬ c.Suits k ∨ k ∉ c.keys →
      c.position? k = none ∧ c.child? k = none ∧ c.nextKey? k = none ∧ c.prevKey? k = none := by
  refine ⟨c.length_entries, fun i hi => entry_at hc hi, ?_, ?_,
    fun k => firstKey?_eq_some_iff hc, fun k => lastKey?_eq_some_iff hc, ?_⟩
  · intro k i hi
    have hk := keyAt?_of_position? hi
    exact ⟨hk, lt_size_of_keyAt? hk⟩
  · intro k k'
    rw [nextKey?_eq_some_iff hc, prevKey?_eq_some_iff hc]
  · intro k h
    apply no_answers
    rcases h with hsort | habsent
    · exact fun hk => hsort (suits_of_mem_keys hk)
    · exact habsent

/-- Three names over two values. -/
def shortOfValues : Children := .fields ⟨["a", "b", "c"], [.int 1, .null]⟩

/-- Two names over three values. -/
def shortOfNames : Children := .fields ⟨["a", "b"], [.int 1, .null, .int 3]⟩

/-- A name without a value is absent; a value without a name comes after the last key. -/
theorem keys_and_positions_agree_ragged :
    (shortOfValues.Distinct ∧ shortOfValues.lastKey? = some (.name "b") ∧
      shortOfValues.position? (.name "c") = none ∧
      shortOfValues.prevKey? (.name "b") = some (.name "a")) ∧
    shortOfNames.Distinct ∧ shortOfNames.lastKey? = some (.name "b") ∧
      shortOfNames.child? (.index 2) = none ∧ shortOfNames.valueAt? 2 = some (.int 3) := by
  have hvalues : shortOfValues.Distinct := by
    unfold shortOfValues Distinct
    decide
  have hnames : shortOfNames.Distinct := by
    unfold shortOfNames Distinct
    decide
  constructor
  · obtain ⟨-, -, -, hinverse, -, hlast, habsent⟩ := keys_and_positions_agree hvalues
    exact ⟨hvalues, (hlast _).mpr (by decide), (habsent _ (.inr (by decide))).1,
      (hinverse _ _).mp (by decide)⟩
  · obtain ⟨-, -, -, -, -, hlast, habsent⟩ := keys_and_positions_agree hnames
    exact ⟨hnames, (hlast _).mpr (by decide), (habsent _ (.inl id)).2.1, rfl⟩

end Children

end Trellis
