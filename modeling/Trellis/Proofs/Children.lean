import Trellis.Children
import Mathlib.Data.List.Nodup

/-!
# Keys and entries of a container

The view `Children` answers questions about keys through positions. Here all of them are read
off the list of entries: when no key repeats, splitting the entries at a key gives its child and
the keys beside it. Lists always have distinct keys; maps and fields views need not.
-/

namespace Trellis

namespace Children

/-- No name stands at two positions. -/
def Distinct : Children → Prop
  | list _ => True
  | map entries => entries.Distinct
  | fields view => view.names.Nodup

theorem length_entries (c : Children) : c.entries.length = c.size := by
  cases c with
  | list items => simp [entries, size]
  | map d => simp [entries, size, Dict.size]
  | fields view => simp [entries, size, List.length_zip]

theorem keyAt?_eq (c : Children) (i : Nat) : c.keyAt? i = c.entries[i]?.map (·.1) := by
  cases c with
  | list items =>
    by_cases hi : i < items.length
    · simp [keyAt?, entries, hi]
    · simp [keyAt?, entries, hi]
  | map d =>
    cases h : d.entries[i]? with
    | none => simp [keyAt?, entries, Dict.entryAt?, h]
    | some e => simp [keyAt?, entries, Dict.entryAt?, h]
  | fields view =>
    have hs : (fields view).size = min view.names.length view.values.length := rfl
    by_cases hi : i < (fields view).size
    · have hn : i < view.names.length := by omega
      have hv : i < view.values.length := by omega
      have hz : (view.names.zip view.values)[i]? = some (view.names[i], view.values[i]) :=
        List.getElem?_zip_eq_some.mpr ⟨by simp [hn], by simp [hv]⟩
      simp only [keyAt?, if_pos hi, entries, List.getElem?_map, hz]
      simp [hn]
    · have hz : (view.names.zip view.values)[i]? = none := by
        rw [List.getElem?_eq_none_iff, List.length_zip]
        omega
      simp only [keyAt?, if_neg hi, entries, List.getElem?_map, hz]
      rfl

theorem valueAt?_of_entry {c : Children} {i : Nat} {k : Key} {w : Value}
    (h : c.entries[i]? = some (k, w)) : c.valueAt? i = some w := by
  cases c with
  | list items =>
    simp only [entries, List.getElem?_map, List.getElem?_zipIdx, Option.map_map,
      Option.map_eq_some_iff] at h
    obtain ⟨v, hv, he⟩ := h
    cases he
    exact hv
  | map d =>
    simp only [entries, List.getElem?_map, Option.map_eq_some_iff] at h
    obtain ⟨e, he, heq⟩ := h
    cases heq
    simp [valueAt?, Dict.entryAt?, he]
  | fields view =>
    simp only [entries, List.getElem?_map, Option.map_eq_some_iff] at h
    obtain ⟨⟨n, v⟩, he, heq⟩ := h
    cases heq
    exact (List.getElem?_zip_eq_some.mp he).2

/-- The first position of a value without repetition is its only one. -/
theorem idxOf?_of_nodup {α : Type} [DecidableEq α] {l : List α} (hl : l.Nodup) {i : Nat} {a : α}
    (h : l[i]? = some a) : l.idxOf? a = some i := by
  obtain ⟨hi, ha⟩ := List.getElem?_eq_some_iff.mp h
  refine List.idxOf?_eq_some_iff.mpr ⟨hi, ha, ?_⟩
  intro j hj hja
  have := hl.getElem_inj_iff.mp (hja.trans ha.symm)
  omega

theorem position?_of_entry {c : Children} (hc : c.Distinct) {i : Nat} {k : Key} {w : Value}
    (h : c.entries[i]? = some (k, w)) : c.position? k = some i := by
  cases c with
  | list items =>
    simp only [entries, List.getElem?_map, List.getElem?_zipIdx, Option.map_map,
      Option.map_eq_some_iff] at h
    obtain ⟨v, hv, he⟩ := h
    obtain ⟨hi, -⟩ := List.getElem?_eq_some_iff.mp hv
    cases he
    simp [position?, hi]
  | map d =>
    simp only [entries, List.getElem?_map, Option.map_eq_some_iff] at h
    obtain ⟨e, he, heq⟩ := h
    cases heq
    have hn : d.names[i]? = some e.1 := by simp [Dict.names, he]
    exact idxOf?_of_nodup hc hn
  | fields view =>
    simp only [entries, List.getElem?_map, Option.map_eq_some_iff] at h
    obtain ⟨⟨n, v⟩, he, heq⟩ := h
    cases heq
    obtain ⟨hn, hv⟩ := List.getElem?_zip_eq_some.mp he
    obtain ⟨hi, -⟩ := List.getElem?_eq_some_iff.mp hv
    simp [position?, idxOf?_of_nodup hc hn, hi]

/-- A key with an entry is found there or earlier, whether names repeat or not. -/
theorem position?_le_of_entry {c : Children} {i : Nat} {k : Key} {w : Value}
    (h : c.entries[i]? = some (k, w)) : ∃ j ≤ i, c.position? k = some j := by
  have first : ∀ (names : List String) {n : String}, names[i]? = some n →
      ∃ j ≤ i, names.idxOf? n = some j := by
    intro names n hn
    obtain ⟨hi, hni⟩ := List.getElem?_eq_some_iff.mp hn
    obtain ⟨j, hj⟩ := Option.isSome_iff_exists.mp
      (List.isSome_idxOf?.mpr (List.mem_of_getElem? hn))
    obtain ⟨hlt, -, hfirst⟩ := List.idxOf?_eq_some_iff.mp hj
    refine ⟨j, ?_, hj⟩
    by_contra hlate
    exact hfirst i (by omega) hni
  cases c with
  | list items =>
    exact ⟨i, Nat.le_refl i, position?_of_entry (c := .list items) trivial h⟩
  | map d =>
    simp only [entries, List.getElem?_map, Option.map_eq_some_iff] at h
    obtain ⟨e, he, heq⟩ := h
    cases heq
    exact first d.names (by simp [Dict.names, he])
  | fields view =>
    simp only [entries, List.getElem?_map, Option.map_eq_some_iff] at h
    obtain ⟨⟨n, v⟩, he, heq⟩ := h
    cases heq
    obtain ⟨hn, hv⟩ := List.getElem?_zip_eq_some.mp he
    obtain ⟨j, hji, hj⟩ := first view.names hn
    obtain ⟨hi, -⟩ := List.getElem?_eq_some_iff.mp hv
    exact ⟨j, hji, by simp [position?, hj]; omega⟩

/-- A key with a position has an entry there, whether names repeat or not. -/
theorem entry_of_position? {c : Children} {i : Nat} {k : Key} (h : c.position? k = some i) :
    ∃ w, c.entries[i]? = some (k, w) := by
  cases c with
  | list items =>
    cases k with
    | index j =>
      simp only [position?, Option.ite_none_right_eq_some, Option.some.injEq] at h
      obtain ⟨hj, rfl⟩ := h
      exact ⟨items[j], by simp [entries, hj]⟩
    | name n => simp [position?] at h
  | map d =>
    cases k with
    | index j => simp [position?] at h
    | name n =>
      obtain ⟨hi, hn, -⟩ := List.idxOf?_eq_some_iff.mp (show d.names.idxOf? n = some i from h)
      simp only [Dict.names, List.length_map, List.getElem_map] at hi hn
      exact ⟨d.entries[i].2, by simp [entries, hi, hn]⟩
  | fields view =>
    cases k with
    | index j => simp [position?] at h
    | name n =>
      simp only [position?, Option.filter_eq_some_iff, decide_eq_true_eq] at h
      obtain ⟨hp, hv⟩ := h
      obtain ⟨hi, hn, -⟩ := List.idxOf?_eq_some_iff.mp hp
      have he : (view.names.zip view.values)[i]? = some (n, view.values[i]) :=
        List.getElem?_zip_eq_some.mpr ⟨by simp [hi, hn], by simp [hv]⟩
      exact ⟨view.values[i], by simp [entries, he]⟩

/-! ## Splitting the entries at a key -/

section Split

variable {c : Children} {before after : List (Key × Value)} {k : Key} {w : Value}

theorem position?_of_split (hc : c.Distinct) (h : c.entries = before ++ (k, w) :: after) :
    c.position? k = some before.length := by
  apply position?_of_entry hc (w := w)
  simp [h]

theorem child?_of_split (hc : c.Distinct) (h : c.entries = before ++ (k, w) :: after) :
    c.child? k = some w := by
  have hv : c.valueAt? before.length = some w := valueAt?_of_entry (k := k) (by simp [h])
  simp [child?, position?_of_split hc h, hv]

theorem nextKey?_of_split (hc : c.Distinct) (h : c.entries = before ++ (k, w) :: after) :
    c.nextKey? k = after.head?.map (·.1) := by
  have hi : c.entries[before.length + 1]? = after.head? := by
    rw [h, List.getElem?_append_right (by omega)]
    simp [List.head?_eq_getElem?]
  simp [nextKey?, position?_of_split hc h, keyAt?_eq, hi]

theorem prevKey?_of_split (hc : c.Distinct) (h : c.entries = before ++ (k, w) :: after) :
    c.prevKey? k = before.getLast?.map (·.1) := by
  have hp := position?_of_split hc h
  cases hb : before.length with
  | zero =>
    have : before = [] := List.length_eq_zero_iff.mp hb
    simp [prevKey?, hp, this]
  | succ i =>
    have hi : c.entries[i]? = before.getLast? := by
      rw [h, List.getElem?_append_left (by omega), List.getLast?_eq_getElem?, hb]
      rfl
    simp [prevKey?, hp, hb, keyAt?_eq, hi]

theorem firstKey?_eq (c : Children) : c.firstKey? = c.entries.head?.map (·.1) := by
  rw [firstKey?, keyAt?_eq, List.head?_eq_getElem?]

theorem lastKey?_eq (c : Children) : c.lastKey? = c.entries.getLast?.map (·.1) := by
  rw [lastKey?, keyAt?_eq, ← length_entries, List.getLast?_eq_getElem?, isEmpty,
    ← length_entries]
  by_cases h : c.entries = []
  · simp [h]
  · have : c.entries.length ≠ 0 := fun h0 => h (List.length_eq_zero_iff.mp h0)
    simp [this]

/-- A child that is found stands among the entries, under the key it was asked for by. -/
theorem split_of_child? (h : c.child? k = some w) :
    ∃ before after, c.entries = before ++ (k, w) :: after := by
  obtain ⟨i, hp, hv⟩ := Option.bind_eq_some_iff.mp h
  obtain ⟨u, hu⟩ := entry_of_position? hp
  obtain rfl : u = w := Option.some.inj ((valueAt?_of_entry hu).symm.trans hv)
  exact List.append_of_mem (List.mem_of_getElem? hu)

end Split

end Children

end Trellis
