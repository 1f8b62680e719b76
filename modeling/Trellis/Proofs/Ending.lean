import Trellis.Encoding
import Trellis.Proofs.Keys
import Trellis.Proofs.Positions

/-!
# When stepping ends

A step along a container goes from a key to its position and on to the key at the next position. A
name that stands there twice is always found at its first position, so the step from its second
entry leads back: stepping goes round for ever. Values that are decoded keep repeated names, and
every value without nodes is the decoding of some document. For such a value stepping forward from
the empty path never fails, and it ends just when no map in the value repeats a name.

Values with nodes are left out: there stepping can also fail to end because a node lies below
itself.
-/

namespace Trellis

namespace Tree

variable {t : Tree} {mode : Expansion} {v w x : Value} {c : Children} {key : Key} {p q : Path}

/-! ## One step -/

theorem incrementFrom_cons_eq_ok {path : Path} {r : Option Path} :
    t.incrementFrom mode v path (key :: p) = .ok r ↔
    ∃ c w s, t.expand? .unrestricted v = some c ∧ c.child? key = some w ∧
      t.incrementFrom mode w (path ++ [key]) p = .ok s ∧
      r = s.or ((c.nextKey? key).map fun next => path ++ [next]) := by
  rw [incrementFrom]
  constructor
  · intro h
    cases hw : t.child v path key with
    | error e => simp [hw, bind, Except.bind] at h
    | ok w =>
      obtain ⟨c, hc, hk⟩ := child_eq_ok.mp hw
      cases hs : t.incrementFrom mode w (path ++ [key]) p with
      | error e => simp [hw, hs, bind, Except.bind] at h
      | ok s =>
        refine ⟨c, w, s, hc, hk, hs, ?_⟩
        cases s with
        | some next =>
          simpa [hw, hs, bind, Except.bind, pure, Except.pure, eq_comm] using h
        | none =>
          simpa [hw, hs, lateral_of_expand? hc, bind, Except.bind, pure, Except.pure, eq_comm]
            using h
  · intro h
    obtain ⟨c, w, s, hc, hk, hs, rfl⟩ := h
    have hw : t.child v path key = .ok w := child_eq_ok.mpr ⟨c, hc, hk⟩
    cases s with
    | some next => simp [hw, hs, bind, Except.bind, pure, Except.pure]
    | none => simp [hw, hs, lateral_of_expand? hc, bind, Except.bind, pure, Except.pure]

/-- What a step finds does not depend on where the value stands. -/
theorem incrementFrom_shift {path : Path} {r : Option Path}
    (h : t.incrementFrom mode v path p = .ok r) :
    ∃ s : Option Path, r = s.map (path ++ ·) ∧
      ∀ path', t.incrementFrom mode v path' p = .ok (s.map (path' ++ ·)) := by
  induction p generalizing v path r with
  | nil =>
    refine ⟨((t.expand? mode v).bind Children.firstKey?).map ([·]), ?_, ?_⟩
    · rw [← Except.ok.inj h, Option.map_map]
      rfl
    · intro path'
      rw [incrementFrom, Option.map_map]
      rfl
  | cons key p ih =>
    obtain ⟨c, w, s', hc, hk, hs', rfl⟩ := incrementFrom_cons_eq_ok.mp h
    obtain ⟨s, rfl, hs⟩ := ih hs'
    have hjoin : ∀ path' : Path,
        (s.map (path' ++ [key] ++ ·)).or ((c.nextKey? key).map fun next => path' ++ [next]) =
          ((s.map (key :: ·)).or ((c.nextKey? key).map ([·]))).map (path' ++ ·) := by
      intro path'
      cases s with
      | some q => simp
      | none => simp [Function.comp_def]
    refine ⟨(s.map (key :: ·)).or ((c.nextKey? key).map ([·])), hjoin path, ?_⟩
    intro path'
    exact incrementFrom_cons_eq_ok.mpr ⟨c, w, _, hc, hk, hs (path' ++ [key]), (hjoin path').symm⟩

theorem increment_nil (t : Tree) (v : Value) (mode : Expansion) :
    t.increment v [] mode = .ok (((t.expand? mode v).bind Children.firstKey?).map ([·])) := rfl

/-- A step from a longer path is a step below its first key, or along to the key after that one
where there is nothing more below. -/
theorem increment_cons_eq_ok {r : Option Path} : t.increment v (key :: p) mode = .ok r ↔
    ∃ c w s, t.expand? .unrestricted v = some c ∧ c.child? key = some w ∧
      t.increment w p mode = .ok s ∧
      r = (s.map (key :: ·)).or ((c.nextKey? key).map ([·])) := by
  unfold increment
  rw [incrementFrom_cons_eq_ok]
  constructor
  · intro h
    obtain ⟨c, w, s', hc, hk, hs', rfl⟩ := h
    obtain ⟨s, rfl, hs⟩ := incrementFrom_shift hs'
    exact ⟨c, w, s, hc, hk, by simpa using hs [], by simp⟩
  · intro h
    obtain ⟨c, w, s', hc, hk, hs', rfl⟩ := h
    obtain ⟨s, rfl, hs⟩ := incrementFrom_shift hs'
    exact ⟨c, w, _, hc, hk, hs [key], by simp⟩

/-! ## Stepping never leaves what can be looked up -/

theorem child?_of_keyAt? {i : Nat} (h : c.keyAt? i = some key) : ∃ w, c.child? key = some w := by
  have hpresent : key ∈ c.keys := Children.mem_keys_iff.mpr ⟨i, h⟩
  exact Option.ne_none_iff_exists'.mp fun hnone => Children.child?_eq_none_iff.mp hnone hpresent

theorem resolve_singleton (hc : t.expand? .unrestricted v = some c)
    (hk : c.child? key = some w) : t.resolve v [key] = .ok w := by
  have hw : t.child v [] key = .ok w := child_eq_ok.mpr ⟨c, hc, hk⟩
  exact resolveFrom_cons_eq_ok.mpr ⟨w, hw, rfl⟩

/-- From a path that is found, a step does not fail, and what it leads to is found again. Names may
repeat here. -/
theorem increment_of_resolve (h : t.resolve v p = .ok x) (mode : Expansion) :
    ∃ r, t.increment v p mode = .ok r ∧ ∀ q, r = some q → ∃ y, t.resolve v q = .ok y := by
  induction p generalizing v with
  | nil =>
    refine ⟨_, increment_nil t v mode, ?_⟩
    intro q hq
    obtain ⟨first, hfirst, rfl⟩ := Option.map_eq_some_iff.mp hq
    obtain ⟨c, hc, hkey⟩ := Option.bind_eq_some_iff.mp hfirst
    obtain ⟨w, hw⟩ := child?_of_keyAt? hkey
    exact ⟨w, resolve_singleton (expand?_unrestricted hc) hw⟩
  | cons key p ih =>
    obtain ⟨w, he, hw, hx⟩ := resolve_cons_eq_ok.mp h
    obtain ⟨c, hc, hk⟩ := child_eq_ok.mp hw
    obtain ⟨s, hs, hfound⟩ := ih hx
    refine ⟨_, increment_cons_eq_ok.mpr ⟨c, w, s, hc, hk, hs, rfl⟩, ?_⟩
    intro q hq
    cases s with
    | some q' =>
      obtain rfl : key :: q' = q := by simpa using hq
      obtain ⟨y, hy⟩ := hfound q' rfl
      exact ⟨y, resolve_cons_eq_ok.mpr ⟨w, he, hw, hy⟩⟩
    | none =>
      obtain ⟨next, hnext, rfl⟩ : ∃ next, c.nextKey? key = some next ∧ [next] = q := by
        simpa using hq
      obtain ⟨i, -, hkey⟩ := Option.bind_eq_some_iff.mp hnext
      obtain ⟨u, hu⟩ := child?_of_keyAt? hkey
      exact ⟨u, resolve_singleton hc hu⟩

/-- Stepping from the empty path never fails. -/
theorem positionAfter_ok (t : Tree) (v : Value) (mode : Expansion) (n : Nat) :
    ∃ r, t.positionAfter v mode n = .ok r ∧ ∀ p, r = some p → ∃ y, t.resolve v p = .ok y := by
  induction n with
  | zero =>
    refine ⟨some [], rfl, ?_⟩
    intro p hp
    obtain rfl := Option.some.inj hp
    exact ⟨v, resolve_nil t v⟩
  | succ n ih =>
    obtain ⟨r, hr, hfound⟩ := ih
    cases r with
    | none => exact ⟨none, by simp [positionAfter, hr, bind, Except.bind, pure, Except.pure], by simp⟩
    | some p =>
      obtain ⟨x, hx⟩ := hfound p rfl
      obtain ⟨s, hs, hnext⟩ := increment_of_resolve hx mode
      exact ⟨s, by simp [positionAfter, hr, hs, bind, Except.bind], hnext⟩

/-! ## Counting the steps that are left -/

/-- Stepping on from `p` below `v` finds exactly `n` more positions. -/
def EndsIn (t : Tree) (mode : Expansion) (v : Value) : Nat → Path → Prop
  | 0, p => t.increment v p mode = .ok none
  | n + 1, p => ∃ q, t.increment v p mode = .ok (some q) ∧ t.EndsIn mode v n q

theorem EndsIn.unique {m n : Nat} (h : t.EndsIn mode v m p) (h' : t.EndsIn mode v n p) :
    m = n := by
  induction m generalizing n p with
  | zero =>
    cases n with
    | zero => rfl
    | succ n =>
      obtain ⟨q, hq, -⟩ := h'
      cases (show t.increment v p mode = .ok none from h).symm.trans hq
  | succ m ih =>
    obtain ⟨q, hq, hrest⟩ := h
    cases n with
    | zero => cases (show t.increment v p mode = .ok none from h').symm.trans hq
    | succ n =>
      obtain ⟨q', hq', hrest'⟩ := h'
      obtain rfl : q = q' := by simpa using hq.symm.trans hq'
      rw [ih hrest hrest']

theorem EndsIn.prepend {m n : Nat} (h : t.EndsIn mode v m p)
    (hp : t.positionAfter v mode n = .ok (some p)) : t.EndsIn mode v (m + n) [] := by
  induction n generalizing m p with
  | zero =>
    obtain rfl : [] = p := by simpa [positionAfter] using hp
    exact h
  | succ n ih =>
    rw [positionAfter] at hp
    cases hr : t.positionAfter v mode n with
    | error e => simp [hr, bind, Except.bind] at hp
    | ok r =>
      cases r with
      | none => simp [hr, bind, Except.bind, pure, Except.pure] at hp
      | some p' =>
        have hstep : t.increment v p' mode = .ok (some p) := by
          simpa [hr, bind, Except.bind] using hp
        have hbefore : t.EndsIn mode v (m + 1) p' := ⟨p, hstep, h⟩
        have hall := ih hbefore hr
        rwa [show m + (n + 1) = m + 1 + n by omega]

theorem endsIn_of_positionAfter {n : Nat} (h : t.positionAfter v mode n = .ok none) :
    ∃ m, t.EndsIn mode v m [] := by
  induction n with
  | zero => simp [positionAfter] at h
  | succ n ih =>
    rw [positionAfter] at h
    cases hr : t.positionAfter v mode n with
    | error e => simp [hr, bind, Except.bind] at h
    | ok r =>
      cases r with
      | none => exact ih hr
      | some p =>
        have hlast : t.increment v p mode = .ok none := by
          simpa [hr, bind, Except.bind] using h
        exact ⟨_, EndsIn.prepend (m := 0) hlast hr⟩

/-- Stepping that ends below a key has ended below the child first, and ends sooner from the key
after it. -/
theorem EndsIn.cons {n : Nat} (h : t.EndsIn mode v n (key :: p))
    (hc : t.expand? .unrestricted v = some c) (hk : c.child? key = some w) :
    (∃ m, t.EndsIn mode w m p) ∧
      ∀ next, c.nextKey? key = some next → ∃ m < n, t.EndsIn mode v m [next] := by
  induction n generalizing p with
  | zero =>
    obtain ⟨c', w', s, hc', hk', hs, hr⟩ := increment_cons_eq_ok.mp h
    obtain rfl := Option.some.inj (hc.symm.trans hc')
    obtain rfl := Option.some.inj (hk.symm.trans hk')
    cases s with
    | some q => simp at hr
    | none =>
      refine ⟨⟨0, hs⟩, ?_⟩
      intro next hnext
      simp [hnext] at hr
  | succ n ih =>
    obtain ⟨q, hq, hrest⟩ := h
    obtain ⟨c', w', s, hc', hk', hs, hr⟩ := increment_cons_eq_ok.mp hq
    obtain rfl := Option.some.inj (hc.symm.trans hc')
    obtain rfl := Option.some.inj (hk.symm.trans hk')
    cases s with
    | some q' =>
      obtain rfl : q = key :: q' := by simpa using hr
      obtain ⟨⟨m, hm⟩, hnext⟩ := ih hrest
      refine ⟨⟨m + 1, q', hs, hm⟩, ?_⟩
      intro next hn
      obtain ⟨m', hlt, hm'⟩ := hnext next hn
      exact ⟨m', by omega, hm'⟩
    | none =>
      refine ⟨⟨0, hs⟩, ?_⟩
      intro next hnext
      obtain rfl : q = [next] := by simpa [hnext] using hr
      exact ⟨n, by omega, hrest⟩

/-! ## Keys that are passed in order -/

/-- Where stepping ends, the keys of a container are passed one after another: each is found where
it stands, and ever fewer steps are left. A key found earlier would have as many steps left as
there, and fewer. -/
theorem EndsIn.keys {n : Nat} (h : t.EndsIn mode v n []) (hc : t.expand? mode v = some c) (i : Nat)
    (hi : c.keyAt? i = some key) :
    ∃ m, t.EndsIn mode v m [key] ∧ c.position? key = some i ∧
      ∀ j k l, j < i → c.keyAt? j = some k → t.EndsIn mode v l [k] → m < l := by
  have hu := expand?_unrestricted hc
  -- A key from which fewer steps are left than from all before it is none of them.
  have found : ∀ {i m key}, c.keyAt? i = some key → t.EndsIn mode v m [key] →
      (∀ j k l, j < i → c.keyAt? j = some k → t.EndsIn mode v l [k] → m < l) →
      c.position? key = some i := by
    intro i m key hi hm hless
    obtain ⟨j, hji, hj⟩ := Children.position?_le_of_keyAt? hi
    rcases Nat.lt_or_eq_of_le hji with hlt | rfl
    · have hmm := hless j key m hlt (Children.keyAt?_of_position? hj) hm
      omega
    · exact hj
  induction i generalizing key with
  | zero =>
    have hfirst : t.increment v [] mode = .ok (some [key]) := by
      simp [increment_nil, hc, Children.firstKey?, hi]
    cases n with
    | zero => cases (show t.increment v [] mode = .ok none from h).symm.trans hfirst
    | succ n =>
      obtain ⟨q, hq, hrest⟩ := h
      obtain rfl : [key] = q := by simpa using hfirst.symm.trans hq
      have hnone : ∀ j k l, j < 0 → c.keyAt? j = some k → t.EndsIn mode v l [k] → n < l := by
        intro j k l hj
        omega
      exact ⟨n, hrest, found hi hrest hnone, hnone⟩
  | succ i ih =>
    have hsize : i + 1 < c.size := Children.lt_size_of_keyAt? hi
    obtain ⟨before, hbefore⟩ := Children.exists_keyAt? (Nat.lt_of_succ_lt hsize)
    obtain ⟨m, hm, hpos, hless⟩ := ih hbefore
    have hnext : c.nextKey? before = some key := by simp [Children.nextKey?, hpos, hi]
    obtain ⟨u, hu'⟩ := child?_of_keyAt? hbefore
    obtain ⟨m', hlt, hm'⟩ := (hm.cons hu hu').2 key hnext
    have hless' : ∀ j k l, j < i + 1 → c.keyAt? j = some k → t.EndsIn mode v l [k] → m' < l := by
      intro j k l hj hk hl
      rcases Nat.lt_or_eq_of_le (Nat.le_of_lt_succ hj) with hji | rfl
      · have hml := hless j k l hji hk hl
        omega
      · obtain rfl : before = k := Option.some.inj (hbefore.symm.trans hk)
        rw [← hm.unique hl]
        exact hlt
    exact ⟨m', hm', found hi hm' hless', hless'⟩

/-- Where stepping ends it has ended below every child, and no two children share a key. -/
theorem EndsIn.entries {n : Nat} (h : t.EndsIn mode v n []) (hc : t.expand? mode v = some c) :
    (c.entries.map (·.1)).Nodup ∧ ∀ e ∈ c.entries, ∃ m, t.EndsIn mode e.2 m [] := by
  have hu := expand?_unrestricted hc
  have keyOf : ∀ {i : Nat} {e : Key × Value}, c.entries[i]? = some e → c.keyAt? i = some e.1 := by
    intro i e he
    simp [Children.keyAt?_eq, he]
  constructor
  · rw [List.nodup_iff_getElem?_ne_getElem?]
    intro i j hij hj heq
    have hi : i < (c.entries.map (·.1)).length := by omega
    rw [List.getElem?_eq_getElem hi, List.getElem?_eq_getElem hj] at heq
    simp only [List.length_map] at hi hj
    have hki := keyOf (List.getElem?_eq_getElem hi)
    have hkj := keyOf (List.getElem?_eq_getElem hj)
    obtain ⟨-, -, hpi, -⟩ := h.keys hc i hki
    obtain ⟨-, -, hpj, -⟩ := h.keys hc j hkj
    have hkeys : c.entries[i].1 = c.entries[j].1 := by simpa using heq
    rw [hkeys, hpj] at hpi
    have := Option.some.inj hpi
    omega
  · intro e he
    obtain ⟨i, hi, rfl⟩ := List.mem_iff_getElem.mp he
    have hentry := List.getElem?_eq_getElem hi
    obtain ⟨m, hm, hpos, -⟩ := h.keys hc i (keyOf hentry)
    have hchild : c.child? c.entries[i].1 = some c.entries[i].2 := by
      simp [Children.child?, hpos, Children.valueAt?_of_entry hentry]
    exact (hm.cons hu hchild).1

/-- Stepping through a value without nodes that ends has met no repeated name. -/
theorem EndsIn.distinct {n : Nat} (h : t.EndsIn mode v n []) (hfree : v.held = []) :
    v.Distinct := by
  induction v using Value.induct generalizing n with
  | leaf v hv => cases v <;> simp_all [Value.isLeaf, Value.Distinct]
  | node id => simp at hfree
  | list items ih =>
    rw [Value.distinct_list]
    intro w hw
    obtain ⟨i, hi, rfl⟩ := List.mem_iff_getElem.mp hw
    have he : (Key.index i, items[i]) ∈ (Children.list items).entries := by
      simp [Children.entries, List.mem_zipIdx_iff_getElem?, hi]
    obtain ⟨m, hm⟩ := (h.entries rfl).2 _ he
    exact ih _ hw hm (List.flatMap_eq_nil_iff.mp (Value.held_list items ▸ hfree) _ hw)
  | map d ih =>
    rw [Value.distinct_map]
    obtain ⟨hnodup, hbelow⟩ := h.entries rfl
    constructor
    · have hnames : (Children.map d).entries.map (·.1) = d.names.map Key.name := by
        simp [Children.entries, Dict.names, Function.comp_def]
      rw [hnames] at hnodup
      exact hnodup.of_map _
    · intro e he
      have hmem : (Key.name e.1, e.2) ∈ (Children.map d).entries := by
        simp only [Children.entries, List.mem_map]
        exact ⟨e, he, rfl⟩
      obtain ⟨m, hm⟩ := hbelow _ hmem
      exact ih e he hm (List.flatMap_eq_nil_iff.mp (Value.held_map d ▸ hfree) e he)

end Tree

/-! ## Every value without nodes can be decoded -/

namespace Json.Number

theorem toInt64?_toInt (i : Int64) : (integer i.toInt).toInt64? = some i := by
  have hlow : Int64.minValue.toInt ≤ i.toInt := i.minValue_le_toInt
  have hhigh : i.toInt ≤ Int64.maxValue.toInt := i.toInt_le
  rw [toInt64?, if_pos ⟨hlow, hhigh⟩, Int64.ofInt_toInt]

end Json.Number

namespace Value

mutual

/-- The stored form of a value without nodes is decoded as the value, repeated names included. -/
theorem decode?_encode : ∀ v : Value, v.held = [] → decode? v.encode = some v
  | null, _ => by simp [encode, decode?]
  | bool b, _ => by simp [encode, decode?, Json.tagged, decodeBody?]
  | int i, _ => by
    simp [encode, decode?, Json.tagged, Json.ofInt, decodeBody?, Json.Number.toInt64?_toInt]
  | text s, _ => by simp [encode, decode?, Json.tagged, decodeBody?]
  | list items, h => by
    have hitems := decodeItems?_encode items (List.flatMap_eq_nil_iff.mp (held_list items ▸ h))
    simp [encode, decode?, Json.tagged, decodeBody?, hitems]
  | map ⟨entries⟩, h => by
    have hpairs := decodePairList?_encode entries
      (List.flatMap_eq_nil_iff.mp (held_map ⟨entries⟩ ▸ h))
    simp [encode, decode?, Json.tagged, decodeBody?, decodeMembers?, decodePairs?, hpairs]
  | node id, h => by simp at h

theorem decodeItems?_encode : ∀ items : List Value, (∀ v ∈ items, v.held = []) →
    decodeItems? (encodeItems items) = some items
  | [], _ => rfl
  | v :: rest, h => by
    have hv := decode?_encode v (h v (by simp))
    have hrest := decodeItems?_encode rest fun w hw => h w (List.mem_cons_of_mem v hw)
    simp [encodeItems, decodeItems?, hv, hrest]

theorem decodePairList?_encode : ∀ entries : List (String × Value),
    (∀ e ∈ entries, e.2.held = []) → decodePairList? (encodeEntries entries) = some entries
  | [], _ => rfl
  | (n, v) :: rest, h => by
    have hv := decode?_encode v (h (n, v) (by simp))
    have hrest := decodePairList?_encode rest fun e he => h e (List.mem_cons_of_mem (n, v) he)
    simp [encodeEntries, decodePairList?, hv, hrest]

end

end Value

namespace Tree

/-- A value without nodes, as decoding can give it, is stepped through to the end just when no map
in it repeats a name, and then no path comes up twice. Stepping never fails, so from any other such
value it goes on for ever. -/
theorem stepping_ends_iff_distinct (t : Tree) (v : Value) (mode : Expansion)
    (hfree : v.held = []) :
    (∃ j, Value.decode? j = some v) ∧
    (∀ n, ∃ r, t.positionAfter v mode n = .ok r) ∧
    ((∃ n, t.positionAfter v mode n = .ok none) ↔ v.Distinct) ∧
    (v.Distinct → ∀ m n p, t.positionAfter v mode m = .ok (some p) →
      t.positionAfter v mode n = .ok (some p) → m = n) := by
  refine ⟨⟨v.encode, v.decode?_encode hfree⟩, ?_, ?_, ?_⟩
  · intro n
    obtain ⟨r, hr, -⟩ := t.positionAfter_ok v mode n
    exact ⟨r, hr⟩
  · constructor
    · intro h
      obtain ⟨n, hn⟩ := h
      obtain ⟨m, hm⟩ := endsIn_of_positionAfter hn
      exact hm.distinct hfree
    · intro hd
      have hw := t.walkable_of_plain ⟨hfree, hd⟩
      exact ⟨(t.listing v mode).length, by simp [positionAfter_eq hw]⟩
  · intro hd m n p hm hn
    have hw := t.walkable_of_plain ⟨hfree, hd⟩
    rw [positionAfter_eq hw, ← List.getElem?_map] at hm hn
    have hpm : ((t.listing v mode).map (·.1))[m]? = some p := Except.ok.inj hm
    have hpn : ((t.listing v mode).map (·.1))[n]? = some p := Except.ok.inj hn
    obtain ⟨hlt, -⟩ := List.getElem?_eq_some_iff.mp hpm
    exact (List.getElem?_inj hlt (nodup_listing hw)).mp (hpm.trans hpn.symm)

/-- A list of two maps that share their names between them but repeat none. -/
def sharedNames : Value :=
  .list [.map ⟨[("a", .null), ("b", .list [])]⟩, .map ⟨[("b", .int 1), ("a", .null)]⟩]

theorem stepping_ends_iff_distinct_sharedNames :
    sharedNames.held = [] ∧ (∃ j, Value.decode? j = some sharedNames) ∧
    ∃ n, empty.positionAfter sharedNames .nodeBoundary n = .ok none := by
  have hfree : sharedNames.held = [] := by decide
  obtain ⟨hdecoded, -, hends, -⟩ :=
    stepping_ends_iff_distinct empty sharedNames .nodeBoundary hfree
  exact ⟨hfree, hdecoded, hends.mpr (by decide)⟩

/-- A map with one name twice. -/
def twice : Value := .map ⟨[("a", .null), ("a", .null)]⟩

/-- Decoding gives a map with a repeated name, and stepping through it stays at that name. -/
theorem stepping_stays_at_repeated :
    Value.decode? (.object ⟨[("Map", .object ⟨[("entries",
      .array [.array [.string "a", .string "Null"], .array [.string "a", .string "Null"]])]⟩)]⟩) =
        some twice ∧
    twice.held = [] ∧
    ∀ mode n, empty.positionAfter twice mode (n + 1) = .ok (some [.name "a"]) := by
  refine ⟨by decide, by decide, ?_⟩
  intro mode n
  have hstep : empty.increment twice [.name "a"] mode = .ok (some [.name "a"]) := by
    cases mode <;> decide
  induction n with
  | zero => cases mode <;> decide
  | succ n ih =>
    rw [positionAfter, ih]
    exact hstep

end Tree

end Trellis
