import Trellis.Proofs.Erasing
import Trellis.Proofs.Keys
import Trellis.Proofs.StepErrors

/-!
# Lookups along joined paths

Looking a path up uses the way it has come only for the error it may end in. So a lookup can be
broken off anywhere and taken up again from the value it has reached: it finds the same value, and
an error only lacks the first part of the path in front of its own. A lookup that fails fails at one
depth, at the first key that cannot be followed, and the keys behind it play no part.

`Tree.Misses` says why a key cannot be followed from a value, and which error reports it. Nothing
is asked of the tree: names may repeat, nodes may be unknown or lie below themselves.
-/

namespace Trellis

/-- The error with a path in front of its own; an error without a path stays as it is. -/
def TreeError.under (above : Path) : TreeError → TreeError
  | keyNotFound path key => keyNotFound (above ++ path) key
  | indexOutOfBounds path index length => indexOutOfBounds (above ++ path) index length
  | notAContainer path found => notAContainer (above ++ path) found
  | unsupportedShape path found => unsupportedShape (above ++ path) found
  | e => e

namespace Tree

variable {t : Tree} {root v w : Value} {key : Key} {path p q above : Path} {e : TreeError}
  {d d' : Nat}

/-- Why a key cannot be followed from a value that stands at `path`, and the error that says so. -/
inductive Misses (t : Tree) (path : Path) (key : Key) : Value → TreeError → Prop
  | unknown {id : NodeId} (hid : t.get? id = none) : Misses t path key (.node id) (.unknownNode id)
  | leaf {v : Value} (hv : v.isLeaf) : Misses t path key v (.notAContainer path v.typeName)
  | beyond {items : List Value} {i : Nat} (hkey : key = .index i) (hi : items.length ≤ i) :
      Misses t path key (.list items) (.indexOutOfBounds path i items.length)
  | absent {v : Value} {c : Children} (hc : t.expand? .unrestricted v = some c)
      (hkey : key ∉ c.keys) (hother : ∀ items i, v = .list items → key ≠ .index i) :
      Misses t path key v (.keyNotFound path key)

theorem expand?_eq_list {mode : Expansion} {items : List Value} :
    t.expand? mode v = some (.list items) ↔ v = .list items := by
  cases v with
  | list _ => simp [expand?]
  | node id => cases mode <;> simp [expand?, Node.children]
  | _ => simp [expand?]

theorem isLeaf_of_expand? (h : t.expand? .unrestricted v = none) (hnode : ∀ id, v ≠ .node id) :
    v.isLeaf := by
  cases v with
  | list items => cases h
  | map d => cases h
  | node id => exact absurd rfl (hnode id)
  | _ => rfl

/-- A step down that fails has met a key that cannot be followed. -/
theorem misses_of_child (h : t.child v path key = .error e) : t.Misses path key v e := by
  unfold child at h
  cases hc : t.expand? .unrestricted v with
  | none =>
    simp only [hc] at h
    split at h
    · cases h
      exact .unknown (by simpa [expand?] using hc)
    · rename_i hnode
      cases h
      exact .leaf (isLeaf_of_expand? hc hnode)
  | some c =>
    cases hw : c.child? key with
    | some w => simp [hc, hw] at h
    | none =>
      have hkey : key ∉ c.keys := Children.child?_eq_none_iff.mp hw
      simp only [hc, hw] at h
      split at h
      · rename_i items i
        cases h
        obtain rfl := expand?_eq_list.mp hc
        exact .beyond rfl (by simpa [Children.child?_list, Key.asIndex?] using hw)
      · rename_i hother
        cases h
        refine .absent hc hkey ?_
        rintro items i rfl hindex
        exact hother items i (Option.some.inj hc).symm hindex

/-- From a key that cannot be followed a step down fails, with the error that says why. -/
theorem Misses.child_eq (h : t.Misses path key v e) : t.child v path key = .error e := by
  cases h with
  | unknown hid => simp [child, expand?, hid]
  | leaf hv => cases v <;> simp_all [child, expand?, Value.isLeaf]
  | beyond hkey hi => simp [child_list, hkey, hi]
  | absent hc hkey hother =>
    have hnone := Children.child?_eq_none_iff.mpr hkey
    simp only [child, hc, hnone]
    split
    · rename_i items i
      exact absurd rfl (hother items i (expand?_eq_list.mp hc))
    · rfl

/-! ## Going on from where a path leads -/

theorem Misses.under (h : t.Misses path key v e) (above : Path) :
    t.Misses (above ++ path) key v (e.under above) := by
  cases h with
  | unknown hid => exact .unknown hid
  | leaf hv => exact .leaf hv
  | beyond hkey hi => exact .beyond hkey hi
  | absent hc hkey hother => exact .absent hc hkey hother

theorem child_under (above path : Path) :
    t.child v (above ++ path) key = (t.child v path key).mapError (TreeError.under above) := by
  cases h : t.child v path key with
  | ok w => exact child_at h (above ++ path)
  | error e => exact ((misses_of_child h).under above).child_eq

theorem resolveFrom_under (above path : Path) : t.resolveFrom v (above ++ path) p =
    (t.resolveFrom v path p).mapError (TreeError.under above) := by
  induction p generalizing v path with
  | nil => rfl
  | cons key p ih =>
    rw [resolveFrom, resolveFrom, child_under]
    cases hw : t.child v path key with
    | error e => rfl
    | ok w =>
      show t.resolveFrom w (above ++ path ++ [key]) p =
        (t.resolveFrom w (path ++ [key]) p).mapError (TreeError.under above)
      rw [List.append_assoc, ih]

theorem resolveFrom_append_error (h : t.resolveFrom v path p = .error e) (q : Path) :
    t.resolveFrom v path (p ++ q) = .error e := by
  induction p generalizing v path with
  | nil => cases h
  | cons key p ih =>
    rw [List.cons_append, resolveFrom_cons_eq_error]
    exact (resolveFrom_cons_eq_error.mp h).imp_right fun ⟨w, hw, hrest⟩ => ⟨w, hw, ih hrest⟩

/-- Looking up a joined path is looking up its second part from where the first one leads. -/
theorem resolve_append_of_ok (h : t.resolve root p = .ok v) (q : Path) :
    t.resolve root (p ++ q) = (t.resolve v q).mapError (TreeError.under p) := by
  have hunder := resolveFrom_under (t := t) (v := v) (p := q) p []
  rw [List.append_nil] at hunder
  exact (resolveFrom_append h q).trans hunder

/-! ## The depth at which a lookup fails -/

/-- A lookup fails just when a first part of its path leads to a value from which the next key
cannot be followed. -/
theorem resolve_eq_error_iff : t.resolve root p = .error e ↔ ∃ above key rest v,
    p = above ++ key :: rest ∧ t.resolve root above = .ok v ∧ t.Misses above key v e := by
  constructor
  · intro h
    -- From the back: the last key is to blame if all the keys in front of it are found.
    induction p using List.reverseRecOn with
    | nil => cases h
    | append_singleton front last ih =>
      cases hfront : t.resolve root front with
      | error e' =>
        have hsame := (resolveFrom_append_error hfront [last]).symm.trans h
        obtain rfl : e' = e := Except.error.inj hsame
        obtain ⟨above, key, rest, v, rfl, hv, hmiss⟩ := ih hfront
        exact ⟨above, key, rest ++ [last], v, by simp, hv, hmiss⟩
      | ok v =>
        have hrest : t.resolveFrom v front [last] = .error e :=
          (resolveFrom_append hfront [last]).symm.trans h
        rcases resolveFrom_cons_eq_error.mp hrest with hlast | ⟨w, -, hnil⟩
        · exact ⟨front, last, [], v, rfl, hfront, misses_of_child hlast⟩
        · cases hnil
  · rintro ⟨above, key, rest, v, rfl, hv, hmiss⟩
    refine (resolveFrom_append hv (key :: rest)).trans (resolveFrom_cons_eq_error.mpr (.inl ?_))
    exact hmiss.child_eq

/-- The first `d` keys of a path are found, and with the next one they are not. -/
def StopsAt (t : Tree) (root : Value) (p : Path) (d : Nat) : Prop :=
  d < p.length ∧ (∃ v, t.resolve root (p.take d) = .ok v) ∧
    ∀ w, t.resolve root (p.take (d + 1)) ≠ .ok w

/-- What is found deeper down is found through all that lies above. -/
theorem StopsAt.le (h : t.StopsAt root p d) (h' : t.StopsAt root p d') : d' ≤ d := by
  by_contra hlt
  obtain ⟨-, -, hstop⟩ := h
  obtain ⟨-, ⟨v, hv⟩, -⟩ := h'
  have hsplit := List.take_append_drop (d + 1) (p.take d')
  rw [List.take_take, Nat.min_eq_left (by omega)] at hsplit
  rw [← hsplit] at hv
  obtain ⟨w, hw, -⟩ := resolve_append_eq_ok.mp hv
  exact hstop w hw

theorem StopsAt.unique (h : t.StopsAt root p d) (h' : t.StopsAt root p d') : d = d' :=
  Nat.le_antisymm (h'.le h) (h.le h')

theorem stopsAt_of_misses {rest : Path} (hv : t.resolve root above = .ok v)
    (hmiss : t.Misses above key v e) : t.StopsAt root (above ++ key :: rest) above.length := by
  refine ⟨by simp, ⟨v, by simpa using hv⟩, fun w hw => ?_⟩
  rw [List.take_length_add_append, List.take_succ_cons, List.take_zero,
    resolve_eq_error_iff.mpr ⟨above, key, [], v, rfl, hv, hmiss⟩] at hw
  cases hw

/-- A lookup goes on from where the first part of its path leads. From there it finds what it would
find alone, and an error gets the first part in front of its path. A lookup that fails is not mended
by further keys. There is one depth at which it fails: the keys above are found, the next one cannot
be followed, and the error says why, with just the keys above as its path. -/
theorem lookups_compose (t : Tree) (root : Value) (p : Path) :
    (∀ v, t.resolve root p = .ok v → ∀ q,
      (∀ w, t.resolve root (p ++ q) = .ok w ↔ t.resolve v q = .ok w) ∧
      ∀ e, t.resolve v q = .error e → t.resolve root (p ++ q) = .error (e.under p)) ∧
    ∀ e, t.resolve root p = .error e →
      (∀ q, t.resolve root (p ++ q) = .error e) ∧
      (∃! d, t.StopsAt root p d) ∧
      ∀ d, t.StopsAt root p d → ∃ v key, t.resolve root (p.take d) = .ok v ∧
        p[d]? = some key ∧ t.Misses (p.take d) key v e := by
  constructor
  · intro v hv q
    rw [resolve_append_of_ok hv]
    constructor
    · intro w
      cases t.resolve v q with
      | ok x => rfl
      | error e => simp [Except.mapError]
    · intro e he
      rw [he, Except.mapError]
  · intro e he
    obtain ⟨above, key, rest, v, rfl, hv, hmiss⟩ := resolve_eq_error_iff.mp he
    have hstop : t.StopsAt root (above ++ key :: rest) above.length := stopsAt_of_misses hv hmiss
    refine ⟨resolveFrom_append_error he, ⟨_, hstop, fun d hd => hd.unique hstop⟩, ?_⟩
    intro d hd
    obtain rfl := hd.unique hstop
    exact ⟨v, key, by simpa using hv, by simp, by simpa using hmiss⟩

/-- Below a pair in a list, the first part of the path leads into the pair and the second one to a
leaf it holds, from whose number no key leads on. An index past the end of the list fails at once,
whatever follows. -/
theorem lookups_compose_shared :
    shared.resolve (.list [.node ⟨1⟩]) [.index 0, .name "first"] =
      .ok (.list [.node ⟨0⟩, .list []]) ∧
    shared.resolve (.list [.node ⟨1⟩])
        ([.index 0, .name "first"] ++ [.index 0, .name "value", .name "x"]) =
      .error (.notAContainer [.index 0, .name "first", .index 0, .name "value"] "int") ∧
    shared.resolve (.list [.node ⟨1⟩]) [.index 1] = .error (.indexOutOfBounds [] 1 1) ∧
    (∀ q, shared.resolve (.list [.node ⟨1⟩]) ([.index 1] ++ q) =
      .error (.indexOutOfBounds [] 1 1)) ∧
    ∃! d, shared.StopsAt (.list [.node ⟨1⟩]) [.index 1] d := by
  have hfirst : shared.resolve (.list [.node ⟨1⟩]) [.index 0, .name "first"] =
      .ok (.list [.node ⟨0⟩, .list []]) := by decide
  have hpast : shared.resolve (.list [.node ⟨1⟩]) [.index 1] =
      .error (.indexOutOfBounds [] 1 1) := by decide
  obtain ⟨hon, -⟩ := lookups_compose shared (.list [.node ⟨1⟩]) [.index 0, .name "first"]
  obtain ⟨-, hfail⟩ := lookups_compose shared (.list [.node ⟨1⟩]) [.index 1]
  obtain ⟨hsame, hdepth, -⟩ := hfail _ hpast
  refine ⟨hfirst, ?_, hpast, hsame, hdepth⟩
  exact (hon _ hfirst [.index 0, .name "value", .name "x"]).2
    (.notAContainer [.index 0, .name "value"] "int") (by decide)

end Tree

end Trellis
