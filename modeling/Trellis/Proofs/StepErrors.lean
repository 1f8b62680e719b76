import Trellis.Proofs.Assigning
import Trellis.Proofs.Ending

/-!
# When stepping fails

A step looks its path up key by key, and only then moves: along in a container it has come through,
and back down along last children. None of the later questions can fail. The containers on the way
are there because a key was followed from each of them, and the keys a container names lead to a
child, even where a name stands there twice. So a step fails just when its path is not found, with
the error of looking it up.

Going down along last children ends because no node lies below itself. Names may repeat and nodes
may be unknown.
-/

namespace Trellis

namespace Tree

variable {t : Tree} {mode : Expansion} {v w x root : Value} {c : Children} {key : Key}
  {p above : Path} {e : TreeError}

/-! ## Paths that are not found -/

theorem resolveFrom_cons_eq_error {path : Path} : t.resolveFrom v path (key :: p) = .error e ↔
    t.child v path key = .error e ∨
      ∃ w, t.child v path key = .ok w ∧ t.resolveFrom w (path ++ [key]) p = .error e := by
  rw [resolveFrom]
  cases hw : t.child v path key with
  | error e' => simp [bind, Except.bind]
  | ok w => simp [bind, Except.bind]

theorem incrementFrom_error {path : Path} (h : t.resolveFrom v path p = .error e) :
    t.incrementFrom mode v path p = .error e := by
  induction p generalizing v path with
  | nil => cases h
  | cons key p ih =>
    rcases resolveFrom_cons_eq_error.mp h with hw | ⟨w, hw, hrest⟩
    · simp [incrementFrom, hw, bind, Except.bind]
    · simp [incrementFrom, hw, ih hrest, bind, Except.bind]

theorem decrementFrom_error {path : Path} (h : t.resolveFrom v path p = .error e) :
    t.decrementFrom mode v path p = .error e := by
  induction p generalizing v path with
  | nil => cases h
  | cons key p ih =>
    -- The last key of a path is treated on its own, so the error may come from either clause.
    cases p with
    | nil =>
      rcases resolveFrom_cons_eq_error.mp h with hw | ⟨w, hw, hrest⟩
      · simp [decrementFrom, hw, bind, Except.bind]
      · cases hrest
    | cons next p =>
      rcases resolveFrom_cons_eq_error.mp h with hw | ⟨w, hw, hrest⟩
      · simp [decrementFrom, hw, bind, Except.bind]
      · simp [decrementFrom, hw, ih hrest, bind, Except.bind]

/-! ## Keys that a container names -/

/-- A key that stands somewhere in a container leads to a child. -/
theorem child_of_keyAt? {i : Nat} (hc : t.expand? .unrestricted v = some c)
    (hkey : c.keyAt? i = some key) (path : Path) :
    ∃ w, t.child v path key = .ok w ∧ (key, w) ∈ t.entries .unrestricted v := by
  obtain ⟨w, hw⟩ := child?_of_keyAt? hkey
  obtain ⟨before, after, hs⟩ := Children.split_of_child? hw
  exact ⟨w, child_eq_ok.mpr ⟨c, hc, hw⟩, mem_entries.mpr ⟨c, hc, by simp [hs]⟩⟩

/-- The key before another one stands one place earlier, or is found earlier still. -/
theorem prevKey?_earlier {prev : Key} (h : c.prevKey? key = some prev) :
    ∃ i j, c.position? key = some i ∧ c.position? prev = some j ∧ j < i ∧
      c.keyAt? (i - 1) = some prev := by
  obtain ⟨i, hi, hprev⟩ := Option.bind_eq_some_iff.mp h
  cases i with
  | zero => cases hprev
  | succ i =>
    have hkey : c.keyAt? i = some prev := hprev
    obtain ⟨j, hji, hj⟩ := Children.position?_le_of_keyAt? hkey
    exact ⟨i + 1, j, hi, hj, by omega, hkey⟩

/-! ## The way down along last children -/

theorem entries_eq_nil_of_lastKey? (h : (t.expand? mode v).bind Children.lastKey? = none) :
    t.entries mode v = [] := by
  unfold entries
  cases hc : t.expand? mode v with
  | none => rfl
  | some c =>
    rw [hc, Option.bind_some, Children.lastKey?_eq, Option.map_eq_none_iff] at h
    exact List.getLast?_eq_none_iff.mp h

/-- With fuel for every way down, going down along last children does not fail. It ends at a value
that is found there and has no children in the given mode. -/
theorem lastBelow_of_grounded {fuel : Nat} (hg : t.Grounded v) (hf : t.span v ≤ fuel)
    (path : Path) : ∃ q x, t.lastBelow mode fuel v path = .ok (path ++ q) ∧
      t.resolve v q = .ok x ∧ t.entries mode x = [] := by
  induction fuel generalizing v path with
  | zero =>
    have := t.span_pos v
    omega
  | succ fuel ih =>
    rw [lastBelow]
    cases hlast : (t.expand? mode v).bind Children.lastKey? with
    | none => exact ⟨[], v, by simp, rfl, entries_eq_nil_of_lastKey? hlast⟩
    | some last =>
      obtain ⟨c, hc, hkey⟩ := Option.bind_eq_some_iff.mp hlast
      obtain ⟨w, hw, he⟩ :=
        child_of_keyAt? (expand?_unrestricted hc) (Children.keyAt?_of_lastKey? hkey) path
      have hlt : t.span w < t.span v := hg.span_lt he
      have hgw : t.Grounded w := hg.entry he
      obtain ⟨q, x, hq, hx, hnil⟩ := ih hgw (by omega) (path ++ [last])
      refine ⟨last :: q, x, ?_, ?_, hnil⟩
      · simp [hw, hq, bind, Except.bind]
      · exact resolve_cons_eq_ok.mpr ⟨w, he, child_at hw [], hx⟩

/-! ## Steps back from paths that are found -/

/-- The last key of a found path stands in a container, and the key before it can be gone
down from. -/
theorem descent_of_prevKey? {prev : Key} (hg : t.Grounded v)
    (hc : t.expand? .unrestricted v = some c) (hprev : c.prevKey? key = some prev)
    (mode : Expansion) (path : Path) : ∃ w q x, t.child v path prev = .ok w ∧
      t.lastBelow mode (t.reach w) w (path ++ [prev]) = .ok (path ++ prev :: q) ∧
      t.resolve w q = .ok x ∧ t.entries mode x = [] := by
  obtain ⟨i, j, -, -, -, hkey⟩ := prevKey?_earlier hprev
  obtain ⟨w, hw, he⟩ := child_of_keyAt? hc hkey path
  have hgw : t.Grounded w := hg.entry he
  obtain ⟨q, x, hq, hx, hnil⟩ := lastBelow_of_grounded hgw (t.span_le_reach w) (path ++ [prev])
  exact ⟨w, q, x, hw, by simpa using hq, hx, hnil⟩

/-- From a path that is found and not empty, a step back does not fail. It leads to a path that is
found again and comes before. -/
theorem decrementFrom_of_resolve (hg : t.Grounded v) (h : t.resolve v p = .ok x) (hne : p ≠ [])
    (mode : Expansion) (path : Path) : ∃ q y,
      t.decrementFrom mode v path p = .ok (some (path ++ q)) ∧ t.resolve v q = .ok y ∧
        t.Precedes v q p := by
  induction p generalizing v path with
  | nil => exact absurd rfl hne
  | cons key p ih =>
    obtain ⟨w, he, hw, hx⟩ := resolve_cons_eq_ok.mp h
    obtain ⟨c, hc, hk⟩ := child_eq_ok.mp hw
    have hw' : t.child v path key = .ok w := child_at hw path
    cases p with
    | nil =>
      cases hprev : c.prevKey? key with
      | none =>
        refine ⟨[], v, ?_, resolve_nil t v, .extension⟩
        simp [decrementFrom, hw', lateral_of_expand? hc, hprev, bind, Except.bind, pure,
          Except.pure]
      | some prev =>
        obtain ⟨u, q, y, hu, hlast, hy, -⟩ := descent_of_prevKey? hg hc hprev mode path
        obtain ⟨i, j, hi, hj, hji, hkey⟩ := prevKey?_earlier hprev
        refine ⟨prev :: q, y, ?_, ?_, .parting hc hj hi hji⟩
        · simp [decrementFrom, hw', lateral_of_expand? hc, hprev, hu, hlast, bind, Except.bind,
            pure, Except.pure]
        · exact resolve_of_child hu hy
    | cons next p =>
      obtain ⟨q, y, hq, hy, hbefore⟩ := ih (hg.entry he) hx (by simp) (path ++ [key])
      refine ⟨key :: q, y, ?_, resolve_cons_eq_ok.mpr ⟨w, he, hw, hy⟩, .within hc hk hbefore⟩
      simp [decrementFrom, hw', hq, bind, Except.bind]

theorem decrement_of_resolve (hg : t.Grounded root) (h : t.resolve root p = .ok x) (hne : p ≠ [])
    (mode : Expansion) : ∃ q y, t.decrement root p mode = .ok (some q) ∧
      t.resolve root q = .ok y ∧ t.Precedes root q p := by
  simpa [decrement] using decrementFrom_of_resolve hg h hne mode []

theorem decrement_ok (hg : t.Grounded root) (h : t.resolve root p = .ok x) (mode : Expansion) :
    ∃ r, t.decrement root p mode = .ok r := by
  by_cases hne : p = []
  · subst hne
    exact ⟨none, rfl⟩
  · obtain ⟨q, -, hq, -⟩ := decrement_of_resolve hg h hne mode
    exact ⟨some q, hq⟩

theorem Grounded.of_resolve (hg : t.Grounded root) (h : t.resolve root p = .ok v) : t.Grounded v :=
  fun id hid => hg id (beneath_of_resolve h hid)

theorem expand?_of_lateral {path : Path} (h : t.lateral v path = .ok c) :
    t.expand? .unrestricted v = some c := by
  unfold lateral at h
  split at h
  · rename_i c' hc
    rw [hc, Except.ok.inj h]
  · cases h

/-- Each key of a found path is followed from a value that has children. -/
theorem lateral_of_resolve {rest : Path} (h : t.resolve root (above ++ key :: rest) = .ok x) :
    ∃ v c, t.resolve root above = .ok v ∧ t.lateral v above = .ok c := by
  obtain ⟨v, hv, hrest⟩ := resolve_append_eq_ok.mp h
  obtain ⟨w, -, hw, -⟩ := resolve_cons_eq_ok.mp hrest
  obtain ⟨c, hc, -⟩ := child_eq_ok.mp hw
  exact ⟨v, c, hv, lateral_of_expand? hc above⟩

/-- What fails wherever a lookup fails, with its error, and answers wherever it answers, fails just
when the lookup does. -/
theorem error_iff_of_lookup {α β : Type} {lookup : Except TreeError α} {r : Except TreeError β}
    (herr : ∀ e, lookup = .error e → r = .error e) (hok : ∀ a, lookup = .ok a → ∃ b, r = .ok b)
    (e : TreeError) : r = .error e ↔ lookup = .error e := by
  cases hl : lookup with
  | error e' =>
    rw [herr e' hl, Except.error.injEq, Except.error.injEq]
  | ok a =>
    obtain ⟨b, hb⟩ := hok a hl
    simp [hb]

theorem increment_error_iff (t : Tree) (root : Value) (p : Path) (mode : Expansion)
    (e : TreeError) : t.increment root p mode = .error e ↔ t.resolve root p = .error e := by
  refine error_iff_of_lookup (fun e h => incrementFrom_error h) (fun x hx => ?_) e
  obtain ⟨r, hr, -⟩ := increment_of_resolve hx mode
  exact ⟨r, hr⟩

theorem decrement_error_iff (hg : t.Grounded root) (p : Path) (mode : Expansion) (e : TreeError) :
    t.decrement root p mode = .error e ↔ t.resolve root p = .error e :=
  error_iff_of_lookup (fun _ h => decrementFrom_error h) (fun _ hx => decrement_ok hg hx mode) e

/-- A step in either direction fails just when looking its path up fails, and with the same error,
which is never that of an unsupported shape. On a path that is found, the way along is open at every
key, and the way down from the key before the last one ends at a value without children. -/
theorem steps_fail_as_lookups (hg : t.Grounded root) (p : Path) (mode : Expansion) :
    (∀ e, t.increment root p mode = .error e ↔ t.resolve root p = .error e) ∧
    (∀ e, t.decrement root p mode = .error e ↔ t.resolve root p = .error e) ∧
    (∀ place found, t.increment root p mode ≠ .error (.unsupportedShape place found) ∧
      t.decrement root p mode ≠ .error (.unsupportedShape place found)) ∧
    ∀ x, t.resolve root p = .ok x →
      (∀ above key rest, p = above ++ key :: rest →
        ∃ v c, t.resolve root above = .ok v ∧ t.lateral v above = .ok c) ∧
      ∀ above key v c prev, p = above ++ [key] → t.resolve root above = .ok v →
        t.lateral v above = .ok c → c.prevKey? key = some prev →
        ∃ w q y, t.child v above prev = .ok w ∧
          t.lastBelow mode (t.reach w) w (above ++ [prev]) = .ok (above ++ prev :: q) ∧
          t.resolve w q = .ok y ∧ t.entries mode y = [] := by
  have hinc := t.increment_error_iff root p mode
  have hdec := decrement_error_iff hg p mode
  refine ⟨hinc, hdec, ?_, ?_⟩
  · -- Looking up gives address errors only.
    intro place found
    have hshape : t.resolve root p ≠ .error (.unsupportedShape place found) := by
      intro h
      cases isAddress_of_resolveFrom h
    exact ⟨fun h => hshape ((hinc _).mp h), fun h => hshape ((hdec _).mp h)⟩
  · intro x hx
    constructor
    · rintro above key rest rfl
      exact lateral_of_resolve hx
    · rintro above key v c prev rfl hv hc hprev
      exact descent_of_prevKey? (hg.of_resolve hv) (expand?_of_lateral hc) hprev mode above

/-- A map that has a name twice, the second time for a node that is not there, and a pair
after it. -/
def twiceNamed : Value :=
  .list [.map ⟨[("a", .int 1), ("b", .null), ("a", .node ⟨9⟩)]⟩, .node ⟨1⟩]

/-- A name that is not there is an error of both steps. The step back from the pair goes down to the
last name of the map, which is found at its first entry. -/
theorem steps_fail_as_lookups_twiceNamed :
    shared.Grounded twiceNamed ∧
    shared.increment twiceNamed [.index 0, .name "c"] .nodeBoundary =
      .error (.keyNotFound [.index 0] (.name "c")) ∧
    shared.decrement twiceNamed [.index 0, .name "c"] .nodeBoundary =
      .error (.keyNotFound [.index 0] (.name "c")) ∧
    (∀ e, shared.decrement twiceNamed [.index 1] .nodeBoundary ≠ .error e) ∧
    ∃ w q y, shared.child twiceNamed [] (.index 0) = .ok w ∧
      shared.lastBelow .nodeBoundary (shared.reach w) w [.index 0] = .ok (.index 0 :: q) ∧
      shared.resolve w q = .ok y ∧ shared.entries .nodeBoundary y = [] := by
  have hd : shared.Descending := by decide
  have hg : shared.Grounded twiceNamed := fun _ _ h => Nat.lt_irrefl _ (hd.lt_of_below h)
  obtain ⟨hinc, hdec, -⟩ := steps_fail_as_lookups hg [.index 0, .name "c"] .nodeBoundary
  obtain ⟨-, hback, -, hfound⟩ := steps_fail_as_lookups hg [.index 1] .nodeBoundary
  refine ⟨hg, (hinc _).mpr (by decide), (hdec _).mpr (by decide), ?_, ?_⟩
  · intro e he
    cases (hback e).mp he
  · exact (hfound (.node ⟨1⟩) (by decide)).2 [] (.index 1) twiceNamed _ (.index 0) rfl rfl rfl rfl

end Tree

end Trellis
