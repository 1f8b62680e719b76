import Trellis.Proofs.StepErrors

/-!
# Stepping moves on

A step forward leads to a path that comes later in the order of positions, a step back to one that
comes earlier. This is so from every path that is found, and not only from those that the cursor of
the given mode hands out: a path inside a node, which the closed cursor never enters, moves along
there, climbs out and goes on. There the two steps do not undo each other, but each keeps its
direction. The positions are finitely many, so stepping in one direction ends and comes to no
position twice.

Every way down from the root has to end, and no name may repeat.
-/

namespace Trellis

namespace Tree

variable {t : Tree} {mode : Expansion} {v w x root : Value} {c : Children} {key : Key}
  {p q : Path} {direction : Direction} {trail : List Path}

/-! ## One step -/

/-- Where names are distinct, the key after another one is found one place later. -/
theorem nextKey?_later {next : Key} (hd : c.Distinct) (h : c.nextKey? key = some next) :
    ∃ i, c.position? key = some i ∧ c.position? next = some (i + 1) := by
  obtain ⟨i, hi, hnext⟩ := (Children.nextKey?_eq_some_iff hd).mp h
  exact ⟨i, (Children.position?_eq_some_iff hd).mpr hi,
    (Children.position?_eq_some_iff hd).mpr hnext⟩

theorem precedes_of_increment (hd : t.DistinctBelow v)
    (h : t.increment v p mode = .ok (some q)) : t.Precedes v p q := by
  induction p generalizing v q with
  | nil =>
    rw [increment_nil, Except.ok.injEq] at h
    obtain ⟨first, -, rfl⟩ := Option.map_eq_some_iff.mp h
    exact .extension
  | cons key p ih =>
    obtain ⟨c, w, s, hc, hk, hs, hq⟩ := increment_cons_eq_ok.mp h
    obtain ⟨before, after, hsplit⟩ := Children.split_of_child? hk
    have he : (key, w) ∈ t.entries .unrestricted v := mem_entries.mpr ⟨c, hc, by simp [hsplit]⟩
    cases s with
    | some q' =>
      obtain rfl : q = key :: q' := by simpa using hq
      exact .within hc hk (ih (hd.entry he) hs)
    | none =>
      obtain ⟨next, hnext, rfl⟩ : ∃ next, c.nextKey? key = some next ∧ [next] = q := by
        simpa [eq_comm] using hq
      obtain ⟨i, hi, hlater⟩ := nextKey?_later (hd.children hc) hnext
      exact .parting hc hi hlater (Nat.lt_succ_self i)

/-- `q` lies ahead of `p` in a direction of walking. -/
def Ahead (t : Tree) (root : Value) : Direction → Path → Path → Prop
  | .forward, p, q => t.Precedes root p q
  | .backward, p, q => t.Precedes root q p

theorem Ahead.ne (h : t.Ahead root direction p q) : p ≠ q := by
  cases direction with
  | forward => exact Precedes.ne h
  | backward => exact (Precedes.ne h).symm

theorem Ahead.trans {r : Path} (h : t.Ahead root direction p q)
    (h' : t.Ahead root direction q r) : t.Ahead root direction p r := by
  cases direction with
  | forward => exact Precedes.trans h h'
  | backward => exact Precedes.trans h' h

instance (t : Tree) (root : Value) (direction : Direction) :
    IsTrans Path (t.Ahead root direction) :=
  ⟨fun _ _ _ => Ahead.trans⟩

/-- From a path that is found, a step does not fail, and where it leads to is found and
lies ahead. -/
theorem step_ahead (hw : t.Walkable root) (h : t.resolve root p = .ok x) (mode : Expansion)
    (direction : Direction) : ∃ r, t.step root p mode direction = .ok r ∧
      ∀ q, r = some q → (∃ y, t.resolve root q = .ok y) ∧ t.Ahead root direction p q := by
  cases direction with
  | forward =>
    obtain ⟨r, hr, hfound⟩ := increment_of_resolve h mode
    refine ⟨r, hr, ?_⟩
    rintro q rfl
    exact ⟨hfound q rfl, precedes_of_increment hw.distinct hr⟩
  | backward =>
    by_cases hne : p = []
    · subst hne
      exact ⟨none, rfl, by simp⟩
    · obtain ⟨q, y, hq, hy, hbefore⟩ := decrement_of_resolve hw.grounded h hne mode
      refine ⟨some q, hq, ?_⟩
      rintro q' hq'
      obtain rfl := Option.some.inj hq'
      exact ⟨⟨y, hy⟩, hbefore⟩

theorem ahead_of_step (hw : t.Walkable root) (hp : t.resolve root p = .ok x)
    (h : t.step root p mode direction = .ok (some q)) :
    ∃ y, t.resolve root q = .ok y ∧ t.Ahead root direction p q := by
  obtain ⟨r, hr, hahead⟩ := step_ahead hw hp mode direction
  obtain rfl : some q = r := Except.ok.inj (h.symm.trans hr)
  obtain ⟨⟨y, hy⟩, hpq⟩ := hahead q rfl
  exact ⟨y, hy, hpq⟩

/-! ## Whole walks -/

/-- The positions that stepping visits from a path on, until it finds nothing more. -/
inductive Trail (t : Tree) (root : Value) (mode : Expansion) (direction : Direction) :
    Path → List Path → Prop where
  | last {p : Path} : t.step root p mode direction = .ok none → Trail t root mode direction p [p]
  | next {p q : Path} {trail : List Path} : t.step root p mode direction = .ok (some q) →
    Trail t root mode direction q trail → Trail t root mode direction p (p :: trail)

theorem Trail.head? (h : t.Trail root mode direction p trail) : trail.head? = some p := by
  cases h with
  | last _ => rfl
  | next _ _ => rfl

/-- Along a trail every position lies ahead of those before it. -/
theorem Trail.pairwise (hw : t.Walkable root) (h : t.Trail root mode direction p trail)
    (hp : t.resolve root p = .ok x) : trail.Pairwise (t.Ahead root direction) := by
  rw [← List.isChain_iff_pairwise]
  induction h generalizing x with
  | last _ => exact .singleton _
  | @next p q trail hstep htrail ih =>
    obtain ⟨y, hy, hpq⟩ := ahead_of_step hw hp hstep
    refine List.isChain_cons.mpr ⟨?_, ih hy⟩
    intro z hz
    obtain rfl : q = z := Option.some.inj (htrail.head?.symm.trans hz)
    exact hpq

/-- A trail ends where nothing more is found. -/
theorem Trail.getLast? (hw : t.Walkable root) (h : t.Trail root mode direction p trail)
    (hp : t.resolve root p = .ok x) : ∃ z y, trail.getLast? = some z ∧
      t.resolve root z = .ok y ∧ t.step root z mode direction = .ok none := by
  induction h generalizing x with
  | @last p hstep => exact ⟨p, x, rfl, hp, hstep⟩
  | @next p q trail hstep htrail ih =>
    obtain ⟨y, hy, -⟩ := ahead_of_step hw hp hstep
    obtain ⟨z, y', hz, hrest⟩ := ih hy
    exact ⟨z, y', by simp [List.getLast?_cons, hz], hrest⟩

open Classical in
/-- The positions of a root that lie ahead of a path. -/
noncomputable def left (t : Tree) (root : Value) (direction : Direction) (p : Path) : Finset Path :=
  ((t.listing root .unrestricted).map (·.1)).toFinset.filter (t.Ahead root direction p)

/-- Ahead of a later position there is less left, since it is itself ahead of the earlier one. -/
theorem left_ssubset {y : Value} (hw : t.Walkable root) (hq : t.resolve root q = .ok y)
    (h : t.Ahead root direction p q) : t.left root direction q ⊂ t.left root direction p := by
  classical
  refine Finset.ssubset_iff_of_subset ?_ |>.mpr ⟨q, ?_, ?_⟩
  · intro z hz
    rw [left, Finset.mem_filter] at hz ⊢
    exact ⟨hz.1, h.trans hz.2⟩
  · rw [left, Finset.mem_filter, List.mem_toFinset]
    exact ⟨List.mem_map_of_mem (f := (·.1)) ((mem_listing hw).mpr hq), h⟩
  · rw [left, Finset.mem_filter]
    rintro ⟨-, hqq⟩
    exact hqq.ne rfl

/-- Stepping in one direction ends. -/
theorem exists_trail (hw : t.Walkable root) (hp : t.resolve root p = .ok x) (mode : Expansion)
    (direction : Direction) : ∃ trail, t.Trail root mode direction p trail := by
  induction hn : (t.left root direction p).card using Nat.strong_induction_on generalizing p x with
  | _ n ih =>
    obtain ⟨r, hr, hahead⟩ := step_ahead hw hp mode direction
    cases r with
    | none => exact ⟨[p], .last hr⟩
    | some q =>
      obtain ⟨⟨y, hy⟩, hpq⟩ := hahead q rfl
      have hlt : (t.left root direction q).card < n := by
        rw [← hn]
        exact Finset.card_lt_card (left_ssubset hw hy hpq)
      obtain ⟨trail, htrail⟩ := ih _ hlt hy rfl
      exact ⟨p :: trail, .next hr htrail⟩

/-! ## The order of the listing -/

/-- Of two found paths, the one that comes first is listed first. -/
theorem sublist_listing {y : Value} (hw : t.Walkable root) (hp : t.resolve root p = .ok x)
    (hq : t.resolve root q = .ok y) (h : t.Precedes root p q) :
    [(p, x), (q, y)].Sublist (t.listing root .unrestricted) := by
  obtain ⟨before, after, hsplit⟩ := List.append_of_mem ((mem_listing hw).mpr hp)
  have hmem : (q, y) ∈ before ++ (p, x) :: after := hsplit ▸ (mem_listing hw).mpr hq
  have hord : ((t.listing root .unrestricted).map (·.1)).Pairwise (t.Precedes root) :=
    pairwise_listing hw
  rw [hsplit, List.map_append, List.map_cons, List.pairwise_append] at hord
  rw [hsplit]
  rcases List.mem_append.mp hmem with hbefore | hafter
  · -- Listed before `p`, it would precede `p`.
    have hqp := hord.2.2 q (List.mem_map_of_mem (f := (·.1)) hbefore) p (by simp)
    exact absurd rfl (h.trans hqp).ne
  · rcases List.mem_cons.mp hafter with heq | hafter
    · exact absurd (congrArg Prod.fst heq).symm h.ne
    · have hpair : [(p, x), (q, y)].Sublist ((p, x) :: after) :=
        (List.singleton_sublist.mpr hafter).cons_cons _
      exact hpair.trans (List.sublist_append_right _ _)

/-- From every path that is found, in both modes: where a step forward leads to is found and is
listed later, where a step back leads to is found and is listed earlier. Stepping forward ends,
stepping back ends at the empty path, and neither comes to a position twice. -/
theorem steps_advance_through_listing (hw : t.Walkable root) (mode : Expansion) :
    ∃ listed : List (Path × Value), Yields (t.pathsNext? .unrestricted) [([], root)] listed ∧
      (listed.map (·.1)).Nodup ∧ ∀ p x, t.resolve root p = .ok x →
        (∀ q, t.increment root p mode = .ok (some q) →
          ∃ y, t.resolve root q = .ok y ∧ [(p, x), (q, y)].Sublist listed) ∧
        (∀ q, t.decrement root p mode = .ok (some q) →
          ∃ y, t.resolve root q = .ok y ∧ [(q, y), (p, x)].Sublist listed) ∧
        (∃ trail, t.Trail root mode .forward p trail ∧ trail.Nodup) ∧
        ∃ trail, t.Trail root mode .backward p trail ∧ trail.Nodup ∧ trail.getLast? = some [] := by
  refine ⟨t.listing root .unrestricted, yields_listing hw.grounded (t.span_le_reach root),
    nodup_listing hw, ?_⟩
  intro p x hp
  refine ⟨?_, ?_, ?_, ?_⟩
  · intro q hq
    have hstep : t.step root p mode .forward = .ok (some q) := hq
    obtain ⟨y, hy, hpq⟩ := ahead_of_step hw hp hstep
    exact ⟨y, hy, sublist_listing hw hp hy hpq⟩
  · intro q hq
    have hstep : t.step root p mode .backward = .ok (some q) := hq
    obtain ⟨y, hy, hqp⟩ := ahead_of_step hw hp hstep
    exact ⟨y, hy, sublist_listing hw hy hp hqp⟩
  · obtain ⟨trail, htrail⟩ := exists_trail hw hp mode .forward
    exact ⟨trail, htrail, (htrail.pairwise hw hp).imp Ahead.ne⟩
  · obtain ⟨trail, htrail⟩ := exists_trail hw hp mode .backward
    refine ⟨trail, htrail, (htrail.pairwise hw hp).imp Ahead.ne, ?_⟩
    obtain ⟨z, y, hz, hy, hend⟩ := htrail.getLast? hw hp
    rw [hz]
    by_contra hne
    have hz : z ≠ [] := fun h => hne (congrArg some h)
    obtain ⟨q, -, hq, -⟩ := decrement_of_resolve hw.grounded hy hz mode
    cases hend.symm.trans hq

/-- From inside the leaf that the pair holds first, the closed step forward leaves the leaf and the
step back goes to the leaf itself. -/
theorem steps_advance_through_shared :
    shared.Walkable (.node ⟨1⟩) ∧ ∃ listed : List (Path × Value),
      Yields (shared.pathsNext? .unrestricted) [([], .node ⟨1⟩)] listed ∧
      (∃ y, shared.resolve (.node ⟨1⟩) [.name "first", .index 1] = .ok y ∧
        [([.name "first", .index 0, .name "value"], .int 1), ([.name "first", .index 1], y)].Sublist
          listed) ∧
      ∃ y, shared.resolve (.node ⟨1⟩) [.name "first", .index 0] = .ok y ∧
        [([.name "first", .index 0], y), ([.name "first", .index 0, .name "value"], .int 1)].Sublist
          listed := by
  have hd : shared.Descending := by decide
  have hw : shared.Walkable (.node ⟨1⟩) := hd.walkable trivial
  obtain ⟨listed, hl, -, hsteps⟩ := steps_advance_through_listing hw .nodeBoundary
  obtain ⟨hinc, hdec, -⟩ :=
    hsteps [.name "first", .index 0, .name "value"] (.int 1) (by decide)
  exact ⟨hw, listed, hl, hinc _ (by decide), hdec _ (by decide)⟩

end Tree

end Trellis
