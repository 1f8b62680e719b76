import Trellis.Proofs.Below

/-!
# The outline of a value

`Tree.outline` lists the positions of a value in pre-order by recursion, with their paths from the
value, down to a depth. A depth of at least `Tree.span` leaves nothing out. The pre-order cursors,
which keep a stack of what is still to be visited, hand out exactly the outline.
-/

namespace Trellis

/-! ## Cursors -/

section Cursor

variable {σ α : Type} {next? : σ → Option (α × σ)} {s : σ} {items : List α}

/-- Cutting a listing off at a limit takes its first items. -/
theorem Yields.takeFrom_eq (h : Yields next? s items) (limit : Nat) :
    takeFrom next? limit s = items.take limit := by
  induction h generalizing limit with
  | done hs => cases limit <;> simp [takeFrom, hs]
  | item hs _ ih =>
    cases limit with
    | zero => rfl
    | succ limit => simp [takeFrom, hs, ih]

end Cursor

namespace Tree

variable {t : Tree} {mode : Expansion}

theorem yields_nil (t : Tree) (mode : Expansion) : Yields (t.pathsNext? mode) [] [] := .done rfl

/-- Forgetting the paths turns the cursor with paths into the plain one. -/
theorem yields_values {stack listed : List (Path × Value)}
    (h : Yields (t.pathsNext? mode) stack listed) :
    Yields (t.preorderNext? mode) (stack.map (·.2)) (listed.map (·.2)) := by
  induction h with
  | @done stack hs =>
    cases stack with
    | nil => exact .done rfl
    | cons x rest => simp [pathsNext?] at hs
  | @item stack stack' x xs hs _ ih =>
    cases stack with
    | nil => simp [pathsNext?] at hs
    | cons y rest =>
      simp only [pathsNext?, Option.some.injEq, Prod.mk.injEq] at hs
      obtain ⟨rfl, rfl⟩ := hs
      refine @Yields.item _ _ _ _ ((t.entries mode y.2).map (·.2) ++ rest.map (·.2)) _ _ rfl ?_
      simpa [Function.comp_def] using ih

/-! ## The outline -/

/-- Positions seen from one level up, under a key. -/
def under (key : Key) (listed : List (Path × Value)) : List (Path × Value) :=
  listed.map fun x => (key :: x.1, x.2)

@[simp] theorem under_nil (key : Key) : under key [] = [] := rfl

/-- The positions of a value in pre-order with their paths from it, down to a depth. -/
def outline (t : Tree) (mode : Expansion) : Nat → Value → List (Path × Value)
  | 0, v => [([], v)]
  | depth + 1, v =>
    ([], v) :: (t.entries mode v).flatMap fun e => under e.1 (t.outline mode depth e.2)

/-- The outlines of the children in a list of entries, one after another. -/
def outlineEntries (t : Tree) (mode : Expansion) (depth : Nat) (entries : List (Key × Value)) :
    List (Path × Value) :=
  entries.flatMap fun e => under e.1 (t.outline mode depth e.2)

theorem outline_succ (t : Tree) (mode : Expansion) (depth : Nat) (v : Value) :
    t.outline mode (depth + 1) v = ([], v) :: t.outlineEntries mode depth (t.entries mode v) := rfl

@[simp] theorem outlineEntries_nil (t : Tree) (mode : Expansion) (depth : Nat) :
    t.outlineEntries mode depth [] = [] := rfl

@[simp] theorem outlineEntries_cons (t : Tree) (mode : Expansion) (depth : Nat)
    (e : Key × Value) (rest : List (Key × Value)) :
    t.outlineEntries mode depth (e :: rest) =
      under e.1 (t.outline mode depth e.2) ++ t.outlineEntries mode depth rest := rfl

@[simp] theorem outlineEntries_append (t : Tree) (mode : Expansion) (depth : Nat)
    (es fs : List (Key × Value)) :
    t.outlineEntries mode depth (es ++ fs) =
      t.outlineEntries mode depth es ++ t.outlineEntries mode depth fs := by
  simp [outlineEntries]

/-- An outline starts with the value itself. -/
theorem outline_eq_cons (t : Tree) (mode : Expansion) (depth : Nat) (v : Value) :
    ∃ rest, t.outline mode depth v = ([], v) :: rest := by
  cases depth with
  | zero => exact ⟨[], rfl⟩
  | succ depth => exact ⟨_, rfl⟩

theorem outline_ne_nil (t : Tree) (mode : Expansion) (depth : Nat) (v : Value) :
    t.outline mode depth v ≠ [] := by
  obtain ⟨rest, h⟩ := t.outline_eq_cons mode depth v
  simp [h]

theorem outlineEntries_eq_nil {depth : Nat} {entries : List (Key × Value)}
    (h : t.outlineEntries mode depth entries = []) : entries = [] := by
  cases entries with
  | nil => rfl
  | cons e rest =>
    obtain ⟨tail, he⟩ := t.outline_eq_cons mode depth e.2
    simp [he, under] at h

theorem head?_outlineEntries (t : Tree) (mode : Expansion) (depth : Nat)
    (entries : List (Key × Value)) :
    (t.outlineEntries mode depth entries).head? = entries.head?.map fun e => ([e.1], e.2) := by
  cases entries with
  | nil => rfl
  | cons e rest =>
    obtain ⟨tail, he⟩ := t.outline_eq_cons mode depth e.2
    simp [he, under]

/-- A position below the entries lies below one of them, and everything before and after it is
split accordingly. -/
theorem outlineEntries_split {depth : Nat} {entries : List (Key × Value)}
    {before after : List (Path × Value)} {p : Path} {x : Value}
    (h : t.outlineEntries mode depth entries = before ++ (p, x) :: after) :
    ∃ earlier k w later b q a, entries = earlier ++ (k, w) :: later ∧ p = k :: q ∧
      t.outline mode depth w = b ++ (q, x) :: a ∧
      before = t.outlineEntries mode depth earlier ++ under k b ∧
      after = under k a ++ t.outlineEntries mode depth later := by
  induction entries generalizing before with
  | nil => simp at h
  | cons e rest ih =>
    rw [outlineEntries_cons] at h
    -- Either the position lies below a later entry, or the cut goes through the first one.
    have later : ∀ skipped, before = under e.1 (t.outline mode depth e.2) ++ skipped →
        t.outlineEntries mode depth rest = skipped ++ (p, x) :: after →
        ∃ earlier k w later b q a, e :: rest = earlier ++ (k, w) :: later ∧ p = k :: q ∧
          t.outline mode depth w = b ++ (q, x) :: a ∧
          before = t.outlineEntries mode depth earlier ++ under k b ∧
          after = under k a ++ t.outlineEntries mode depth later := by
      intro skipped hb hr
      obtain ⟨earlier, k, w, later, b, q, a, rfl, hp, hw, hs, ha⟩ := ih hr
      exact ⟨e :: earlier, k, w, later, b, q, a, rfl, hp, hw, by simp [hb, hs], ha⟩
    rcases List.append_eq_append_iff.mp h with ⟨skipped, hb, hr⟩ | ⟨cut, hu, hr⟩
    · exact later skipped hb hr
    · cases cut with
      | nil => exact later [] (by simpa using hu.symm) (by simpa using hr.symm)
      | cons y cut =>
        rw [List.cons_append, List.cons.injEq] at hr
        obtain ⟨rfl, ha⟩ := hr
        obtain ⟨b, a', ho, rfl, ha'⟩ := List.map_eq_append_iff.mp hu
        obtain ⟨⟨q, z⟩, a, rfl, hq, rfl⟩ := List.map_eq_cons_iff.mp ha'
        simp only [Prod.mk.injEq] at hq
        obtain ⟨rfl, rfl⟩ := hq
        exact ⟨[], e.1, e.2, rest, b, q, a, rfl, rfl, ho, rfl, ha⟩

theorem mem_outlineEntries {depth : Nat} {entries : List (Key × Value)} {p : Path} {x : Value}
    (h : (p, x) ∈ t.outlineEntries mode depth entries) :
    ∃ k w q, (k, w) ∈ entries ∧ p = k :: q ∧ (q, x) ∈ t.outline mode depth w := by
  obtain ⟨e, he, hx⟩ := List.mem_flatMap.mp h
  obtain ⟨y, hy, heq⟩ := List.mem_map.mp hx
  simp only [Prod.mk.injEq] at heq
  obtain ⟨rfl, rfl⟩ := heq
  exact ⟨e.1, e.2, y.1, he, rfl, hy⟩

/-! ## The cursor follows the outline -/

/-- From a stack with `v` on top, the cursor hands out the outline of `v` and then what the rest
of the stack gives. -/
theorem yields_outline {depth : Nat} {v : Value} (hg : t.Grounded v) (hd : t.span v ≤ depth)
    (path : Path) {stack listed : List (Path × Value)}
    (h : Yields (t.pathsNext? mode) stack listed) :
    Yields (t.pathsNext? mode) ((path, v) :: stack)
      ((t.outline mode depth v).map (fun x => (path ++ x.1, x.2)) ++ listed) := by
  induction depth generalizing v path stack listed with
  | zero =>
    have := t.span_pos v
    omega
  | succ depth ih =>
    have entries : ∀ es : List (Key × Value), (∀ e ∈ es, e ∈ t.entries mode v) →
        Yields (t.pathsNext? mode) (es.map (fun e => (path ++ [e.1], e.2)) ++ stack)
          ((t.outlineEntries mode depth es).map (fun x => (path ++ x.1, x.2)) ++ listed) := by
      intro es
      induction es with
      | nil => intro _; exact h
      | cons e rest ihe =>
        intro hes
        have he := mem_entries_unrestricted (hes e (by simp))
        have hlt := hg.span_lt he
        have hrest := ihe fun f hf => hes f (List.mem_cons_of_mem _ hf)
        have := ih (hg.entry he) (by omega) (path ++ [e.1]) hrest
        simpa [under, Function.comp_def, List.append_assoc] using this
    rw [outline_succ, List.map_cons, List.append_nil]
    exact .item rfl (entries _ fun e he => he)

/-- A cursor started at one value hands out its outline. -/
theorem yields_listing {depth : Nat} {v : Value} (hg : t.Grounded v) (hd : t.span v ≤ depth) :
    Yields (t.pathsNext? mode) [([], v)] (t.outline mode depth v) := by
  have := yields_outline hg hd [] (t.yields_nil mode)
  simpa using this

end Tree

end Trellis
