import Mathlib
import Trellis.Command.Run
import Trellis.Proofs.Arguments
import Trellis.Proofs.PathText
import Trellis.Proofs.Positions

/-!
# Printed paths on the command line

A walk prints the path of every position. Given back as an argument, such a path leads to the same
position, whatever names it is made of: it is read as it was written, and its indices are small
enough to be read because a walk that got so far has printed at least as many positions before.
The one exception is a path that looks like an option: it starts with a dash and goes on. A walk
from it is refused, and looking it up is refused or finds the whole document.

The environment may set the mode and the output form; the flag for JSON lines is given on every
command line here.
-/

namespace Trellis

namespace Children

/-- The index of an item is the number of items before it. -/
theorem index_of_split {c : Children} {earlier later : List (Key × Value)} {i : Nat} {w : Value}
    (h : c.entries = earlier ++ (.index i, w) :: later) : i = earlier.length := by
  have hentry : c.entries[earlier.length]? = some (.index i, w) := by simp [h]
  cases c with
  | list items =>
    simp only [entries, List.getElem?_map, List.getElem?_zipIdx, Option.map_map,
      Option.map_eq_some_iff] at hentry
    obtain ⟨v, -, heq⟩ := hentry
    have hkey : Key.index (0 + earlier.length) = .index i := congrArg Prod.fst heq
    have := Key.index.inj hkey
    omega
  | map d =>
    simp only [entries, List.getElem?_map, Option.map_eq_some_iff] at hentry
    obtain ⟨e, -, heq⟩ := hentry
    cases congrArg Prod.fst heq
  | fields view =>
    simp only [entries, List.getElem?_map, Option.map_eq_some_iff] at hentry
    obtain ⟨e, -, heq⟩ := hentry
    cases congrArg Prod.fst heq

end Children

namespace Tree

variable {t : Tree} {mode : Expansion} {v root x : Value} {p : Path}
  {before after : List (Path × Value)}

/-! ## Walks -/

/-- A walk goes along a list of positions, up to its limit, if every one of them is found with its
value and the step from it leads to the next one. -/
theorem walk_along {direction : Direction} {listed : List (Path × Value)}
    (hfound : ∀ y ∈ listed, t.resolve root y.1 = .ok y.2)
    (hstep : ∀ earlier y later, listed = earlier ++ y :: later →
      t.step root y.1 mode direction = .ok (later.head?.map (·.1)))
    (limit : Nat) (hstart : listed.head? = some (p, x)) :
    t.walk root mode direction limit p = .ok (listed.take limit) := by
  induction limit generalizing listed p x with
  | zero => rfl
  | succ limit ih =>
    obtain ⟨rest, rfl⟩ := List.head?_eq_some_iff.mp hstart
    have hres : t.resolve root p = .ok x := hfound (p, x) (by simp)
    have hnext : t.step root p mode direction = .ok (rest.head?.map (·.1)) :=
      hstep [] (p, x) rest rfl
    cases rest with
    | nil => simp [walk, hres, hnext, bind, Except.bind, pure, Except.pure]
    | cons y rest =>
      have hrest : t.walk root mode direction limit y.1 = .ok ((y :: rest).take limit) := by
        apply ih (x := y.2)
        · intro z hz
          exact hfound z (List.mem_cons_of_mem _ hz)
        · intro earlier z later h
          exact hstep ((p, x) :: earlier) z later (by simp [h])
        · rfl
      simp [walk, hres, hnext, hrest, bind, Except.bind, pure, Except.pure]

/-- A walk forward lists what is listed from its start on, up to its limit. -/
theorem walk_forward (hw : t.Walkable root) (limit : Nat)
    (h : t.listing root mode = before ++ (p, x) :: after) :
    t.walk root mode .forward limit p = .ok (((p, x) :: after).take limit) := by
  apply walk_along (x := x)
  · intro y hy
    exact resolve_of_mem_listing hw (h ▸ List.mem_append_right before hy)
  · intro earlier y later hsplit
    have hlisting : t.listing root mode = (before ++ earlier) ++ (y.1, y.2) :: later := by
      simp [h, hsplit]
    exact increment_of_split hw hlisting
  · rfl

theorem length_le_outlineEntries (t : Tree) (mode : Expansion) (depth : Nat)
    (entries : List (Key × Value)) :
    entries.length ≤ (t.outlineEntries mode depth entries).length := by
  induction entries with
  | nil => simp
  | cons e rest ih =>
    have hpos := List.length_pos_iff.mpr (t.outline_ne_nil mode depth e.2)
    simp only [outlineEntries_cons, List.length_append, List.length_cons, under, List.length_map]
    omega

/-- An index in a listed path is smaller than the number of positions listed before it: each item
in front is one of them. -/
theorem index_lt_of_split {depth i : Nat} (h : t.outline mode depth v = before ++ (p, x) :: after)
    (hi : .index i ∈ p) : i < before.length := by
  induction depth generalizing v before after p with
  | zero =>
    have hmem : (p, x) ∈ t.outline mode 0 v := by simp [h]
    obtain ⟨rfl, -⟩ : p = [] ∧ x = v := by simpa [outline] using hmem
    cases hi
  | succ depth ih =>
    rw [outline_succ] at h
    cases before with
    | nil =>
      obtain ⟨rfl, -⟩ : [] = p ∧ v = x := by simpa using (List.cons.inj h).1
      cases hi
    | cons y before =>
      obtain ⟨earlier, k, w, later, b, q, a, hs, rfl, ho, rfl, -⟩ :=
        outlineEntries_split (List.cons.inj h).2
      have hlen := t.length_le_outlineEntries mode depth earlier
      simp only [List.length_cons, List.length_append, under, List.length_map]
      rcases List.mem_cons.mp hi with hk | hq
      · cases hc : t.expand? mode v with
        | none => simp [entries, hc] at hs
        | some c =>
          simp only [entries, hc, ← hk] at hs
          have := Children.index_of_split hs
          omega
      · have := ih ho hq
        omega

theorem inRange_of_mem_take {limit : Nat} (hlimit : limit ≤ Key.indexBound)
    (h : (p, x) ∈ (t.listing root mode).take limit) : ∀ k ∈ p, k.InRange := by
  obtain ⟨n, hn⟩ := List.mem_iff_getElem?.mp h
  rw [List.getElem?_take] at hn
  split at hn
  next hlt =>
    have hsplit := split_of_getElem? hn
    have hlen : ((t.listing root mode).take n).length ≤ n := List.length_take_le _ _
    intro k hk
    cases k with
    | index i =>
      have := index_lt_of_split hsplit hk
      show i < Key.indexBound
      omega
    | name s => trivial
  next => cases hn

end Tree

namespace Command

/-! ## Commands -/

section Inspect

variable {env : Environment} {read : Source → Option String} {input : String} {root x : Value}
  {mode : Expansion} {p : Path}

/-- The command line is accepted, and `out` is what it prints. -/
def Prints (env : Environment) (read : Source → Option String) (args : List String)
    (out : String) : Prop :=
  ∃ i, Invocation.parse env args = .ok i ∧ i.run read = .ok out

theorem plain_of_load (h : load read input = .ok root) : root.Plain := by
  unfold load at h
  split at h
  next => cases h
  next text _ =>
    split at h
    next => cases h
    next j _ =>
      split at h
      next v hv =>
        obtain rfl := Except.ok.inj h
        exact j.plain_of_toValue hv
      next => cases h

theorem run_walk (options : WalkOptions) {start : Path} {visited : List (Path × Value)}
    (hload : load read options.input = .ok root)
    (hstart : Path.parse (options.start.getD "") = .ok start)
    (hvisits : visits options root start = .ok visited) :
    Invocation.run read ⟨true, .walk options⟩ = .ok (printed (visited.map visitLine)) := by
  simp [Invocation.run, walk, report, hload, readPath, hstart, hvisits, Outcome.ofTree, bind,
    Except.bind]

theorem run_get (options : GetOptions) (hload : load read options.input = .ok root)
    (hpath : Path.parse options.path = .ok p) (hx : Tree.empty.resolve root p = .ok x) :
    Invocation.run read ⟨true, .get options⟩ =
      .ok (printed [(Tree.empty.toJson x).compact]) := by
  simp [Invocation.run, get, hload, readPath, hpath, hx, Outcome.ofTree, bind, Except.bind, pure,
    Except.pure]

theorem walkLimit_le_indexBound : walkLimit ≤ Key.indexBound := by
  unfold walkLimit Key.indexBound
  omega

/-- A walk with nothing else asked for visits the listing, up to the largest limit. -/
theorem visits_listing (hw : Tree.empty.Walkable root) (input : String) (mode : Expansion) :
    visits { input, mode } root [] = .ok ((Tree.empty.listing root mode).take walkLimit) := by
  obtain ⟨after, h⟩ := Tree.empty.outline_eq_cons mode (Tree.empty.reach root) root
  have hsplit : Tree.empty.listing root mode = [] ++ ([], root) :: after := h
  rw [hsplit]
  exact Tree.walk_forward hw walkLimit hsplit

theorem visits_one (hw : Tree.empty.Walkable root) (start : Option String)
    (h : (p, x) ∈ Tree.empty.listing root mode) :
    visits { input, start, limit := some 1, mode } root p = .ok [(p, x)] := by
  obtain ⟨before, after, hsplit⟩ := List.append_of_mem h
  exact Tree.walk_forward hw 1 hsplit

/-- Let a document be loaded and walked through. Each path printed that does not look like an
option leads back: looking it up prints the value, and a walk of one step from it prints the same
line. From one that does look like an option no walk starts, and looking it up prints the whole
document or nothing. -/
theorem printed_paths_are_accepted {i : Invocation}
    (hwalk : Invocation.parse env ["--json", "walk", input] = .ok i)
    (hload : load read input = .ok root) :
    ∃ mode visited, i = ⟨true, .walk { input, mode }⟩ ∧
      visits { input, mode } root [] = .ok visited ∧
      i.run read = .ok (printed (visited.map visitLine)) ∧
      ∀ visit ∈ visited,
        (¬ OptionLike visit.1.dotted →
          Prints env read ["--json", "get", input, visit.1.dotted]
            (printed [(Tree.empty.toJson visit.2).compact]) ∧
          Prints env read ["--json", "walk", input, "--from", visit.1.dotted, "--limit", "1"]
            (printed [visitLine visit])) ∧
        (OptionLike visit.1.dotted → ∀ out,
          ¬ Prints env read
            ["--json", "walk", input, "--from", visit.1.dotted, "--limit", "1"] out ∧
          (Prints env read ["--json", "get", input, visit.1.dotted] out →
            out = printed [(Tree.empty.toJson root).compact])) := by
  obtain ⟨⟨hin, hne⟩, mode, hmode, rfl⟩ := parse_walk_eq_ok.mp hwalk
  have hw : Tree.empty.Walkable root := Tree.empty.walkable_of_plain (plain_of_load hload)
  -- What is printed is an initial part of the listing, so every path printed resolves.
  have hvisits := visits_listing hw input mode
  refine ⟨mode, _, rfl, hvisits, run_walk { input, mode } hload rfl hvisits, ?_⟩
  rintro ⟨p, x⟩ hvisit
  have hmem : (p, x) ∈ Tree.empty.listing root mode := List.mem_of_mem_take hvisit
  have hparse : Path.parse p.dotted = .ok p :=
    Path.parse_dotted (Tree.inRange_of_mem_take walkLimit_le_indexBound hvisit)
  constructor
  · intro hpath
    constructor
    · have hrun := run_get { input, path := p.dotted } hload hparse
        (Tree.resolve_of_mem_listing hw hmem)
      exact ⟨_, parse_get hin hne hpath, hrun⟩
    · have hrun := run_walk { input, start := some p.dotted, limit := some 1, mode } hload hparse
        (visits_one hw (some p.dotted) hmem)
      exact ⟨_, parse_walk_from hin hne hmode hpath, hrun⟩
  · intro hpath out
    constructor
    · intro h
      obtain ⟨i, hi, -⟩ := h
      exact parse_walk_from_optionLike hin hne hpath i hi
    · intro h
      obtain ⟨i, hi, hrun⟩ := h
      obtain rfl := parse_get_optionLike hin hne hpath hi
      rw [run_get { input } hload rfl rfl] at hrun
      exact (Except.ok.inj hrun).symm

/-- A document whose names are a dash and one with a dot. -/
def dashed : Source → Option String :=
  fun _ => some "\x7b\"-\":\x7b\"b.c\":[null]\x7d\x7d"

/-- A dash alone is taken as a path; a longer path that starts with one is not. -/
theorem printed_paths_are_accepted_dashed :
    Invocation.parse {} ["--json", "walk", "doc.json"] =
      .ok ⟨true, .walk { input := "doc.json" }⟩ ∧
    load dashed "doc.json" = .ok (.map ⟨[("-", .map ⟨[("b.c", .list [.null])]⟩)]⟩) ∧
    Prints {} dashed ["--json", "get", "doc.json", "-"] "\x7b\"b.c\":[null]\x7d\n" ∧
    Prints {} dashed ["--json", "walk", "doc.json", "--from", "-", "--limit", "1"]
      "\x7b\"path\":\"-\",\"type\":\"map\",\"value\":\x7b\"b.c\":[null]\x7d\x7d\n" ∧
    ∀ out, ¬ Prints {} dashed
      ["--json", "walk", "doc.json", "--from", "-.\"b.c\"", "--limit", "1"] out := by
  have hwalk : Invocation.parse {} ["--json", "walk", "doc.json"] =
      .ok ⟨true, .walk { input := "doc.json" }⟩ := by decide
  have hload : load dashed "doc.json" =
      .ok (.map ⟨[("-", .map ⟨[("b.c", .list [.null])]⟩)]⟩) := by cbv
  obtain ⟨mode, visited, hi, hvisits, -, hall⟩ := printed_paths_are_accepted hwalk hload
  obtain rfl : mode = .unrestricted := by simpa using hi.symm
  have hlisted : visits { input := "doc.json" }
      (.map ⟨[("-", .map ⟨[("b.c", .list [.null])]⟩)]⟩) [] =
        .ok [([], .map ⟨[("-", .map ⟨[("b.c", .list [.null])]⟩)]⟩),
          ([.name "-"], .map ⟨[("b.c", .list [.null])]⟩),
          ([.name "-", .name "b.c"], .list [.null]),
          ([.name "-", .name "b.c", .index 0], .null)] := by cbv
  obtain rfl := Except.ok.inj (hvisits.symm.trans hlisted)
  have hdash : Path.dotted [.name "-"] = "-" := by cbv
  have hlonger : Path.dotted [.name "-", .name "b.c"] = "-.\"b.c\"" := by cbv
  have hvalue : printed [(Tree.empty.toJson (.map ⟨[("b.c", .list [.null])]⟩)).compact] =
      "\x7b\"b.c\":[null]\x7d\n" := by cbv
  have hline : printed [visitLine ([.name "-"], .map ⟨[("b.c", .list [.null])]⟩)] =
      "\x7b\"path\":\"-\",\"type\":\"map\",\"value\":\x7b\"b.c\":[null]\x7d\x7d\n" := by cbv
  have haccepted := (hall ([.name "-"], .map ⟨[("b.c", .list [.null])]⟩) (by simp)).1
  have hrefused := (hall ([.name "-", .name "b.c"], .list [.null]) (by simp)).2
  simp only [hdash, hvalue, hline] at haccepted
  simp only [hlonger] at hrefused
  obtain ⟨hget, hfrom⟩ := haccepted (by decide)
  exact ⟨hwalk, hload, hget, hfrom, fun out => (hrefused (by decide) out).1⟩

/-- The path of the second line is printed as `-a`, and refused when it is given back. -/
theorem printed_path_is_refused :
    let read : Source → Option String := fun _ => some "\x7b\"-a\":1\x7d"
    Prints {} read ["--json", "walk", "doc.json"]
      ("\x7b\"path\":\"\",\"type\":\"map\",\"value\":\x7b\"-a\":1\x7d\x7d\n" ++
        "\x7b\"path\":\"-a\",\"type\":\"int\",\"value\":1\x7d\n") ∧
    (∀ out, ¬ Prints {} read ["--json", "get", "doc.json", "-a"] out) ∧
    ∀ out, ¬ Prints {} read ["--json", "walk", "doc.json", "--from", "-a", "--limit", "1"] out := by
  have hget : Invocation.parse {} ["--json", "get", "doc.json", "-a"] =
      .error .unknownArgument := by decide
  have hfrom : Invocation.parse {} ["--json", "walk", "doc.json", "--from", "-a", "--limit", "1"] =
      .error .unknownArgument := by decide
  refine ⟨⟨⟨true, .walk { input := "doc.json" }⟩, by decide, by cbv⟩, ?_, ?_⟩
  · intro out h
    obtain ⟨i, hi, -⟩ := h
    rw [hget] at hi
    cases hi
  · intro out h
    obtain ⟨i, hi, -⟩ := h
    rw [hfrom] at hi
    cases hi

end Inspect

end Command

end Trellis
