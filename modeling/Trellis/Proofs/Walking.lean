import Trellis.Proofs.Inspection
import Trellis.Proofs.Tables

/-!
# Walks over a document

A walk steps from position to position without a list of them at hand. Over a document it visits a
slice of the pre-order listing: from its start on, or back from there to the whole document, cut off
at its limit. There are no nodes in a document, so the mode makes no difference. A walk can fail at
its start only, and with a limit of zero it does not even look there.

What was visited is then printed, as JSON lines always, as a table if no path and no value is too
long for it.
-/

namespace Trellis

namespace Tree

variable {t : Tree} {mode : Expansion} {v root x : Value} {p : Path}
  {before after : List (Path × Value)}

/-- A walk back lists what is listed up to its start, in reverse, up to its limit. -/
theorem walk_backward (hw : t.Walkable root) (limit : Nat)
    (h : t.listing root mode = before ++ (p, x) :: after) :
    t.walk root mode .backward limit p = .ok (((p, x) :: before.reverse).take limit) := by
  have hreverse : (before ++ [(p, x)]).reverse = (p, x) :: before.reverse := by simp
  apply walk_along (x := x)
  · intro y hy
    rw [← hreverse, List.mem_reverse] at hy
    have hmem : (y.1, y.2) ∈ t.listing root mode := by
      rw [h, List.append_cons]
      exact List.mem_append_left after hy
    exact resolve_of_mem_listing hw hmem
  · intro earlier y later hsplit
    -- What is still to come on the way back is what is listed before this position.
    have hback : before ++ [(p, x)] = later.reverse ++ y :: earlier.reverse := by
      rw [← List.reverse_reverse (before ++ [(p, x)]), hreverse, hsplit]
      simp
    have hlisting : t.listing root mode =
        later.reverse ++ (y.1, y.2) :: (earlier.reverse ++ after) := by
      rw [h, List.append_cons, hback]
      simp
    have hdec := decrement_of_split hw hlisting
    rwa [List.getLast?_reverse] at hdec
  · rfl

/-! ## Values without nodes -/

theorem free_of_entry {e : Key × Value} (h : v.held = []) (he : e ∈ t.entries .unrestricted v) :
    e.2.held = [] := by
  rcases entry_cases he with ⟨items, rfl, hv⟩ | ⟨d, rfl, y, hy, hv⟩ | ⟨id, n, rfl, -⟩
  · rw [Value.held_list, List.flatMap_eq_nil_iff] at h
    exact h e.2 hv
  · rw [Value.held_map, List.flatMap_eq_nil_iff] at h
    exact hv ▸ h y hy
  · simp at h

/-- The two modes list the same positions of a value without nodes. -/
theorem outline_of_free (depth : Nat) (h : v.held = []) (mode : Expansion) :
    t.outline mode depth v = t.outline .unrestricted depth v := by
  cases mode with
  | unrestricted => rfl
  | nodeBoundary =>
    induction depth generalizing v with
    | zero => rfl
    | succ depth ih =>
      have hnode : ∀ id, v ≠ .node id := by
        rintro id rfl
        simp at h
      rw [outline_succ, outline_succ, entries_nodeBoundary hnode, outlineEntries, outlineEntries]
      congr 1
      refine List.flatMap_congr fun e he => ?_
      rw [ih (free_of_entry h he)]

theorem listing_of_plain (h : root.Plain) (mode : Expansion) :
    t.listing root mode = t.listing root .unrestricted :=
  outline_of_free _ h.free mode

end Tree

namespace Command

section Slices

variable {read : Source → Option String} {options : WalkOptions} {root x : Value} {start : Path}

theorem walk_eq (options : WalkOptions) (hload : load read options.input = .ok root)
    (hstart : readPath (options.start.getD "") = .ok start) (json : Bool) :
    walk read json options = (Outcome.ofTree (visits options root start)).bind (report json) := by
  simp only [walk, hload, hstart, bind, Except.bind]

theorem printTable_eq_ok_iff {headers : List String} {rows : List (List String)} :
    (∃ text, printTable headers rows = .ok text) ↔
      ∃ lines, Table.render? headers rows = some lines := by
  unfold printTable
  cases Table.render? headers rows <;> simp

/-- No cell that a visit has in a table is too wide for a column. -/
def Tabular (visit : Path × Value) : Prop :=
  ∀ cell ∈ visitRow visit, cell.utf8ByteSize ≤ Table.maxWidth

theorem report_eq_ok_iff {json : Bool} {visited : List (Path × Value)} :
    (∃ text, report json visited = .ok text) ↔ json ∨ ∀ visit ∈ visited, Tabular visit := by
  cases json with
  | true => exact ⟨fun _ => .inl rfl, fun _ => ⟨_, rfl⟩⟩
  | false =>
    have hlen : ∀ row ∈ visited.map visitRow, row.length = ["PATH", "TYPE", "VALUE"].length := by
      intro row hrow
      obtain ⟨visit, -, rfl⟩ := List.mem_map.mp hrow
      rfl
    have hheader : ∀ cell ∈ ["PATH", "TYPE", "VALUE"], cell.utf8ByteSize ≤ Table.maxWidth := by
      decide
    have hreport : report false visited =
        printTable ["PATH", "TYPE", "VALUE"] (visited.map visitRow) := rfl
    rw [hreport, printTable_eq_ok_iff, Table.exists_render?_iff hlen, List.forall_mem_cons,
      List.forall_mem_map, List.map_eq_nil_iff]
    constructor
    · rintro (rfl | ⟨-, hcells⟩)
      · exact .inr (by simp)
      · exact .inr hcells
    · rintro (hjson | hcells)
      · cases hjson
      · exact .inr ⟨hheader, hcells⟩

/-- The positions that a walk visits, read off the listing at the place of its start. -/
theorem visits_slice (hroot : root.Plain) {i : Nat}
    (h : (Tree.empty.listing root .unrestricted)[i]? = some (start, x)) :
    visits options root start = .ok
      ((if options.back then ((Tree.empty.listing root .unrestricted).take (i + 1)).reverse
        else (Tree.empty.listing root .unrestricted).drop i).take
          (options.limit.getD walkLimit)) := by
  have hw : Tree.empty.Walkable root := Tree.empty.walkable_of_plain hroot
  have hi := (List.getElem?_eq_some_iff.mp h).1
  have hsplit := Tree.split_of_getElem? h
  have hmode : Tree.empty.listing root options.mode = _ :=
    (Tree.listing_of_plain hroot options.mode).trans hsplit
  unfold visits
  cases options.back with
  | true =>
    have htake : (Tree.empty.listing root .unrestricted).take (i + 1) =
        (Tree.empty.listing root .unrestricted).take i ++ [(start, x)] := by
      rw [List.take_add_one, h, Option.toList_some]
    have hwalk := Tree.walk_backward hw (options.limit.getD walkLimit) hmode
    simpa [htake] using hwalk
  | false =>
    have hdrop : (Tree.empty.listing root .unrestricted).drop i =
        (start, x) :: (Tree.empty.listing root .unrestricted).drop (i + 1) := by
      rw [List.drop_eq_getElem_cons hi, (List.getElem?_eq_some_iff.mp h).2]
    have hwalk := Tree.walk_forward hw (options.limit.getD walkLimit) hmode
    simpa [hdrop] using hwalk

/-- A walk from a path that leads nowhere fails as looking it up does, unless its limit is zero. -/
theorem visits_nowhere {e : TreeError} (h : Tree.empty.resolve root start = .error e) :
    visits options root start =
      if options.limit.getD walkLimit = 0 then .ok [] else .error e := by
  unfold visits
  cases options.limit.getD walkLimit with
  | zero => rfl
  | succ limit => simp [Tree.walk, h, bind, Except.bind]

/-- Let a document be loaded and a walk be asked for. The positions of the document are listed in
pre-order, each path once. From a path that leads to one of them the walk visits what is listed from
there on, or back from there to the document itself, up to its limit. It then prints that, unless it
is to be a table and some cell is too wide for one. From any other path it fails as looking the path
up does, or prints nothing if its limit is zero. The mode makes no difference. -/
theorem walks_list_slices (hload : load read options.input = .ok root)
    (hstart : readPath (options.start.getD "") = .ok start) (json : Bool) :
    ∃ listed : List (Path × Value),
      Yields (Tree.empty.pathsNext? .unrestricted) [([], root)] listed ∧
      (listed.map (·.1)).Nodup ∧
      (∀ p x, (p, x) ∈ listed ↔ Tree.empty.resolve root p = .ok x) ∧
      (∀ i x, listed[i]? = some (start, x) → ∃ visited,
        visited = (if options.back then (listed.take (i + 1)).reverse else listed.drop i).take
          (options.limit.getD walkLimit) ∧
        visits options root start = .ok visited ∧
        walk read json options = report json visited ∧
        ((∃ text, walk read json options = .ok text) ↔
          json ∨ ∀ visit ∈ visited, Tabular visit)) ∧
      (∀ e, Tree.empty.resolve root start = .error e →
        walk read json options =
          if options.limit.getD walkLimit = 0 then .ok "" else .error (.tree e)) ∧
      ∀ mode, visits { options with mode } root start = visits options root start ∧
        walk read json { options with mode } = walk read json options := by
  have hroot : root.Plain := plain_of_load hload
  have hw : Tree.empty.Walkable root := Tree.empty.walkable_of_plain hroot
  refine ⟨Tree.empty.listing root .unrestricted,
    Tree.yields_listing hw.grounded (Tree.empty.span_le_reach root), Tree.nodup_listing hw,
    fun _ _ => Tree.mem_listing hw, ?_, ?_, ?_⟩
  · intro i x hi
    have hvisits : visits options root start = _ := visits_slice hroot hi
    have hwalk := walk_eq options hload hstart json
    rw [hvisits] at hwalk
    refine ⟨_, rfl, hvisits, hwalk, ?_⟩
    rw [hwalk]
    exact report_eq_ok_iff
  · intro e he
    rw [walk_eq options hload hstart, visits_nowhere he]
    split
    · cases json <;> rfl
    · rfl
  · intro mode
    have hvisits : visits { options with mode } root start = visits options root start := by
      cases hres : Tree.empty.resolve root start with
      | ok x =>
        obtain ⟨i, hi⟩ := List.mem_iff_getElem?.mp ((Tree.mem_listing hw).mpr hres)
        rw [visits_slice hroot hi, visits_slice hroot hi]
      | error e => rw [visits_nowhere hres, visits_nowhere hres]
    refine ⟨hvisits, ?_⟩
    rw [walk_eq { options with mode } hload hstart, hvisits, walk_eq options hload hstart]

/-- Two steps back from the item of the inner list, which is listed last. -/
theorem walks_list_slices_dashed :
    let options : WalkOptions :=
      { input := "doc.json", start := some "-.\"b.c\".0", back := true, limit := some 3,
        mode := .nodeBoundary }
    load dashed options.input = .ok (.map ⟨[("-", .map ⟨[("b.c", .list [.null])]⟩)]⟩) ∧
    readPath (options.start.getD "") = .ok [.name "-", .name "b.c", .index 0] ∧
    walk dashed false options =
      .ok ("PATH       TYPE  VALUE\n-.\"b.c\".0  null  null\n" ++
        "-.\"b.c\"    list  [1 items]\n-          map   \x7b1 entries\x7d\n") := by
  intro options
  have hload : load dashed options.input =
      .ok (.map ⟨[("-", .map ⟨[("b.c", .list [.null])]⟩)]⟩) := by cbv
  have hstart : readPath (options.start.getD "") = .ok [.name "-", .name "b.c", .index 0] := by
    cbv
  obtain ⟨listed, hyields, -, -, hslice, -⟩ := walks_list_slices hload hstart false
  have hlisted : listed.take (3 + 1) =
      [([], .map ⟨[("-", .map ⟨[("b.c", .list [.null])]⟩)]⟩),
        ([.name "-"], .map ⟨[("b.c", .list [.null])]⟩),
        ([.name "-", .name "b.c"], .list [.null]),
        ([.name "-", .name "b.c", .index 0], .null)] := by
    rw [← hyields.takeFrom_eq (3 + 1)]
    cbv
  have hlast : listed[3]? = some ([.name "-", .name "b.c", .index 0], .null) := by
    rw [← List.getElem?_take_of_lt (by decide : 3 < 3 + 1), hlisted]
    rfl
  obtain ⟨visited, hvisited, -, hwalk, -⟩ := hslice 3 .null hlast
  rw [if_pos rfl, hlisted] at hvisited
  refine ⟨hload, hstart, hwalk.trans ?_⟩
  rw [hvisited]
  cbv

end Slices

end Command

end Trellis
