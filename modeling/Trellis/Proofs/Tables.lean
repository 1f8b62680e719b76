import Trellis.Table
import Mathlib.Data.List.DropRight
import Mathlib.Data.List.Forall2
import Mathlib.Algebra.Order.Ring.Nat

/-!
# Tables are aligned

A column is as wide as the bytes of its widest cell, and cells are filled up by characters. A text
has no more characters than bytes, so every cell fits into its column and is filled up to just its
width. All lines of a table then have the same length, and the cells of a column stand one below
the other, whatever characters they are made of.

There is no table if a column is wider than 65535 bytes.
-/

namespace Trellis.Table

/-- The bytes of the cells in a column, from the first line to the last. -/
def column (lines : List (List String)) (j : Nat) : List Nat :=
  lines.filterMap fun cells => cells[j]?.map String.utf8ByteSize

/-- Where a column starts: behind the columns before it, each with the two blanks that follow. -/
def offset (widths : List Nat) (i : Nat) : Nat := ((widths.take i).map (· + 2)).sum

/-- A cell stands in a line from `start` on, with blanks alone behind it, either to the end of the
line or up to `next`. -/
def Stands (text cell : String) (start next : Nat) : Prop :=
  ∃ before gap after : String, text = before ++ cell ++ gap ++ after ∧ before.length = start ∧
    (∀ c ∈ gap.toList, c = ' ') ∧ (after = "" ∨ (before ++ cell ++ gap).length = next)

/-- A text without the white space at its end: nothing else is cut off, and none of it is left. -/
def Trimmed (text trimmed : String) : Prop :=
  ∃ blanks : String, text = trimmed ++ blanks ∧ (∀ c ∈ blanks.toList, isBlank c) ∧
    ∀ c, trimmed.toList.getLast? = some c → isBlank c = false

/-- A line whose columns are not too wide. -/
def line (widths : List Nat) (cells : List String) : String :=
  "  ".intercalate (List.zipWith fill widths cells)

variable {ws : List Nat} {cells headers : List String} {rows : List (List String)} {w i j : Nat}
  {cell : String}

/-! ## Widths -/

theorem length_le_utf8ByteSize (s : String) : s.length ≤ s.utf8ByteSize := by
  have hlist : ∀ cs : List Char, cs.length ≤ (String.ofList cs).utf8ByteSize := by
    intro cs
    induction cs with
    | nil => simp
    | cons c cs ih =>
      have hc : 0 < c.utf8Size := c.utf8Size_pos
      rw [String.ofList_cons, String.utf8ByteSize_append, String.utf8ByteSize_singleton,
        List.length_cons]
      omega
  have hs := hlist s.toList
  rwa [String.ofList_toList, String.length_toList] at hs

theorem getElem?_widen (ws : List Nat) (row : List String) (j : Nat) :
    (widen ws row)[j]? = ws[j]?.map fun w => (row[j]?.map String.utf8ByteSize).elim w (max w) := by
  fun_induction widen ws row generalizing j with
  | case1 w ws cell cells ih =>
    cases j with
    | zero => simp
    | succ j => simp [ih]
  | case2 row ws hends =>
    -- Either list has come to its end: there is no column left, or no cell to widen one.
    cases ws with
    | nil => simp
    | cons w ws =>
      cases row with
      | nil => simp
      | cons cell cells => exact (hends w ws cell cells rfl rfl).elim

/-- Row by row a column is widened to the greatest of its cells. -/
theorem getElem?_foldl_widen (rows : List (List String)) (ws : List Nat) (j : Nat) :
    (rows.foldl widen ws)[j]? = ws[j]?.map fun w => (column rows j).foldl max w := by
  induction rows generalizing ws with
  | nil => simp [column]
  | cons row rows ih =>
    rw [List.foldl_cons, ih, getElem?_widen, Option.map_map]
    refine congrArg (ws[j]?.map ·) (funext fun w => ?_)
    cases hcell : row[j]? with
    | none => simp [column, hcell]
    | some cell => simp [column, hcell]

theorem column_eq_nil {lines : List (List String)} (h : ∀ cells ∈ lines, cells.length ≤ j) :
    column lines j = [] := by
  refine List.filterMap_eq_nil_iff.mpr fun cells hcells => ?_
  rw [List.getElem?_eq_none (h cells hcells), Option.map_none]

/-- The width of a column is the greatest number of bytes in it, the header included. -/
theorem getElem?_widths (hlen : ∀ row ∈ rows, row.length = headers.length) (j : Nat) :
    (widths headers rows)[j]? = (column (headers :: rows) j).max? := by
  rw [widths, getElem?_foldl_widen, List.getElem?_map, Option.map_map]
  cases hj : headers[j]? with
  | none =>
    have hle : headers.length ≤ j := List.getElem?_eq_none_iff.mp hj
    have hnil : column (headers :: rows) j = [] := by
      apply column_eq_nil
      rintro cells (_ | ⟨_, hrow⟩)
      · exact hle
      · rw [hlen cells hrow]
        exact hle
    rw [hnil]
    rfl
  | some head =>
    have hcons : column (headers :: rows) j = head.utf8ByteSize :: column rows j := by
      simp [column, hj]
    rw [hcons, List.max?_cons']
    rfl

theorem length_widen (ws : List Nat) (row : List String) : (widen ws row).length = ws.length := by
  fun_induction widen ws row with
  | case1 w ws cell cells ih => simp [ih]
  | case2 row ws hends => rfl

theorem length_foldl_widen (rows : List (List String)) (ws : List Nat) :
    (rows.foldl widen ws).length = ws.length := by
  induction rows generalizing ws with
  | nil => rfl
  | cons row rows ih => rw [List.foldl_cons, ih, length_widen]

theorem length_widths (headers : List String) (rows : List (List String)) :
    (widths headers rows).length = headers.length := by
  rw [widths, length_foldl_widen, List.length_map]

theorem mem_column {lines : List (List String)} {bytes : Nat} : bytes ∈ column lines j ↔
    ∃ cells ∈ lines, ∃ cell, cells[j]? = some cell ∧ cell.utf8ByteSize = bytes := by
  simp only [column, List.mem_filterMap, Option.map_eq_some_iff]

/-- A cell has a column, which is at least as wide. -/
theorem exists_width (hlen : ∀ row ∈ rows, row.length = headers.length)
    (hcells : cells ∈ headers :: rows) (hcell : cells[j]? = some cell) :
    ∃ w, (widths headers rows)[j]? = some w ∧ cell.utf8ByteSize ≤ w := by
  have hmem : cell.utf8ByteSize ∈ column (headers :: rows) j :=
    mem_column.mpr ⟨cells, hcells, cell, hcell, rfl⟩
  obtain ⟨w, hw⟩ := Option.isSome_iff_exists.mp (List.isSome_max?_of_mem hmem)
  exact ⟨w, (getElem?_widths hlen j).trans hw, (List.max?_eq_some_iff.mp hw).2 _ hmem⟩

/-- A bound on the widths is a bound on the cells. -/
theorem forall_widths_le_iff (hlen : ∀ row ∈ rows, row.length = headers.length) {bound : Nat} :
    (∀ w ∈ widths headers rows, w ≤ bound) ↔
      ∀ cells ∈ headers :: rows, ∀ cell ∈ cells, cell.utf8ByteSize ≤ bound := by
  constructor
  · intro h cells hcells cell hcell
    obtain ⟨j, hj⟩ := List.mem_iff_getElem?.mp hcell
    obtain ⟨w, hw, hle⟩ := exists_width hlen hcells hj
    exact hle.trans (h w (List.mem_of_getElem? hw))
  · intro h w hw
    obtain ⟨j, hj⟩ := List.mem_iff_getElem?.mp hw
    rw [getElem?_widths hlen] at hj
    obtain ⟨cells, hcells, cell, hcell, rfl⟩ := mem_column.mp (List.max?_eq_some_iff.mp hj).1
    exact h cells hcells cell (List.mem_of_getElem? hcell)

/-! ## Lines -/

/-- Each cell of a line has a column it fits into. -/
def Fits (ws : List Nat) (cells : List String) : Prop :=
  List.Forall₂ (fun w cell => cell.length ≤ w) ws cells

/-- Every line of a table fits into its columns. -/
theorem fits_of_mem (hlen : ∀ row ∈ rows, row.length = headers.length)
    (hcells : cells ∈ headers :: rows) : Fits (widths headers rows) cells := by
  have hlength : cells.length = headers.length := by
    rcases List.mem_cons.mp hcells with rfl | hrow
    · rfl
    · exact hlen cells hrow
  refine List.forall₂_iff_get.mpr ⟨by rw [length_widths, hlength], fun j hw hj => ?_⟩
  obtain ⟨w, hwidth, hle⟩ := exists_width hlen hcells (List.getElem?_eq_getElem hj)
  rw [List.getElem?_eq_getElem hw] at hwidth
  rw [List.get_eq_getElem, List.get_eq_getElem, Option.some.inj hwidth]
  exact (length_le_utf8ByteSize cells[j]).trans hle

theorem length_fill (h : cell.length ≤ w) : (fill w cell).length = w := by
  rw [fill, String.length_append, String.length_ofList, List.length_replicate]
  omega

theorem offset_zero (ws : List Nat) : offset ws 0 = 0 := rfl

theorem offset_cons (w : Nat) (ws : List Nat) (i : Nat) :
    offset (w :: ws) (i + 1) = w + 2 + offset ws i := by
  simp [offset]

theorem line_cons_cons (w w' : Nat) (ws : List Nat) (cell cell' : String) (cells : List String) :
    line (w :: w' :: ws) (cell :: cell' :: cells) =
      fill w cell ++ "  " ++ line (w' :: ws) (cell' :: cells) := by
  simp [line, String.intercalate_cons_cons]

theorem length_line (h : Fits ws cells) : (line ws cells).length = offset ws ws.length - 2 := by
  induction h with
  | nil => rfl
  | @cons w cell ws cells hfit hrest ih =>
    cases hrest with
    | nil => simp [line, offset, length_fill hfit]
    | @cons w' cell' ws cells hfit' hrest' =>
      have hblanks : "  ".length = 2 := rfl
      rw [line_cons_cons, String.length_append, String.length_append, length_fill hfit, ih, hblanks]
      simp only [List.length_cons, offset_cons]
      omega

theorem Stands.prepend {text front : String} {start next : Nat} (h : Stands text cell start next) :
    Stands (front ++ text) cell (front.length + start) (front.length + next) := by
  obtain ⟨before, gap, after, rfl, hstart, hgap, hend⟩ := h
  refine ⟨front ++ before, gap, after, by simp only [String.append_assoc], ?_, hgap, ?_⟩
  · rw [String.length_append, hstart]
  · refine hend.imp_right fun hnext => ?_
    rw [← hnext]
    simp only [String.length_append]
    omega

/-- A cell of a line stands where its column starts, whole, and only blanks come before the next
column. -/
theorem stands_line (h : Fits ws cells) (hcell : cells[i]? = some cell) :
    Stands (line ws cells) cell (offset ws i) (offset ws (i + 1)) := by
  induction h generalizing i with
  | nil => simp at hcell
  | @cons w first ws cells hfit hrest ih =>
    have hfront : (fill w first ++ "  ").length = w + 2 := by
      rw [String.length_append, length_fill hfit]
      rfl
    cases i with
    | zero =>
      obtain rfl : first = cell := Option.some.inj hcell
      cases hrest with
      | nil =>
        refine ⟨"", String.ofList (List.replicate (w - first.length) ' '), "", ?_, rfl, ?_,
          .inl rfl⟩
        · simp [line, fill]
        · simp
      | @cons w' cell' ws cells hfit' hrest' =>
        refine ⟨"", String.ofList (List.replicate (w - first.length) ' ') ++ "  ",
          line (w' :: ws) (cell' :: cells), ?_, rfl, ?_, .inr ?_⟩
        · simp only [line_cons_cons, fill, String.append_assoc, String.empty_append]
        · intro c hc
          simpa [or_iff_right_of_imp And.right] using hc
        · rw [offset_cons, offset_zero, Nat.add_zero, ← hfront, fill, String.empty_append,
            String.append_assoc]
    | succ i =>
      cases hrest with
      | nil => simp at hcell
      | cons hfit' hrest' =>
        rw [line_cons_cons, offset_cons, offset_cons, ← hfront]
        exact (ih hcell).prepend

/-! ## Printed lines -/

/-- A loop whose steps only check their items checks all of them. -/
theorem mapM_check {α β : Type} (p : α → Prop) [DecidablePred p] (g : α → β) (l : List α) :
    (l.mapM fun a => if p a then some (g a) else none) =
      if ∀ a ∈ l, p a then some (l.map g) else none := by
  induction l with
  | nil => rfl
  | cons a l ih =>
    rw [List.mapM_cons, ih]
    by_cases ha : p a
    · by_cases hl : ∀ b ∈ l, p b
      · rw [if_pos ha, if_pos hl, if_pos (List.forall_mem_cons.mpr ⟨ha, hl⟩)]
        rfl
      · rw [if_pos ha, if_neg hl, if_neg fun h => hl (List.forall_mem_cons.mp h).2]
        rfl
    · rw [if_neg ha, if_neg fun h => ha (List.forall_mem_cons.mp h).1]
      rfl

theorem line?_eq (ws : List Nat) (cells : List String) : line? ws cells =
    if ∀ p ∈ List.zip ws cells, p.1 ≤ maxWidth then some (line ws cells) else none := by
  have hcells : (List.zip ws cells).mapM (fun p => pad? p.1 p.2) = _ :=
    mapM_check (fun p : Nat × String => p.1 ≤ maxWidth) (fun p => fill p.1 p.2) (List.zip ws cells)
  rw [line?, hcells, List.map_zip_eq_zipWith]
  split <;> rfl

theorem line?_of_le (h : ∀ w ∈ ws, w ≤ maxWidth) (cells : List String) :
    line? ws cells = some (line ws cells) := by
  rw [line?_eq, if_pos]
  intro p hp
  exact h p.1 (List.of_mem_zip hp).1

theorem line?_of_wide (h : ¬ ∀ w ∈ ws, w ≤ maxWidth) (hlen : ws.length ≤ cells.length) :
    line? ws cells = none := by
  rw [line?_eq, if_neg]
  intro hcells
  refine h fun w hw => ?_
  rw [← List.map_fst_zip hlen] at hw
  obtain ⟨p, hp, rfl⟩ := List.mem_map.mp hw
  exact hcells p hp

/-- A table has all of its lines, or none if one of its columns is too wide: in the header line
every column has a cell. -/
theorem render?_eq (hne : rows ≠ []) : render? headers rows =
    if ∀ w ∈ widths headers rows, w ≤ maxWidth then
      some ((headers :: rows).map fun cells => trimEnd (line (widths headers rows) cells))
    else none := by
  have hrender : render? headers rows = (headers :: rows).mapM fun cells => do
      return trimEnd (← line? (widths headers rows) cells) := by
    rw [render?, List.isEmpty_eq_false_iff.mpr hne]
    rfl
  rw [hrender]
  split
  · rename_i h
    simp only [line?_of_le h]
    exact List.mapM_pure
  · rename_i h
    rw [List.mapM_cons, line?_of_wide h (length_widths headers rows).le]
    rfl

/-- There are lines to print unless some cell is too wide for a column. -/
theorem exists_render?_iff (hlen : ∀ row ∈ rows, row.length = headers.length) :
    (∃ lines, render? headers rows = some lines) ↔
      rows = [] ∨ ∀ cells ∈ headers :: rows, ∀ cell ∈ cells, cell.utf8ByteSize ≤ maxWidth := by
  by_cases hne : rows = []
  · rw [hne]
    exact ⟨fun _ => .inl rfl, fun _ => ⟨[], rfl⟩⟩
  · rw [render?_eq hne, or_iff_right hne, ← forall_widths_le_iff hlen]
    split
    · rename_i h
      exact ⟨fun _ => h, fun _ => ⟨_, rfl⟩⟩
    · rename_i h
      refine ⟨?_, fun hw => absurd hw h⟩
      rintro ⟨lines, hlines⟩
      cases hlines

theorem trimmed_trimEnd (s : String) : Trimmed s (trimEnd s) := by
  have htrim : (trimEnd s).toList = s.toList.rdropWhile isBlank := String.toList_ofList
  refine ⟨String.ofList (s.toList.rtakeWhile isBlank), ?_, ?_, ?_⟩
  · apply String.toList_injective
    rw [String.toList_append, htrim, String.toList_ofList, List.rdropWhile_append_rtakeWhile]
  · intro c hc
    rw [String.toList_ofList] at hc
    exact List.mem_rtakeWhile_imp hc
  · intro c hc
    rw [htrim] at hc
    have hne : s.toList.rdropWhile isBlank ≠ [] := by
      intro hnil
      rw [hnil] at hc
      cases hc
    obtain rfl := (List.getLast_eq_iff_getLast?_eq_some hne).mpr hc
    simpa using List.rdropWhile_last_not isBlank s.toList hne

/-- Whatever texts a table is made of, there is nothing to print exactly if a column is wider than
65535 bytes. If there is, all lines have the same number of characters before white space at their
ends is cut off, and the cells of a column stand whole at one offset in all of them, the header line
included: behind the columns before it, each as wide as the bytes of its widest cell and followed by
two blanks. What is printed is these lines without the white space at their ends. -/
theorem columns_are_aligned (hne : rows ≠ [])
    (hlen : ∀ row ∈ rows, row.length = headers.length) :
    ∃ ws : List Nat, (∀ j, ws[j]? = (column (headers :: rows) j).max?) ∧
      (render? headers rows = none ↔ ∃ w ∈ ws, maxWidth < w) ∧
      ∀ printed, render? headers rows = some printed →
        List.Forall₂ (fun cells trimmed => ∃ text, line? ws cells = some text ∧
          text.length = offset ws headers.length - 2 ∧
          (∀ i cell, cells[i]? = some cell →
            Stands text cell (offset ws i) (offset ws (i + 1))) ∧
          Trimmed text trimmed) (headers :: rows) printed := by
  refine ⟨widths headers rows, getElem?_widths hlen, ?_, fun printed hprinted => ?_⟩
  · rw [render?_eq hne]
    split
    · rename_i h
      exact ⟨fun hnone => (nomatch hnone), fun ⟨w, hw, hlt⟩ => absurd (h w hw) (by omega)⟩
    · rename_i h
      push Not at h
      exact ⟨fun _ => h, fun _ => rfl⟩
  · rw [render?_eq hne] at hprinted
    split at hprinted
    · rename_i h
      obtain rfl := Option.some.inj hprinted
      refine List.forall₂_map_right_iff.mpr (List.forall₂_same.mpr fun cells hcells => ?_)
      have hfits := fits_of_mem hlen hcells
      refine ⟨line (widths headers rows) cells, line?_of_le h cells, ?_,
        fun i cell hcell => stands_line hfits hcell, trimmed_trimEnd _⟩
      rw [length_line hfits, length_widths]
    · cases hprinted

/-- The widest cell of the second column has two characters in six bytes, and the widest of the
first is its header. -/
theorem columns_are_aligned_accented :
    [["é", "日本"], ["a.b", "x"]] ≠ [] ∧
    (∀ row ∈ [["é", "日本"], ["a.b", "x"]], row.length = ["PATH", "VALUE"].length) ∧
    render? ["PATH", "VALUE"] [["é", "日本"], ["a.b", "x"]] =
      some ["PATH  VALUE", "é     日本", "a.b   x"] ∧
    ∃ ws : List Nat, ws[0]? = some 4 ∧ ws[1]? = some 6 ∧ ∃ text : String,
      line? ws ["é", "日本"] = some text ∧ text.length = offset ws 2 - 2 ∧
      Stands text "日本" (offset ws 1) (offset ws 2) ∧ Trimmed text "é     日本" := by
  have hne : [["é", "日本"], ["a.b", "x"]] ≠ [] := List.cons_ne_nil _ _
  have hlen : ∀ row ∈ [["é", "日本"], ["a.b", "x"]], row.length = ["PATH", "VALUE"].length := by
    simp
  have hrender : render? ["PATH", "VALUE"] [["é", "日本"], ["a.b", "x"]] =
      some ["PATH  VALUE", "é     日本", "a.b   x"] := by decide +kernel
  obtain ⟨ws, hwidth, -, hlines⟩ := columns_are_aligned hne hlen
  cases hlines _ hrender with
  | cons _ hrows =>
    cases hrows with
    | cons hrow _ =>
      obtain ⟨text, htext, hlength, hcells, htrimmed⟩ := hrow
      exact ⟨hne, hlen, hrender, ws, (hwidth 0).trans (by decide), (hwidth 1).trans (by decide),
        text, htext, hlength, hcells 1 _ rfl, htrimmed⟩

/-- There is no table of a single cell that has one byte more than a column can be wide. -/
theorem no_table_of_wide_cell :
    let wide := String.ofList (List.replicate 65536 'x')
    [[wide]] ≠ [] ∧ (∀ row ∈ [[wide]], row.length = ["A"].length) ∧
      render? ["A"] [[wide]] = none := by
  intro wide
  have hlen : ∀ row ∈ [[wide]], row.length = ["A"].length := by simp
  refine ⟨List.cons_ne_nil _ _, hlen, ?_⟩
  have hbytes : 65536 ≤ wide.utf8ByteSize := by
    refine le_trans ?_ (length_le_utf8ByteSize wide)
    rw [String.length_ofList, List.length_replicate]
  have hmax : maxWidth < 65536 := by decide
  cases hrender : render? ["A"] [[wide]] with
  | none => rfl
  | some lines =>
    have hcells := ((exists_render?_iff hlen).mp ⟨lines, hrender⟩).resolve_left
      (List.cons_ne_nil _ _)
    have hle := hcells [wide] (by simp) wide (by simp)
    omega

end Trellis.Table
