/-!
# Tables

Columns are two blanks apart and as wide as their widest cell, counted in UTF-8 bytes. Cells are
padded on the right by characters, and white space at the end of a line is cut off. A width has to
fit into 16 bits: a table with a wider column cannot be rendered.
-/

namespace Trellis.Table

/-- The characters with the Unicode property `White_Space`. -/
def isBlank (c : Char) : Bool :=
  let n := c.toNat
  (0x09 ≤ n && n ≤ 0x0D) || n == 0x20 || n == 0x85 || n == 0xA0 || n == 0x1680 ||
    (0x2000 ≤ n && n ≤ 0x200A) || n == 0x2028 || n == 0x2029 || n == 0x202F || n == 0x205F ||
    n == 0x3000

/-- A text without the white space at its end. -/
def trimEnd (s : String) : String :=
  String.ofList (s.toList.reverse.dropWhile isBlank).reverse

/-- The greatest width a column can have. -/
def maxWidth : Nat := UInt16.size - 1

/-- A cell filled up with blanks to a number of characters. -/
def fill (width : Nat) (cell : String) : String :=
  cell ++ String.ofList (List.replicate (width - cell.length) ' ')

/-- A cell filled up to the width of its column, unless that is too wide. -/
def pad? (width : Nat) (cell : String) : Option String :=
  if width ≤ maxWidth then some (fill width cell) else none

/-- Greater of two widths, column by column; only the columns of the first list count. -/
def widen (widths : List Nat) (row : List String) : List Nat :=
  match widths, row with
  | w :: ws, cell :: cells => max w cell.utf8ByteSize :: widen ws cells
  | ws, _ => ws

/-- Width of every column that has a header. -/
def widths (headers : List String) (rows : List (List String)) : List Nat :=
  rows.foldl widen (headers.map String.utf8ByteSize)

/-- A line before white space at its end is cut off. Cells without a header are left out. -/
def line? (widths : List Nat) (cells : List String) : Option String := do
  let padded ← (List.zip widths cells).mapM fun p => pad? p.1 p.2
  return "  ".intercalate padded

/-- The lines of a table; nothing at all without rows. -/
def render? (headers : List String) (rows : List (List String)) : Option (List String) :=
  if rows.isEmpty then some []
  else
    let ws := widths headers rows
    (headers :: rows).mapM fun cells => return trimEnd (← line? ws cells)

end Trellis.Table
