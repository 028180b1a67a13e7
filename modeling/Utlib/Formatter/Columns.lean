import Utlib.Formatter

/-! The columns of a table whose widths are all derived. -/

namespace Utlib.Formatter

open MapM

/-- What row `r` prints in each column. -/
def printColumns (cells : List String) (fmt : TableFormat) (r : Nat) :
    Option (List (List Piece)) :=
  (deriveWidths cells fmt).zipIdx.mapM fun (col, c) => printCell cells fmt r c col

def line (fmt : TableFormat) (columns : List (List Piece)) : List Piece :=
  .text fmt.inset :: columns.flatten ++ [.text "\n"]

def Piece.size : Piece → Nat
  | .text s => s.utf8ByteSize
  | .cell _ s => s.utf8ByteSize

def size (ps : List Piece) : Nat := (ps.map Piece.size).sum

/-- In column `c` of a row, cell `i` is printed as `s`, so many characters from the beginning. -/
def HasField (fmt : TableFormat) (columns : List (List Piece)) (c i : Nat) (s : String)
    (offset : Nat) : Prop :=
  ∃ before, columns[c]? = some (before ++ [.cell i s]) ∧
    offset = size (.text fmt.inset :: (columns.take c).flatten ++ before)

/-- Every width is derived, and `padString` knows the alignment. -/
def Automatic (fmt : TableFormat) : Prop :=
  ∀ col ∈ fmt.columns, col.width = 0 ∧ (col.align = 'l' ∨ col.align = 'r' ∨ col.align = 'c')

structure LinesUp (cells : List String) (fmt : TableFormat) (table : List (List (List Piece))) :
    Prop where
  left : ∀ columns ∈ table, ∀ c i s offset, HasField fmt columns c i s offset →
    ∀ c' < c, ∃ i' s' offset', HasField fmt columns c' i' s' offset'
  offset_eq : ∀ columns ∈ table, ∀ columns' ∈ table, ∀ c i s offset i' s' offset',
    HasField fmt columns c i s offset → HasField fmt columns' c i' s' offset' → offset = offset'
  width_le : ∀ columns ∈ table, ∀ columns' ∈ table, ∀ c i s offset i' s' offset',
    HasField fmt columns c i s offset → HasField fmt columns' c i' s' offset' →
      (cells.getD i' "").utf8ByteSize ≤ s.utf8ByteSize

section Table

variable {cells : List String} {fmt : TableFormat}

theorem printRow_eq (r : Nat) :
    printRow cells fmt (deriveWidths cells fmt) r = (printColumns cells fmt r).map (line fmt) := by
  rw [printRow, printColumns]
  cases (deriveWidths cells fmt).zipIdx.mapM fun (col, c) => printCell cells fmt r c col with
  | none => rfl
  | some columns => rfl

theorem printTable_eq :
    printTable cells fmt =
      ((List.range (rows cells.length fmt.columns.length)).mapM (printColumns cells fmt)).map
        fun table => table.flatMap (line fmt) := by
  have hrow : printRow cells fmt (deriveWidths cells fmt) =
      fun r => (printColumns cells fmt r).map (line fmt) := funext printRow_eq
  rw [printTable]
  split
  · next hnil =>
    rw [List.isEmpty_iff.1 hnil, List.length_nil, rows, Nat.div_zero]
    rfl
  · simp only [hrow, mapM_map_eq]
    cases (List.range (rows cells.length fmt.columns.length)).mapM (printColumns cells fmt) with
    | none => rfl
    | some table => rfl

end Table

section Widths

variable {cells : List String} {fmt : TableFormat} {r c i : Nat} {col : ColumnFormat}

theorem size_spaces (n : Nat) : (spaces n).utf8ByteSize = n := by
  induction n with
  | zero => rfl
  | succ n ih =>
    have hsplit : spaces (n + 1) = spaces n ++ " " := by
      rw [spaces, List.replicate_succ', String.ofList_append]
      rfl
    rw [hsplit, String.utf8ByteSize_append, ih]
    rfl

theorem exists_padString {s : String} {width : Int} {align : Char}
    (halign : align = 'l' ∨ align = 'r' ∨ align = 'c') (hle : s.utf8ByteSize ≤ width) :
    ∃ t, padString s width align = some t ∧ (t.utf8ByteSize : Int) = width := by
  rw [padString]
  dsimp only
  split
  · exact ⟨s, rfl, by omega⟩
  · rcases halign with rfl | rfl | rfl
    · refine ⟨_, rfl, ?_⟩
      rw [String.utf8ByteSize_append, size_spaces]
      omega
    · refine ⟨_, rfl, ?_⟩
      rw [String.utf8ByteSize_append, size_spaces]
      omega
    · refine ⟨_, rfl, ?_⟩
      rw [String.utf8ByteSize_append, String.utf8ByteSize_append, size_spaces, size_spaces]
      omega

/-- The running maximum is not below its first value and not below any value on the way. -/
theorem le_foldl_max (g : Nat → Option Nat) (size : Nat → Int) (l : List Nat) (width : Int) :
    width ≤ l.foldl (fun width r => match g r with
        | some i => max width (size i)
        | none => width) width ∧
      ∀ r ∈ l, ∀ i, g r = some i → size i ≤ l.foldl (fun width r => match g r with
        | some i => max width (size i)
        | none => width) width := by
  induction l generalizing width with
  | nil => exact ⟨le_rfl, nofun⟩
  | cons r l ih =>
    rw [List.foldl_cons]
    cases hr : g r with
    | none =>
      obtain ⟨hwidth, hmem⟩ := ih width
      refine ⟨hwidth, fun r' hr' i hi => ?_⟩
      rcases List.mem_cons.1 hr' with rfl | hr'
      · rw [hr] at hi
        cases hi
      · exact hmem r' hr' i hi
    | some j =>
      obtain ⟨hwidth, hmem⟩ := ih (max width (size j))
      refine ⟨(le_max_left _ _).trans hwidth, fun r' hr' i hi => ?_⟩
      rcases List.mem_cons.1 hr' with rfl | hr'
      · rw [hr] at hi
        cases hi
        exact (le_max_right _ _).trans hwidth
      · exact hmem r' hr' i hi

theorem le_width (hcol : col.width = 0) (hr : r < rows cells.length fmt.columns.length)
    (hi : cellAt fmt.layout cells.length fmt.columns.length r c = some i) :
    ((cells.getD i "").utf8ByteSize : Int) ≤ (deriveWidth cells fmt c col).width := by
  rw [deriveWidth, if_neg (fun h => h hcol)]
  exact (le_foldl_max _ (fun i => (cells.getD i "").utf8ByteSize) _ col.width).2 r
    (List.mem_range.2 hr) i hi

theorem align_deriveWidth : (deriveWidth cells fmt c col).align = col.align := by
  rw [deriveWidth]
  split <;> rfl

/-- A cell stands in every column to the left of a cell. -/
theorem exists_cellAt {layout : Layout} {items cols c' : Nat}
    (hi : cellAt layout items cols r c = some i) (hc : c' ≤ c) :
    ∃ i', cellAt layout items cols r c' = some i' := by
  have hle : index layout items cols r c' ≤ index layout items cols r c := by
    cases layout with
    | rowMajor => exact Nat.add_le_add_left hc _
    | colMajor =>
      have hmul := Nat.mul_le_mul_right (items / cols) hc
      rw [index, index]
      omega
  rw [cellAt] at hi ⊢
  split at hi
  · next hlt => exact ⟨_, if_pos (lt_of_le_of_lt hle hlt)⟩
  · cases hi

end Widths

section Fields

variable {cells : List String} {fmt : TableFormat} {columns : List (List Piece)}
  {r c i offset : Nat} {s : String} {col : ColumnFormat}

def separated (fmt : TableFormat) (c : Nat) : List Piece :=
  if c ≠ 0 then [.text fmt.separator] else []

/-- Where the fields of column `c` begin -/
def fieldOffset (cells : List String) (fmt : TableFormat) : Nat → Nat
  | 0 => fmt.inset.utf8ByteSize
  | c + 1 =>
    fieldOffset cells fmt c + ((deriveWidths cells fmt).getD c {}).width.toNat +
      fmt.separator.utf8ByteSize

theorem size_append (ps qs : List Piece) : size (ps ++ qs) = size ps + size qs := by
  rw [size, List.map_append, List.sum_append]
  rfl

theorem getElem?_deriveWidths (hcol : fmt.columns[c]? = some col) :
    (deriveWidths cells fmt)[c]? = some (deriveWidth cells fmt c col) := by
  rw [deriveWidths, List.getElem?_mapIdx, hcol]
  rfl

theorem getElem?_printColumns (h : printColumns cells fmt r = some columns)
    (hcol : fmt.columns[c]? = some col) :
    columns[c]? = printCell cells fmt r c (deriveWidth cells fmt c col) := by
  rw [getElem?_mapM h, List.getElem?_zipIdx, getElem?_deriveWidths hcol]
  simp

theorem exists_getElem?_columns (h : printColumns cells fmt r = some columns) {ps : List Piece}
    (hps : columns[c]? = some ps) : ∃ col, fmt.columns[c]? = some col := by
  rw [getElem?_mapM h, List.getElem?_zipIdx, deriveWidths, List.getElem?_mapIdx] at hps
  cases hcol : fmt.columns[c]? with
  | none =>
    rw [hcol] at hps
    cases hps
  | some col => exact ⟨col, rfl⟩

theorem printCell_of_none (hcell : cellAt fmt.layout cells.length fmt.columns.length r c = none) :
    printCell cells fmt r c col = some [] := by
  rw [printCell, hcell]

/-- A cell is as wide as its column. -/
theorem exists_printCell (hfmt : Automatic fmt) (hr : r < rows cells.length fmt.columns.length)
    (hcol : fmt.columns[c]? = some col)
    (hi : cellAt fmt.layout cells.length fmt.columns.length r c = some i) :
    ∃ s, printCell cells fmt r c (deriveWidth cells fmt c col) =
        some (separated fmt c ++ [.cell i s]) ∧
      (s.utf8ByteSize : Int) = (deriveWidth cells fmt c col).width := by
  obtain ⟨hwidth, halign⟩ := hfmt col (List.mem_of_getElem? hcol)
  have hkeep : (deriveWidth cells fmt c col).align = col.align := align_deriveWidth
  rw [← hkeep] at halign
  obtain ⟨s, hs, hsize⟩ := exists_padString halign (le_width hwidth hr hi)
  refine ⟨s, ?_, hsize⟩
  rw [printCell, hi]
  simp only [hs, separated]
  rfl

theorem exists_printColumns (hfmt : Automatic fmt)
    (hr : r < rows cells.length fmt.columns.length) :
    ∃ columns, printColumns cells fmt r = some columns := by
  apply exists_mapM_eq
  rintro ⟨col', c⟩ hmem
  rw [List.mk_mem_zipIdx_iff_getElem?, deriveWidths, List.getElem?_mapIdx] at hmem
  obtain ⟨col, hcol, rfl⟩ := Option.map_eq_some_iff.1 hmem
  cases hi : cellAt fmt.layout cells.length fmt.columns.length r c with
  | none => exact ⟨[], printCell_of_none hi⟩
  | some i =>
    obtain ⟨s, hs, -⟩ := exists_printCell hfmt hr hcol hi
    exact ⟨_, hs⟩

/-- What a field is, and what is printed in front of it. -/
theorem hasField_iff (hfmt : Automatic fmt) (hr : r < rows cells.length fmt.columns.length)
    (h : printColumns cells fmt r = some columns) (hcol : fmt.columns[c]? = some col) :
    HasField fmt columns c i s offset ↔
      cellAt fmt.layout cells.length fmt.columns.length r c = some i ∧
        printCell cells fmt r c (deriveWidth cells fmt c col) =
          some (separated fmt c ++ [.cell i s]) ∧
        offset = size (.text fmt.inset :: (columns.take c).flatten ++ separated fmt c) := by
  have hget := getElem?_printColumns h hcol
  constructor
  · rintro ⟨before, hps, hoffset⟩
    rw [hget] at hps
    cases hi : cellAt fmt.layout cells.length fmt.columns.length r c with
    | none =>
      rw [printCell_of_none hi] at hps
      exact absurd (Option.some.inj hps).symm (by simp)
    | some j =>
      obtain ⟨t, ht, -⟩ := exists_printCell hfmt hr hcol hi
      rw [ht] at hps
      obtain ⟨rfl, hcell⟩ := List.append_inj' (Option.some.inj hps) rfl
      cases hcell
      exact ⟨rfl, ht, hoffset⟩
  · rintro ⟨-, hs, hoffset⟩
    exact ⟨separated fmt c, hget.trans hs, hoffset⟩

/-- By induction on the column: the fields to the left have the widths of their columns. -/
theorem size_before (hfmt : Automatic fmt) (hr : r < rows cells.length fmt.columns.length)
    (h : printColumns cells fmt r = some columns) (hcol : fmt.columns[c]? = some col)
    (hi : cellAt fmt.layout cells.length fmt.columns.length r c = some i) :
    size (.text fmt.inset :: (columns.take c).flatten ++ separated fmt c) =
      fieldOffset cells fmt c := by
  induction c generalizing i col with
  | zero => simp [size, Piece.size, separated, fieldOffset]
  | succ c ih =>
    obtain ⟨j, hj⟩ := exists_cellAt hi (Nat.le_succ c)
    have hlt := Nat.lt_of_succ_lt (List.getElem?_eq_some_iff.1 hcol).1
    have hcol' : fmt.columns[c]? = some fmt.columns[c] := List.getElem?_eq_getElem hlt
    obtain ⟨s, hs, hsize⟩ := exists_printCell hfmt hr hcol' hj
    have hps := (getElem?_printColumns h hcol').trans hs
    have hwidth : ((deriveWidths cells fmt).getD c {}).width.toNat = s.utf8ByteSize := by
      rw [List.getD_eq_getElem?_getD, getElem?_deriveWidths hcol', Option.getD_some, ← hsize]
      exact Int.toNat_natCast _
    have hleft := ih hcol' hj
    have htake : columns.take (c + 1) = columns.take c ++ [separated fmt c ++ [.cell j s]] := by
      rw [List.take_add_one, hps]
      rfl
    rw [htake, List.flatten_append, List.flatten_singleton, ← List.cons_append,
      ← List.append_assoc, size_append, size_append, hleft, fieldOffset, hwidth]
    simp [size, Piece.size, separated]

theorem exists_hasField (hfmt : Automatic fmt) (hr : r < rows cells.length fmt.columns.length)
    (h : printColumns cells fmt r = some columns) (hcol : fmt.columns[c]? = some col)
    (hi : cellAt fmt.layout cells.length fmt.columns.length r c = some i) :
    ∃ s offset, HasField fmt columns c i s offset := by
  obtain ⟨s, hs, -⟩ := exists_printCell hfmt hr hcol hi
  exact ⟨s, _, (hasField_iff hfmt hr h hcol).2 ⟨hi, hs, rfl⟩⟩

/-- Neither the width nor the offset depends on the row. -/
theorem HasField.spec (hfmt : Automatic fmt) (hr : r < rows cells.length fmt.columns.length)
    (h : printColumns cells fmt r = some columns) (hfield : HasField fmt columns c i s offset) :
    ∃ col, fmt.columns[c]? = some col ∧
      cellAt fmt.layout cells.length fmt.columns.length r c = some i ∧
      (s.utf8ByteSize : Int) = (deriveWidth cells fmt c col).width ∧
      offset = fieldOffset cells fmt c := by
  obtain ⟨col, hcol⟩ : ∃ col, fmt.columns[c]? = some col := by
    obtain ⟨before, hps, -⟩ := hfield
    exact exists_getElem?_columns h hps
  obtain ⟨hi, hs, hoffset⟩ := (hasField_iff hfmt hr h hcol).1 hfield
  obtain ⟨t, ht, hsize⟩ := exists_printCell hfmt hr hcol hi
  rw [ht] at hs
  have hlast := (List.append_inj' (Option.some.inj hs) rfl).2
  cases hlast
  exact ⟨col, hcol, hi, hsize, hoffset.trans (size_before hfmt hr h hcol hi)⟩

theorem linesUp (hfmt : Automatic fmt) {table : List (List (List Piece))}
    (htable : (List.range (rows cells.length fmt.columns.length)).mapM (printColumns cells fmt) =
      some table) : LinesUp cells fmt table := by
  have hrow : ∀ columns ∈ table, ∃ r < rows cells.length fmt.columns.length,
      printColumns cells fmt r = some columns := by
    intro columns hcolumns
    obtain ⟨r, hr, h⟩ := mem_mapM htable hcolumns
    exact ⟨r, List.mem_range.1 hr, h⟩
  constructor
  · intro columns hcolumns c i s offset hfield c' hc
    obtain ⟨r, hr, h⟩ := hrow columns hcolumns
    obtain ⟨col, hcol, hi, -, -⟩ := hfield.spec hfmt hr h
    obtain ⟨i', hi'⟩ := exists_cellAt hi hc.le
    have hlt := hc.trans (List.getElem?_eq_some_iff.1 hcol).1
    obtain ⟨s', offset', hfield'⟩ :=
      exists_hasField hfmt hr h (List.getElem?_eq_getElem hlt) hi'
    exact ⟨i', s', offset', hfield'⟩
  · intro columns hcolumns columns' hcolumns' c i s offset i' s' offset' hfield hfield'
    obtain ⟨r, hr, h⟩ := hrow columns hcolumns
    obtain ⟨r', hr', h'⟩ := hrow columns' hcolumns'
    obtain ⟨_, -, -, -, hoffset⟩ := hfield.spec hfmt hr h
    obtain ⟨_, -, -, -, hoffset'⟩ := hfield'.spec hfmt hr' h'
    rw [hoffset, hoffset']
  · intro columns hcolumns columns' hcolumns' c i s offset i' s' offset' hfield hfield'
    obtain ⟨r, hr, h⟩ := hrow columns hcolumns
    obtain ⟨r', hr', h'⟩ := hrow columns' hcolumns'
    obtain ⟨col, hcol, -, hsize, -⟩ := hfield.spec hfmt hr h
    obtain ⟨_, -, hi', -, -⟩ := hfield'.spec hfmt hr' h'
    have hle := le_width (hfmt col (List.mem_of_getElem? hcol)).1 hr' hi'
    rw [← hsize] at hle
    exact_mod_cast hle

/-- Tables whose widths are all derived are printed, and their columns line up. -/
theorem printTable_linesUp (cells : List String) (fmt : TableFormat) (hfmt : Automatic fmt) :
    ∃ table, (List.range (rows cells.length fmt.columns.length)).mapM (printColumns cells fmt) =
        some table ∧
      printTable cells fmt = some (table.flatMap (line fmt)) ∧ LinesUp cells fmt table := by
  obtain ⟨table, htable⟩ : ∃ table, (List.range _).mapM (printColumns cells fmt) = some table :=
    exists_mapM_eq fun r hr => exists_printColumns hfmt (List.mem_range.1 hr)
  refine ⟨table, htable, ?_, linesUp hfmt htable⟩
  rw [printTable_eq, htable]
  rfl

/-- Column by column, and the last row ends early. -/
def threeColumns : TableFormat :=
  { columns := [{ align := 'l' }, { align := 'r' }, { align := 'c' }], inset := "  " }

theorem printTable_linesUp_fruits :
    ∃ table, (List.range (rows 5 3)).mapM
        (printColumns ["apple", "fig", "kiwi", "plum", "pear"] threeColumns) = some table ∧
      printTable ["apple", "fig", "kiwi", "plum", "pear"] threeColumns =
        some (table.flatMap (line threeColumns)) ∧
      LinesUp ["apple", "fig", "kiwi", "plum", "pear"] threeColumns table :=
  printTable_linesUp ["apple", "fig", "kiwi", "plum", "pear"] threeColumns
    (by simp [Automatic, threeColumns])

end Fields

end Utlib.Formatter
