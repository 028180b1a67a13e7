import Mathlib.Data.List.Nodup
import Mathlib.Data.Multiset.Bind
import Mathlib.Tactic.Linarith
import Utlib.MapM

/-! `utl::Formatter::printTable` (io/Formatter.h, io/Formatter.cpp) -/

namespace Utlib

def spaces (n : Nat) : String := String.ofList (List.replicate n ' ')

/-- `none` is `fatalError`. -/
def padString (s : String) (width : Int) (align : Char) : Option String :=
  let pad := width - s.utf8ByteSize
  if pad ≤ 0 then some s
  else
    let pad := pad.toNat
    match align with
    | 'l' => some (s ++ spaces pad)
    | 'r' => some (spaces pad ++ s)
    | 'c' => some (spaces (pad / 2) ++ s ++ spaces (pad - pad / 2))
    | _ => none

namespace Formatter

open MapM

inductive Layout
  | rowMajor
  | colMajor
  deriving DecidableEq

structure ColumnFormat where
  align : Char := 'l'
  width : Int := 0

structure TableFormat where
  columns : List ColumnFormat := []
  layout : Layout := .colMajor
  inset : String := ""
  separator : String := " "

/-- `(items + cols - 1) / cols` -/
def rows (items cols : Nat) : Nat := (items + cols - 1) / cols

/-- Maps a row and a column to the item number. -/
def index (layout : Layout) (items cols r c : Nat) : Nat :=
  match layout with
  | .rowMajor => r * cols + c
  | .colMajor => c * (items / cols) + min c (items % cols) + r

/-- The cell in row `r` and column `c`, if there is one. -/
def cellAt (layout : Layout) (items cols r c : Nat) : Option Nat :=
  let i := index layout items cols r c
  if i < items then some i else none

def deriveWidth (cells : List String) (fmt : TableFormat) (c : Nat) (col : ColumnFormat) :
    ColumnFormat :=
  if col.width ≠ 0 then col
  else
    let cols := fmt.columns.length
    { col with
      width := (List.range (rows cells.length cols)).foldl (fun width r =>
        match cellAt fmt.layout cells.length cols r c with
        | some i => max width (cells.getD i "").utf8ByteSize
        | none => width) col.width }

def deriveWidths (cells : List String) (fmt : TableFormat) : List ColumnFormat :=
  fmt.columns.mapIdx (deriveWidth cells fmt)

/-- What goes to the stream: the texts of cells, each with its number, and what is around them. -/
inductive Piece
  | text (s : String)
  | cell (i : Nat) (s : String)

def printCell (cells : List String) (fmt : TableFormat) (r c : Nat) (col : ColumnFormat) :
    Option (List Piece) :=
  match cellAt fmt.layout cells.length fmt.columns.length r c with
  | some i => do
    let s ← padString (cells.getD i "") col.width col.align
    some ((if c ≠ 0 then [.text fmt.separator] else []) ++ [.cell i s])
  | none => some []

def printRow (cells : List String) (fmt : TableFormat) (fmts : List ColumnFormat) (r : Nat) :
    Option (List Piece) := do
  let pieces ← fmts.zipIdx.mapM fun (col, c) => printCell cells fmt r c col
  some (.text fmt.inset :: pieces.flatten ++ [.text "\n"])

def printTable (cells : List String) (fmt : TableFormat) : Option (List Piece) :=
  if fmt.columns.isEmpty then some []
  else do
    let fmts := deriveWidths cells fmt
    let lines ← (List.range (rows cells.length fmt.columns.length)).mapM (printRow cells fmt fmts)
    some lines.flatten

/-- `printTable` with one character for each column -/
def printTableWith (cells : List String) (fmt : String) : Option (List Piece) :=
  printTable cells { columns := (fmt.toList.filter (· ≠ '\x00')).map fun c => { align := c } }

/-- The cell numbers that the print loop visits, in order. -/
def visited (layout : Layout) (items cols : Nat) : List Nat :=
  (List.range (rows items cols)).flatMap fun r =>
    (List.range cols).filterMap (cellAt layout items cols r)

/-- The same cell numbers read top to bottom, column by column. -/
def byColumns (layout : Layout) (items cols : Nat) : List Nat :=
  (List.range cols).flatMap fun c =>
    (List.range (rows items cols)).filterMap fun r => cellAt layout items cols r c

section Output

variable {cells : List String} {fmt : TableFormat}

def Piece.number : Piece → Option Nat
  | .text _ => none
  | .cell i _ => some i

theorem numbers_printCell {r c : Nat} {col : ColumnFormat} {ps : List Piece}
    (h : printCell cells fmt r c col = some ps) :
    ps.filterMap Piece.number =
      (cellAt fmt.layout cells.length fmt.columns.length r c).toList := by
  unfold printCell at h
  cases hcell : cellAt fmt.layout cells.length fmt.columns.length r c with
  | none =>
    rw [hcell] at h
    cases h
    rfl
  | some i =>
    simp only [hcell] at h
    cases hpad : padString (cells.getD i "") col.width col.align with
    | none =>
      rw [hpad] at h
      cases h
    | some s =>
      simp only [hpad, Option.bind_eq_bind, Option.bind_some, Option.some.injEq] at h
      subst h
      by_cases hc : c = 0 <;> simp [hc, List.filterMap_cons, Piece.number]

theorem numbers_printRow {fmts : List ColumnFormat} (hfmts : fmts.length = fmt.columns.length)
    {r : Nat} {ps : List Piece} (h : printRow cells fmt fmts r = some ps) :
    ps.filterMap Piece.number =
      (List.range fmt.columns.length).filterMap
        (cellAt fmt.layout cells.length fmt.columns.length r) := by
  unfold printRow at h
  cases hm : fmts.zipIdx.mapM fun (col, c) => printCell cells fmt r c col with
  | none =>
    rw [hm] at h
    cases h
  | some pieces =>
    simp only [hm, Option.bind_eq_bind, Option.bind_some, Option.some.injEq] at h
    subst h
    have hcells := filterMap_flatten_of_mapM Piece.number
      (fun p : ColumnFormat × Nat =>
        (cellAt fmt.layout cells.length fmt.columns.length r p.2).toList)
      (fun p ps hp => numbers_printCell hp) hm
    have hidx : fmts.zipIdx.map Prod.snd = List.range fmt.columns.length := by
      rw [List.zipIdx_map_snd, hfmts, List.range_eq_range']
    calc
      _ = fmts.zipIdx.flatMap fun p =>
          (cellAt fmt.layout cells.length fmt.columns.length r p.2).toList := by
        simp [List.filterMap_cons, Piece.number, hcells]
      _ = (fmts.zipIdx.map Prod.snd).filterMap
          (cellAt fmt.layout cells.length fmt.columns.length r) := by
        rw [List.filterMap_eq_flatMap_toList, List.flatMap_map]
      _ = _ := by rw [hidx]

/-- The print loop writes exactly the visited cells. -/
theorem numbers_printTable (hcols : fmt.columns ≠ []) {out : List Piece}
    (h : printTable cells fmt = some out) :
    out.filterMap Piece.number = visited fmt.layout cells.length fmt.columns.length := by
  unfold printTable at h
  rw [if_neg (by simpa using hcols)] at h
  cases hm : (List.range (rows cells.length fmt.columns.length)).mapM
      (printRow cells fmt (deriveWidths cells fmt)) with
  | none =>
    simp only [hm, Option.bind_eq_bind, Option.bind_none] at h
    cases h
  | some lines =>
    simp only [hm, Option.bind_eq_bind, Option.bind_some, Option.some.injEq] at h
    subst h
    apply filterMap_flatten_of_mapM _ _ _ hm
    intro r ps hps
    exact numbers_printRow List.length_mapIdx hps

end Output

section Segments

theorem filterMap_offset (a m n : Nat) :
    (List.range n).filterMap (fun k => if a + k < m then some (a + k) else none) =
      (List.range (min n (m - a))).map (a + ·) := by
  induction n with
  | zero => simp
  | succ n ih =>
    rw [List.range_succ, List.filterMap_append, ih]
    by_cases h : a + n < m
    · rw [show min (n + 1) (m - a) = min n (m - a) + 1 by omega, List.range_succ, List.map_append]
      simp [h]
      omega
    · rw [show min (n + 1) (m - a) = min n (m - a) by omega]
      simp [h]

/-- Consecutive segments of the numbers below `s n`, put together. -/
theorem flatMap_segments {s : Nat → Nat} {f : Nat → List Nat} {n : Nat} (h0 : s 0 = 0)
    (hs : ∀ k, k < n → s k ≤ s (k + 1))
    (hf : ∀ k, k < n → f k = (List.range (s (k + 1) - s k)).map (s k + ·)) :
    (List.range n).flatMap f = List.range (s n) := by
  induction n with
  | zero => simp [h0]
  | succ n ih =>
    have hinit :=
      ih (fun k hk => hs k (Nat.lt_succ_of_lt hk)) fun k hk => hf k (Nat.lt_succ_of_lt hk)
    rw [List.range_succ, List.flatMap_append, hinit, List.flatMap_singleton,
      hf n (Nat.lt_succ_self n), ← List.range_add,
      Nat.add_sub_cancel' (hs n (Nat.lt_succ_self n))]

theorem flatMap_filterMap_comm {α β γ : Type} (f : α → β → Option γ) (as : List α)
    (bs : List β) :
    (as.flatMap fun a => bs.filterMap (f a)).Perm (bs.flatMap fun b => as.filterMap (f · b)) := by
  simp only [List.filterMap_eq_flatMap_toList]
  rw [← Multiset.coe_eq_coe]
  simp only [← Multiset.coe_bind]
  exact Multiset.bind_bind _ _

/-- A segment cut off at `m`. -/
theorem filterMap_segment {a m n s s' : Nat} (hs : s = min a m) (hs' : s' - s = min n (m - a)) :
    (List.range n).filterMap (fun k => if a + k < m then some (a + k) else none) =
      (List.range (s' - s)).map (s + ·) := by
  rw [filterMap_offset, hs']
  by_cases h : a ≤ m
  · rw [hs, Nat.min_eq_left h]
  · rw [show m - a = 0 by omega]
    simp

end Segments

section Counting

variable {items cols : Nat}

theorem rows_eq (items : Nat) (hcols : 0 < cols) :
    rows items cols = items / cols + if items % cols = 0 then 0 else 1 := by
  have hdiv := Nat.div_add_mod items cols
  unfold rows
  split
  · rename_i h
    rw [show items + cols - 1 = cols * (items / cols) + (cols - 1) by omega,
      Nat.mul_add_div hcols, Nat.div_eq_of_lt (Nat.sub_lt hcols Nat.one_pos)]
  · rename_i h
    have hlt := Nat.mod_lt items hcols
    rw [show items + cols - 1 = cols * (items / cols + 1) + (items % cols - 1) by
        rw [Nat.mul_succ]; omega,
      Nat.mul_add_div hcols, Nat.div_eq_of_lt (show items % cols - 1 < cols by omega)]

theorem visited_rowMajor (hcols : 0 < cols) : visited .rowMajor items cols = List.range items := by
  have henough : items ≤ rows items cols * cols := by
    have hdiv := Nat.div_add_mod items cols
    have hlt := Nat.mod_lt items hcols
    rw [rows_eq items hcols, Nat.add_mul, Nat.mul_comm (items / cols)]
    split <;> omega
  have hsegments : visited .rowMajor items cols =
      List.range (min (rows items cols * cols) items) := by
    apply flatMap_segments (s := fun r => min (r * cols) items)
    · simp
    · intro r _
      rw [Nat.succ_mul]
      omega
    · intro r _
      apply filterMap_segment rfl
      simp only [Nat.succ_mul]
      omega
  rw [hsegments, Nat.min_eq_right henough]

/-- Whether no short column is followed by another one. -/
def Regular (items cols : Nat) : Prop :=
  items < cols ∨ items % cols = 0 ∨ items % cols + 1 = cols

/-- The number of the first cell of column `c`. -/
def start (items cols c : Nat) : Nat := c * (items / cols) + min c (items % cols)

theorem start_succ (items cols c : Nat) :
    start items cols (c + 1) =
      start items cols c + items / cols + if c < items % cols then 1 else 0 := by
  unfold start
  rw [Nat.succ_mul]
  split <;> omega

theorem start_mono (items cols c : Nat) : start items cols c ≤ start items cols (c + 1) := by
  rw [start_succ, Nat.add_assoc]
  exact Nat.le_add_right _ _

theorem start_last (hcols : 0 < cols) : start items cols cols = items := by
  have hdiv := Nat.div_add_mod items cols
  have hlt := Nat.mod_lt items hcols
  unfold start
  omega

theorem start_le {c : Nat} (hc : c ≤ cols) : start items cols c ≤ items := by
  have hmono := Nat.mul_le_mul_right (items / cols) hc
  have hdiv := Nat.div_add_mod items cols
  unfold start
  omega

/-- Behind the last long column there is at most one more column with cells. -/
theorem Regular.start_succ_eq (h : Regular items cols) {c : Nat} (hc : c < cols)
    (hm : items % cols ≠ 0) (hle : items % cols ≤ c) : start items cols (c + 1) = items := by
  rcases h with h | h | h
  · rw [Nat.mod_eq_of_lt h] at hle
    rw [start, Nat.div_eq_of_lt h, Nat.mod_eq_of_lt h]
    omega
  · exact absurd h hm
  · rw [show c + 1 = cols by omega]
    exact start_last (by omega)

theorem byColumns_colMajor (hcols : 0 < cols) (h : Regular items cols) :
    byColumns .colMajor items cols = List.range items := by
  have hrows := rows_eq items hcols
  have hsegments : byColumns .colMajor items cols = List.range (start items cols cols) := by
    apply flatMap_segments (s := start items cols)
    · simp [start]
    · intro c _
      exact start_mono items cols c
    · intro c hc
      have hle : start items cols c ≤ items := start_le (Nat.le_of_lt hc)
      have hle' : start items cols (c + 1) ≤ items := start_le hc
      have hend := h.start_succ_eq hc
      apply filterMap_segment (a := start items cols c) (Nat.min_eq_left hle).symm
      rw [start_succ] at hle' hend ⊢
      rw [hrows]
      generalize items / cols = q at *
      by_cases hlong : c < items % cols
      · rw [if_pos hlong] at hle'
        rw [if_pos hlong, if_neg (by omega)]
        omega
      · rw [if_neg hlong] at hle' hend
        rw [if_neg hlong]
        by_cases hm : items % cols = 0
        · rw [if_pos hm]
          omega
        · have hlast := hend hm (by omega)
          rw [if_neg hm]
          omega
  rw [hsegments, start_last hcols]

/-- Otherwise the last row visits a cell of the first row again. -/
theorem not_nodup_colMajor (hcols : 0 < cols) (h : ¬Regular items cols) :
    ¬(visited .colMajor items cols).Nodup := by
  unfold Regular at h
  have hrows := rows_eq items hcols
  have hlt := Nat.mod_lt items hcols
  have hdiv := Nat.div_add_mod items cols
  have hq : 0 < items / cols := Nat.div_pos (by omega) hcols
  have hm : items % cols ≠ 0 := by omega
  rw [if_neg hm] at hrows
  have hinside : start items cols (items % cols + 1) < items := by
    have hmono := Nat.mul_le_mul_right (items / cols) (show items % cols + 2 ≤ cols by omega)
    rw [Nat.succ_mul] at hmono
    unfold start
    omega
  have hfirst : cellAt .colMajor items cols 0 (items % cols + 1) =
      some (start items cols (items % cols + 1)) := by
    exact if_pos hinside
  have hlast : cellAt .colMajor items cols (items / cols) (items % cols) =
      some (start items cols (items % cols + 1)) := by
    have hmeet : start items cols (items % cols) + items / cols =
        start items cols (items % cols + 1) := by
      rw [start_succ, if_neg (Nat.lt_irrefl _), Nat.add_zero]
    rw [← hmeet]
    exact if_pos (by rw [← hmeet] at hinside; exact hinside)
  intro hnodup
  obtain ⟨_, hdisjoint⟩ := List.nodup_flatMap.1 hnodup
  have hrow := List.pairwise_iff_getElem.1 hdisjoint 0 (items / cols)
    (by rw [List.length_range]; omega) (by rw [List.length_range]; omega) hq
  rw [List.getElem_range, List.getElem_range] at hrow
  exact hrow (List.mem_filterMap.2 ⟨_, List.mem_range.2 (by omega), hfirst⟩)
    (List.mem_filterMap.2 ⟨_, List.mem_range.2 hlt, hlast⟩)

end Counting

/-- Each cell number is visited once, in column-major order also top to bottom. -/
def PrintsEachOnce (layout : Layout) (items cols : Nat) : Prop :=
  (visited layout items cols).Perm (List.range items) ∧
    (layout = .colMajor → byColumns layout items cols = List.range items)

/-- The cells that are printed are those that the loop visits, and it visits each of them once
unless a short column is followed by another one. -/
theorem printsEachOnce_iff (cells : List String) (fmt : TableFormat) (hcols : fmt.columns ≠ []) :
    (∀ out, printTable cells fmt = some out →
      out.filterMap Piece.number = visited fmt.layout cells.length fmt.columns.length) ∧
    (PrintsEachOnce fmt.layout cells.length fmt.columns.length ↔
      fmt.layout = .rowMajor ∨ cells.length < fmt.columns.length ∨
        cells.length % fmt.columns.length = 0 ∨
        cells.length % fmt.columns.length + 1 = fmt.columns.length) := by
  refine ⟨fun out hout => numbers_printTable hcols hout, ?_⟩
  have hpos : 0 < fmt.columns.length := List.length_pos_of_ne_nil hcols
  cases fmt.layout with
  | rowMajor =>
    rw [PrintsEachOnce, visited_rowMajor hpos]
    simp
  | colMajor =>
    have hreg : PrintsEachOnce .colMajor cells.length fmt.columns.length ↔
        Regular cells.length fmt.columns.length := by
      constructor
      · intro h
        by_contra hirregular
        exact not_nodup_colMajor hpos hirregular (h.1.nodup_iff.2 List.nodup_range)
      · intro h
        have hbyColumns := byColumns_colMajor hpos h
        refine ⟨?_, fun _ => hbyColumns⟩
        rw [← hbyColumns]
        exact flatMap_filterMap_comm _ _ _
    rw [hreg, Regular]
    simp

theorem printsEachOnce_iff_five_cells :
    (∀ out, printTable ["a", "b", "c", "d", "e"] { columns := [{}, {}, {}] } = some out →
      out.filterMap Piece.number = visited .colMajor 5 3) ∧
    (PrintsEachOnce .colMajor 5 3 ↔
      Layout.colMajor = .rowMajor ∨ 5 < 3 ∨ 5 % 3 = 0 ∨ 5 % 3 + 1 = 3) :=
  printsEachOnce_iff ["a", "b", "c", "d", "e"] { columns := [{}, {}, {}] } (List.cons_ne_nil _ _)

/-- With four cells in three columns the last cell is printed twice. -/
theorem not_printsEachOnce_four_cells :
    ∃ (cells : List String) (fmt : TableFormat), fmt.columns ≠ [] ∧
      ¬PrintsEachOnce fmt.layout cells.length fmt.columns.length := by
  refine ⟨["a", "b", "c", "d"], { columns := [{}, {}, {}] }, List.cons_ne_nil _ _, ?_⟩
  intro h
  exact absurd (h.1.nodup_iff.2 List.nodup_range) (by decide)

example : (printTableWith ["a", "b", "c", "d"] "lll").map (·.filterMap Piece.number) =
    some [0, 2, 3, 1, 3] := by decide

end Formatter

end Utlib
