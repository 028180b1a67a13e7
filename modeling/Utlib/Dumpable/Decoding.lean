import Utlib.Dumpable.Columns
import Utlib.Fields

/-! Which dumps can be read back. -/

namespace Utlib.Dumpable

open Numeral Sequence

section Newlines

variable {opt : DumpOpt} {f : DumpFmt} {data : List UInt8} {size k : Nat}

theorem lines_flatMap {ls : List (List Char)} (h : ∀ l ∈ ls, '\n' ∉ l) :
    lines (ls.flatMap (· ++ ['\n'])) = ls := by
  induction ls with
  | nil => rfl
  | cons l ls ih =>
    have hrest := ih fun l hl => h l (List.mem_cons_of_mem _ hl)
    rw [lines] at hrest ⊢
    rw [List.flatMap_cons, List.append_assoc, List.singleton_append,
      List.splitOn_append_cons_self_of_not_mem (h l List.mem_cons_self),
      List.dropLast_cons_of_ne_nil (List.splitOn_ne_nil _ _), hrest]

theorem length_lines (cs : List Char) : (lines cs).length = cs.count '\n' := by
  rw [lines, List.length_dropLast, Fields.length_splitOn, Nat.add_sub_cancel]

/-- More line breaks than lines if one of the lines has a line break of its own. -/
theorem not_mem_of_length_lines {ls : List (List Char)}
    (h : (lines (ls.flatMap (· ++ ['\n']))).length = ls.length) : ∀ l ∈ ls, '\n' ∉ l := by
  rw [length_lines] at h
  have hge : ∀ ls : List (List Char), ls.length ≤ (ls.flatMap (· ++ ['\n'])).count '\n' := by
    intro ls
    induction ls with
    | nil => exact Nat.zero_le _
    | cons l ls ih =>
      rw [List.flatMap_cons, List.count_append, List.count_append, List.length_cons,
        List.count_singleton_self]
      omega
  induction ls with
  | nil => simp
  | cons l ls ih =>
    have hrest := hge ls
    rw [List.flatMap_cons, List.count_append, List.count_append, List.length_cons,
      List.count_singleton_self] at h
    intro l' hl'
    rcases List.mem_cons.1 hl' with rfl | hl'
    · rw [← List.count_eq_zero]
      omega
    · exact ih (by omega) l' hl'

theorem newline_mem_cellText {c : Char} (h : IsData c size) (hbase : opt.base = 16)
    (offset : Nat) :
    '\n' ∈ cellText opt (dataProvider data) size offset ↔
      data.length < offset + size ∧ opt.missing = '\n' := by
  rw [cellText_eq h hbase]
  split
  · next hinside =>
    refine iff_of_false (fun hmem => ?_) fun hmem => ?_
    · exact absurd (isDigit_of_mem_shade hmem) (by decide)
    · omega
  · next houtside =>
    have hpos := h.pos
    rw [List.mem_replicate, and_iff_right (by omega), and_iff_right (by omega), eq_comm]

theorem newline_mem_cells {c : Char} (h : IsData c size) (hbase : opt.base = 16)
    (offset n : Nat) :
    '\n' ∈ cells opt (dataProvider data) size offset n ↔
      ∃ i < n, data.length < offset + i * size + size ∧ opt.missing = '\n' := by
  simp [cells, newline_mem_cellText h hbase]

theorem newline_mem_groups {c : Char} (h : IsData c size) (hbase : opt.base = 16)
    (offset n : Nat) :
    '\n' ∈ groups opt (dataProvider data) f size offset n ↔
      ∃ i < f.first f.groupCount n, data.length < offset + i * size + size ∧
        opt.missing = '\n' := by
  induction n with
  | zero =>
    rw [DumpFmt.first, Nat.zero_mul, Nat.zero_min]
    simp [groups]
  | succ n ih =>
    have hblank : '\n' ∉ (if n + 1 < f.groupCount then [' '] else []) := by
      split <;> decide
    rw [groups_succ, List.mem_append, List.mem_append, ih, newline_mem_cells h hbase,
      or_iff_left hblank, f.first_succ]
    constructor
    · rintro (⟨i, hi, hmem⟩ | ⟨i, hi, hmem⟩)
      · exact ⟨i, by omega, hmem⟩
      · refine ⟨f.first f.groupCount n + i, by omega, ?_⟩
        rwa [Nat.add_mul, ← Nat.add_assoc]
    · rintro ⟨i, hi, hmem⟩
      rcases Nat.lt_or_ge i (f.first f.groupCount n) with hlt | hge
      · exact Or.inl ⟨i, hlt, hmem⟩
      · obtain ⟨j, rfl⟩ := Nat.exists_eq_add_of_le hge
        rw [Nat.add_mul, ← Nat.add_assoc] at hmem
        exact Or.inr ⟨j, by omega, hmem⟩

theorem newline_mem_dataText (h : IsData f.size f.wordSize) (hbase : opt.base = 16)
    (hcolumns : 0 < f.columns) :
    '\n' ∈ f.dataText opt data k ↔
      data.length < (k + 1) * f.stride ∧ opt.missing = '\n' := by
  rw [DumpFmt.dataText, List.mem_append, or_iff_left (by decide), newline_mem_groups h hbase,
    f.first_groupCount]
  constructor
  · rintro ⟨i, hi, hlt, hmissing⟩
    have hmul := Nat.mul_le_mul_right f.wordSize (Nat.succ_le_of_lt hi)
    rw [Nat.succ_mul] at hmul
    rw [Nat.succ_mul, DumpFmt.stride] at *
    exact ⟨by omega, hmissing⟩
  · rintro ⟨hlt, hmissing⟩
    refine ⟨f.columns - 1, by omega, ?_, hmissing⟩
    rw [Nat.succ_mul] at hlt
    rwa [Nat.add_assoc, ← Nat.succ_mul, Nat.succ_eq_add_one, Nat.sub_add_cancel hcolumns,
      ← DumpFmt.stride]

theorem toChar_eq_newline (x : UInt8) : toChar x.toNat = '\n' ↔ x = 10 := by
  have hall : ∀ n : Fin 256, Char.ofNat n = '\n' ↔ n.val = 10 := by decide +kernel
  have hlt := x.toNat_lt
  have hmod : ((x.toNat : Int) % 2 ^ 8).toNat = x.toNat := by omega
  rw [toChar, hmod, ← UInt8.toNat_inj]
  exact hall ⟨x.toNat, hlt⟩

theorem shown_eq_newline (x : UInt8) :
    shown opt x.toNat = '\n' ↔ x = 10 ∧ isPrint opt 10 = true := by
  rw [shown]
  split
  · next hprint =>
    rw [toChar_eq_newline]
    refine ⟨?_, fun h => h.1⟩
    rintro rfl
    exact ⟨rfl, hprint⟩
  · next hprint =>
    refine iff_of_false (by decide) ?_
    rintro ⟨rfl, h⟩
    exact hprint h

theorem newline_mem_row (offset n : Nat) :
    '\n' ∈ row opt data offset n ↔
      isPrint opt 10 = true ∧ ∃ i < n, data[offset + i]? = some 10 := by
  rw [row, List.mem_map]
  constructor
  · rintro ⟨i, hi, hshown⟩
    split at hshown
    · next x hx =>
      obtain ⟨rfl, hprint⟩ := (shown_eq_newline x).1 hshown
      exact ⟨hprint, i, List.mem_range.1 hi, hx⟩
    · exact absurd hshown (by decide)
  · rintro ⟨hprint, i, hi, hx⟩
    refine ⟨i, List.mem_range.2 hi, ?_⟩
    rw [hx]
    exact (shown_eq_newline 10).2 ⟨rfl, hprint⟩

theorem newline_mem_line (h : IsData f.size f.wordSize) (hbase : opt.base = 16)
    (hcolumns : 0 < f.columns) :
    '\n' ∈ f.line opt data k ↔
      (data.length < (k + 1) * f.stride ∧ opt.missing = '\n') ∨
        (f.ascii = true ∧ isPrint opt 10 = true ∧
          ∃ i < f.stride, data[k * f.stride + i]? = some 10) := by
  have hnr : '\n' ∉ f.nrText k := by
    rw [DumpFmt.nrText]
    split
    · rw [List.mem_append, or_iff_left (by decide)]
      exact not_mem_decimal (by decide) (by decide) _
    · exact List.not_mem_nil
  have hoffset : '\n' ∉ f.offsetText opt k := by
    rw [DumpFmt.offsetText]
    split
    · rw [List.mem_append, or_iff_left (by decide)]
      exact fun hc => absurd (isDigit_of_mem_label hc) (by decide)
    · exact List.not_mem_nil
  have hascii : '\n' ∈ f.asciiText opt data k ↔ f.ascii = true ∧ isPrint opt 10 = true ∧
      ∃ i < f.stride, data[k * f.stride + i]? = some 10 := by
    rw [DumpFmt.asciiText, ← newline_mem_row]
    cases f.ascii with
    | false => simp
    | true => simp
  rw [DumpFmt.line, List.mem_append, List.mem_append, List.mem_append, or_iff_right hnr,
    or_iff_right hoffset, newline_mem_dataText h hbase hcolumns, hascii]

theorem exists_short_line (hstride : 0 < f.stride) (len : Nat) :
    (∃ k < lineCount f len, len < (k + 1) * f.stride) ↔ ¬f.stride ∣ len := by
  constructor
  · rintro ⟨k, hk, hlt⟩
    rw [lt_lineCount hstride, Nat.mul_comm] at hk
    rw [Nat.mul_comm] at hlt
    exact Nat.not_dvd_of_lt_of_lt_mul_succ hk hlt
  · intro hdvd
    have hmod := Nat.div_add_mod len f.stride
    have hlt := Nat.mod_lt len hstride
    have hpos : len % f.stride ≠ 0 := fun h => hdvd (Nat.dvd_of_mod_eq_zero h)
    refine ⟨len / f.stride, ?_, ?_⟩
    · rw [lt_lineCount hstride, Nat.mul_comm]
      omega
    · rw [Nat.succ_mul, Nat.mul_comm]
      omega

/-- The lines of a dump are lines. -/
theorem newline_not_mem_lines (h : IsData f.size f.wordSize) (hbase : opt.base = 16)
    (hcolumns : 0 < f.columns) (hstride : 0 < f.stride) :
    (∀ k < lineCount f data.length, '\n' ∉ f.line opt data k) ↔
      (¬f.stride ∣ data.length → opt.missing ≠ '\n') ∧
        (f.ascii = true → 10 ∈ data → isPrint opt 10 = false) := by
  simp only [newline_mem_line h hbase hcolumns, not_or]
  constructor
  · intro hall
    refine ⟨fun hdvd hmissing => ?_, fun hascii hmem => ?_⟩
    · obtain ⟨k, hk, hlt⟩ := (exists_short_line hstride _).2 hdvd
      exact (hall k hk).1 ⟨hlt, hmissing⟩
    · obtain ⟨i, hi, hbyte⟩ := List.getElem_of_mem hmem
      have hdiv := Nat.div_add_mod i f.stride
      rw [Nat.mul_comm] at hdiv
      have hk : i / f.stride < lineCount f data.length := by
        rw [lt_lineCount hstride]
        omega
      refine Bool.eq_false_iff.2 fun hprint => (hall _ hk).2 ⟨hascii, hprint, i % f.stride,
        Nat.mod_lt i hstride, ?_⟩
      rw [hdiv, List.getElem?_eq_getElem hi, hbyte]
  · rintro ⟨hmissing, hprint⟩ k hk
    refine ⟨fun hshort => ?_, ?_⟩
    · exact hmissing ((exists_short_line hstride _).1 ⟨k, hk, hshort.1⟩) hshort.2
    · rintro ⟨hascii, hprint', i, -, hbyte⟩
      rw [hprint hascii (List.mem_of_getElem? hbyte)] at hprint'
      cases hprint'

end Newlines

section Bytewise

variable {opt : DumpOpt} {f : DumpFmt} {data : List UInt8} {k : Nat}

/-- The text reads back as a bytewise dump of the data. -/
structure DecodesBack (opt : DumpOpt) (f : DumpFmt) (data : List UInt8) (text : List Char) :
    Prop where
  bytes : ((lines text).flatMap fun l => dataBytes 1 (f.dataField l)) = data
  count : (lines text).length = data.length ⌈/⌉ f.columns
  offsets : ∀ offset, f.offset = some offset → ∀ k l, (lines text)[k]? = some l →
    signed (value 16 (f.offsetField l)) = offset.toInt + (k * f.columns : Nat)
  ascii : f.ascii = true → ∀ l ∈ lines text,
    f.asciiField l = ((dataBytes 1 (f.dataField l)).map fun x => shown opt x.toNat).rightpad
      f.columns ' '

theorem rightpad_cons {α : Type} (x a : α) (xs : List α) (n : Nat) :
    (x :: xs).rightpad (n + 1) a = x :: xs.rightpad n a := by
  rw [List.rightpad, List.rightpad, List.length_cons, Nat.add_sub_add_right, List.cons_append]

theorem row_eq (offset n : Nat) :
    row opt data offset n =
      ((slice data offset n).map fun x => shown opt x.toNat).rightpad n ' ' := by
  induction n generalizing offset with
  | zero => rfl
  | succ n ih =>
    rcases Nat.lt_or_ge offset data.length with hlt | hge
    · have hslice : slice data offset (n + 1) = data[offset] :: slice data (offset + 1) n := by
        rw [slice, List.drop_eq_getElem_cons hlt, List.take_succ_cons]
        rfl
      rw [row_succ, ih, List.getElem?_eq_getElem hlt, hslice, List.map_cons, rightpad_cons]
    · rw [row_of_le hge, slice, List.drop_eq_nil_of_le hge, List.take_nil, List.map_nil,
        List.rightpad, List.nil_append, List.length_nil, Nat.sub_zero]

theorem dataBytes_line (h : IsData f.size f.wordSize) (hbase : opt.base = 16) :
    dataBytes f.wordSize (f.dataField (f.line opt data k)) =
      (List.range f.columns).flatMap fun i =>
        cell opt data f.wordSize ((k * f.columns + i) * f.wordSize) := by
  have hbytes : dataBytes f.wordSize (f.dataText opt data k ++ []) = _ :=
    dataBytes_dataText h hbase k []
  rwa [List.append_nil, dataBytes_nil h.pos, List.append_nil, ← DumpFmt.dataField_line h hbase]
    at hbytes

theorem flatMap_slice_one (offset n : Nat) :
    ((List.range n).flatMap fun i => slice data (offset + i) 1) = slice data offset n := by
  have hdrop := flatMap_slice (data.drop offset) 1 n
  simp only [slice, List.drop_drop, Nat.mul_one] at hdrop ⊢
  exact hdrop

theorem wordSize_eq_one (hsize : f.size = 'b') : f.wordSize = 1 := by
  rw [DumpFmt.wordSize, hsize]
  rfl

theorem isData_one (hsize : f.size = 'b') : IsData f.size f.wordSize := by
  rw [wordSize_eq_one hsize, hsize]
  exact .byte

theorem stride_eq_columns (hsize : f.size = 'b') : f.stride = f.columns := by
  rw [DumpFmt.stride, wordSize_eq_one hsize, Nat.mul_one]

/-- The data columns of a line are read as its share of the data, unless cells without data are
read as well. -/
theorem dataBytes_line_eq_slice (hsize : f.size = 'b') (hbase : opt.base = 16)
    (hcolumns : 0 < f.columns) (hk : k < lineCount f data.length)
    (hclean : filler opt 1 = [] ∨ f.columns ∣ data.length) :
    dataBytes 1 (f.dataField (f.line opt data k)) = slice data (k * f.columns) f.columns := by
  have hline : dataBytes f.wordSize (f.dataField (f.line opt data k)) = _ :=
    dataBytes_line (isData_one hsize) hbase
  rw [wordSize_eq_one hsize] at hline
  rw [hline, ← flatMap_slice_one]
  apply List.flatMap_congr
  intro i hi
  rw [Nat.mul_one, cell]
  split
  · rfl
  · next houtside =>
    rcases hclean with hfiller | ⟨n, hn⟩
    · rw [hfiller, slice, List.drop_eq_nil_of_le (by omega), List.take_nil]
    · rw [lt_lineCount (by rwa [stride_eq_columns hsize]), stride_eq_columns hsize, hn,
        Nat.mul_comm, Nat.mul_lt_mul_left hcolumns] at hk
      have hmul := Nat.mul_le_mul_left f.columns (Nat.succ_le_of_lt hk)
      rw [Nat.mul_succ, Nat.mul_comm] at hmul
      rw [List.mem_range] at hi
      omega

theorem os_stateAt (n : Nat) :
    (stateAt opt f data n).os = ((List.range n).map (f.line opt data)).flatMap (· ++ ['\n']) := by
  rw [List.flatMap_map]
  rfl

theorem le_lineCount_mul (hstride : 0 < f.stride) (len : Nat) :
    len ≤ lineCount f len * f.stride := by
  rw [← not_lt, ← lt_lineCount hstride]
  exact lt_irrefl _

/-- All data columns, as they are read -/
theorem dataBytes_lines (hbase : opt.base = 16) (hsize : f.size = 'b') (hcolumns : 0 < f.columns) :
    ((List.range (lineCount f data.length)).flatMap fun k =>
      dataBytes 1 (f.dataField (f.line opt data k))) =
        data ++ (List.range (lineCount f data.length * f.columns - data.length)).flatMap
          fun _ => filler opt 1 := by
  have hstride : f.stride = f.columns := stride_eq_columns hsize
  have hle := le_lineCount_mul (by rwa [hstride]) data.length
  have hline (k : Nat) : dataBytes 1 (f.dataField (f.line opt data k)) =
      (List.range f.columns).flatMap fun i => cell opt data 1 ((k * f.columns + i) * 1) := by
    have hword : dataBytes f.wordSize (f.dataField (f.line opt data k)) = _ :=
      dataBytes_line (isData_one hsize) hbase
    rwa [wordSize_eq_one hsize] at hword
  rw [hstride] at hle
  simp only [hline]
  rw [flatMap_flatMap_range fun j => cell opt data 1 (j * 1),
    flatMap_cell Nat.one_pos (Nat.mul_one _) hle]

theorem lines_stateAt {n : Nat} (h : ∀ k < n, '\n' ∉ f.line opt data k) :
    lines (stateAt opt f data n).os = (List.range n).map (f.line opt data) := by
  rw [os_stateAt]
  apply lines_flatMap
  simpa using h

/-- What can be read back has no line breaks but its own, and shows nothing as data that is none. -/
theorem DecodesBack.clean (hbase : opt.base = 16) (hsize : f.size = 'b') (hcolumns : 0 < f.columns)
    (h : DecodesBack opt f data (stateAt opt f data (lineCount f data.length)).os) :
    (∀ k < lineCount f data.length, '\n' ∉ f.line opt data k) ∧
      (¬f.columns ∣ data.length → filler opt 1 = []) := by
  have hstride : f.stride = f.columns := stride_eq_columns hsize
  have hclean : ∀ k < lineCount f data.length, '\n' ∉ f.line opt data k := by
    have hcount := h.count
    rw [os_stateAt, ← hstride, ← lineCount] at hcount
    simpa using not_mem_of_length_lines (hcount.trans (by simp))
  refine ⟨hclean, fun hdvd => ?_⟩
  have hbytes := h.bytes
  rw [lines_stateAt hclean, List.flatMap_map, dataBytes_lines hbase hsize hcolumns,
    List.append_right_eq_self, List.flatMap_eq_nil_iff] at hbytes
  have hle := le_lineCount_mul (by rwa [hstride]) data.length
  rw [hstride] at hle
  have hrest : lineCount f data.length * f.columns - data.length ≠ 0 := by
    intro hzero
    exact hdvd ⟨lineCount f data.length, by rw [Nat.mul_comm]; omega⟩
  exact hbytes 0 (List.mem_range.2 (Nat.pos_of_ne_zero hrest))

theorem decodesBack_of_clean (hbase : opt.base = 16) (hsize : f.size = 'b')
    (hcolumns : 0 < f.columns) (hfits : ∀ k < lineCount f data.length, f.LineFits data.length k)
    (hclean : ∀ k < lineCount f data.length, '\n' ∉ f.line opt data k)
    (hfiller : filler opt 1 = [] ∨ f.columns ∣ data.length) :
    DecodesBack opt f data (stateAt opt f data (lineCount f data.length)).os := by
  have hstride : f.stride = f.columns := stride_eq_columns hsize
  have hcount : lineCount f data.length = data.length ⌈/⌉ f.columns := by rw [lineCount, hstride]
  have hlines := lines_stateAt hclean
  refine ⟨?_, ?_, ?_, ?_⟩
  · rw [hlines, List.flatMap_map, dataBytes_lines hbase hsize hcolumns, List.append_right_eq_self,
      List.flatMap_eq_nil_iff]
    intro i hi
    rcases hfiller with hfiller | ⟨n, hn⟩
    · exact hfiller
    · have hceil : f.columns * n ⌈/⌉ f.columns = n := smul_ceilDiv hcolumns n
      rw [hcount, hn, hceil, Nat.mul_comm, Nat.sub_self] at hi
      cases hi
  · rw [hlines, List.length_map, List.length_range, hcount]
  · intro offset hoffset k l hl
    rw [hlines, List.getElem?_map, Option.map_eq_some_iff] at hl
    obtain ⟨_, hk, rfl⟩ := hl
    obtain ⟨hlt, rfl⟩ := List.getElem?_eq_some_iff.1 hk
    rw [List.length_range] at hlt
    rw [List.getElem_range, DumpFmt.offsetField_line hoffset,
      signed_label ((hfits k hlt).2.1 offset hoffset), hstride]
  · intro hascii l hl
    rw [hlines] at hl
    obtain ⟨k, hk, rfl⟩ := List.mem_map.1 hl
    rw [DumpFmt.asciiField_line (isData_one hsize) hbase hascii, row_eq, hstride,
      dataBytes_line_eq_slice hsize hbase hcolumns (List.mem_range.1 hk) hfiller]

/-- A bytewise hexadecimal dump reads back as the data exactly if no variable overflows in any
line, the fill character of an incomplete line can be told from digits and line breaks, and no
line break is shown as it is. -/
theorem dump_decodesBack_iff (opt : DumpOpt) (f : DumpFmt) (data : List UInt8)
    (hbase : opt.base = 16) (hsize : f.size = 'b') (hcolumns : 0 < f.columns) :
    (∃ s, dumpFmt .lp64 opt (dataProvider data) f (2 * data.length + 1) = .stopped s ∧
        DecodesBack opt f data s.os) ↔
      (∀ k < lineCount f data.length, f.LineFits data.length k) ∧
        (¬f.columns ∣ data.length → opt.missing ≠ '\n' ∧ ¬IsDigit 16 opt.missing) ∧
        (f.ascii = true → 10 ∈ data → isPrint opt 10 = false) := by
  have hstride : f.stride = f.columns := stride_eq_columns hsize
  have hfiller : filler opt 1 = [] ↔ _ := filler_eq_nil_iff Nat.one_pos
  have hnewline : (∀ k < lineCount f data.length, '\n' ∉ f.line opt data k) ↔ _ :=
    newline_not_mem_lines (isData_one hsize) hbase hcolumns (by rwa [hstride])
  rw [hstride] at hnewline
  simp only [dumpFmt_eq_stopped_iff (isData_one hsize) hcolumns]
  constructor
  · rintro ⟨_, ⟨hfits, rfl⟩, h⟩
    obtain ⟨hclean, hempty⟩ := h.clean hbase hsize hcolumns
    obtain ⟨hmissing, hascii⟩ := hnewline.1 hclean
    exact ⟨hfits, fun hdvd => ⟨hmissing hdvd, hfiller.1 (hempty hdvd)⟩, hascii⟩
  · rintro ⟨hfits, hmissing, hascii⟩
    refine ⟨_, ⟨hfits, rfl⟩, decodesBack_of_clean hbase hsize hcolumns hfits ?_ ?_⟩
    · exact hnewline.2 ⟨fun hdvd => (hmissing hdvd).1, hascii⟩
    · by_cases hdvd : f.columns ∣ data.length
      · exact Or.inr hdvd
      · exact Or.inl (hfiller.2 (hmissing hdvd).2)

theorem dump_decodesBack_hexDump :
    ∃ s, dumpFmt .lp64 { base := 16 } (dataProvider [0xAB, 10, 0x41])
        { columns := 2, offset := some 0x100, ascii := true } 7 = .stopped s ∧
      DecodesBack { base := 16 } { columns := 2, offset := some 0x100, ascii := true }
        [0xAB, 10, 0x41] s.os :=
  (dump_decodesBack_iff { base := 16 } { columns := 2, offset := some 0x100, ascii := true }
    [0xAB, 10, 0x41] rfl rfl (by decide)).2 <| by
      refine ⟨fun k hk => ⟨nofun, ?_, ?_⟩, by decide, by decide⟩
      · rintro _ ⟨⟩
        change k < 2 at hk
        change -2 ^ 63 ≤ (256 : Int) + (k * 2 : Nat) ∧ (256 : Int) + (k * 2 : Nat) < 2 ^ 63
        omega
      · change k < 2 at hk
        change (k + 1) * 2 + min ((k + 1) * 2) 3 < 2 ^ 31
        omega

/-- `bcnt` is an `int`. -/
theorem not_dump_decodesBack_large :
    ¬∃ s, dumpFmt .lp64 { base := 16 } (dataProvider (List.replicate (2 ^ 31) 0)) { columns := 1 }
        (2 * (List.replicate (2 ^ 31) (0 : UInt8)).length + 1) = .stopped s ∧
      DecodesBack { base := 16 } { columns := 1 } (List.replicate (2 ^ 31) 0) s.os := by
  rintro ⟨s, hs, -⟩
  have hlast : 2 ^ 31 - 1 < lineCount { columns := 1 } (2 ^ 31) :=
    (lt_lineCount (by decide)).2 (by decide)
  rw [dumpFmt_eq_stopped_iff .byte (by decide), List.length_replicate] at hs
  have hfits : (2 ^ 31 - 1 + 1) * 1 + 0 < 2 ^ 31 := (hs.1 (2 ^ 31 - 1) hlast).2.2
  omega

end Bytewise

end Utlib.Dumpable
