import Utlib.Dumpable.Decoding

/-! Dumps by words and longs, and what they hide. -/

namespace Utlib.Dumpable

open Numeral Sequence

section Hidden

variable {opt : DumpOpt} {f : DumpFmt} {data data' : List UInt8} {size k : Nat}

/-- The data up to the last complete word are the same. -/
def SameWords (size : Nat) (data data' : List UInt8) : Prop :=
  data.length = data'.length ∧
    data.take (data.length / size * size) = data'.take (data'.length / size * size)

/-- A cell has a complete word or nothing. -/
theorem SameWords.cellText {c : Char} (h : IsData c size) (hsame : SameWords size data data')
    (hbase : opt.base = 16) (j : Nat) :
    cellText opt (dataProvider data) size (j * size) =
      cellText opt (dataProvider data') size (j * size) := by
  obtain ⟨hlen, htake⟩ := hsame
  rw [cellText_eq h hbase, cellText_eq h hbase, ← hlen]
  split
  · next hinside =>
    have hword : j * size + size ≤ data.length / size * size := by
      rw [← Nat.succ_mul] at hinside ⊢
      exact Nat.mul_le_mul_right size ((Nat.le_div_iff_mul_le h.pos).2 hinside)
    have hslice (xs : List UInt8) :
        slice (xs.take (data.length / size * size)) (j * size) size = slice xs (j * size) size := by
      rw [slice, slice, List.drop_take, List.take_take, Nat.min_eq_left (by omega)]
    rw [← hlen] at htake
    rw [← hslice data, ← hslice data', htake]
  · rfl

theorem SameWords.dataText (h : IsData f.size f.wordSize)
    (hsame : SameWords f.wordSize data data') (hbase : opt.base = 16) :
    f.dataText opt data k = f.dataText opt data' k := by
  have hcells (j n : Nat) : cells opt (dataProvider data) f.wordSize (j * f.wordSize) n =
      cells opt (dataProvider data') f.wordSize (j * f.wordSize) n := by
    apply List.flatMap_congr
    intro i _
    rw [← Nat.add_mul, hsame.cellText h hbase]
  have hoffset (i : Nat) : k * f.stride + f.first f.groupCount i * f.wordSize =
      (k * f.columns + f.first f.groupCount i) * f.wordSize := by
    rw [DumpFmt.stride, Nat.add_mul, Nat.mul_assoc]
  rw [DumpFmt.dataText, DumpFmt.dataText, groups, groups]
  simp only [hoffset, hcells]

theorem SameWords.stateAt (h : IsData f.size f.wordSize) (hascii : f.ascii = false)
    (hsame : SameWords f.wordSize data data') (hbase : opt.base = 16) :
    stateAt opt f data k = stateAt opt f data' k := by
  have hline (j : Nat) : f.line opt data j = f.line opt data' j := by
    rw [DumpFmt.line, DumpFmt.line, hsame.dataText h hbase, DumpFmt.asciiText, DumpFmt.asciiText,
      hascii]
    rfl
  rw [Dumpable.stateAt, Dumpable.stateAt, hsame.1]
  simp only [hline]

end Hidden

section Recovery

variable {opt : DumpOpt} {f : DumpFmt} {data : List UInt8} {n k : Nat}

/-- What stands between blanks and is no label -/
def dataColumns (text : List Char) : List (List Char) :=
  (text.splitOnP isBlank).filter fun cs => cs.getLast? ≠ some ':'

/-- The data columns determine so many bytes of data. -/
def Recoverable (opt : DumpOpt) (f : DumpFmt) (n : Nat) : Prop :=
  ∃ decode : List (List Char) → List UInt8, ∀ data : List UInt8, data.length = n →
    ∃ s, dumpFmt .lp64 opt (dataProvider data) f (2 * data.length + 1) = .stopped s ∧
      decode (dataColumns s.os) = data

theorem Recoverable.eq_of_sameWords (h : IsData f.size f.wordSize) (hbase : opt.base = 16)
    (hcolumns : 0 < f.columns) (hascii : f.ascii = false) (hn : Recoverable opt f n)
    {data data' : List UInt8} (hlen : data.length = n) (hlen' : data'.length = n)
    (hsame : SameWords f.wordSize data data') : data = data' := by
  obtain ⟨decode, hdecode⟩ := hn
  obtain ⟨s, hs, hdata⟩ := hdecode data hlen
  obtain ⟨s', hs', hdata'⟩ := hdecode data' hlen'
  obtain ⟨-, rfl⟩ := (dumpFmt_eq_stopped_iff h hcolumns s).1 hs
  obtain ⟨-, rfl⟩ := (dumpFmt_eq_stopped_iff h hcolumns s').1 hs'
  rw [← hdata, ← hdata', hsame.stateAt h hascii hbase, hlen, hlen']

/-- The last byte of an incomplete word does not show. -/
theorem Recoverable.dvd (h : IsData f.size f.wordSize) (hbase : opt.base = 16)
    (hcolumns : 0 < f.columns) (hascii : f.ascii = false) (hn : Recoverable opt f n) :
    f.wordSize ∣ n := by
  by_contra hdvd
  have hmod := Nat.div_add_mod n f.wordSize
  rw [Nat.mul_comm] at hmod
  have hpos : n % f.wordSize ≠ 0 := fun h => hdvd (Nat.dvd_of_mod_eq_zero h)
  have hlen (x : UInt8) : (List.replicate (n - 1) 0 ++ [x]).length = n := by
    rw [List.length_append, List.length_replicate, List.length_singleton]
    omega
  have hsame : SameWords f.wordSize (List.replicate (n - 1) 0 ++ [0])
      (List.replicate (n - 1) 0 ++ [1]) := by
    rw [SameWords, hlen, hlen, List.take_append_of_le_length, List.take_append_of_le_length]
    · exact ⟨rfl, rfl⟩
    · rw [List.length_replicate]
      omega
    · rw [List.length_replicate]
      omega
  have heq := hn.eq_of_sameWords h hbase hcolumns hascii (hlen 0) (hlen 1) hsame
  rw [List.append_right_inj] at heq
  cases heq

/-- Labels are no tokens. -/
theorem filter_dataColumns (size : Nat) (text : List Char) :
    (dataColumns text).filter (IsToken size ·) = tokens size text := by
  rw [dataColumns, tokens, List.filter_filter]
  apply List.filter_congr
  intro cs _
  rw [Bool.and_eq_left_iff_imp]
  intro htoken
  rw [decide_eq_true_iff] at htoken ⊢
  intro hlast
  exact absurd (htoken.2 ':' (List.mem_of_getLast? hlast)) (by decide)

theorem dataBytes_label {size : Nat} {cs : List Char} (h : ∀ c ∈ cs, isBlank c = false)
    (rest : List Char) :
    dataBytes size (cs ++ [':', ' '] ++ rest) = dataBytes size rest := by
  have hlabel : dataBytes size (cs ++ [':']) = [] := by
    refine dataBytes_eq_nil (List.mem_append_right _ List.mem_cons_self) (by decide) ?_
    intro c hc
    rcases List.mem_append.1 hc with hc | hc
    · exact h c hc
    · rw [List.eq_of_mem_singleton hc]
      rfl
  have hsplit : cs ++ [':', ' '] ++ rest = cs ++ [':'] ++ ' ' :: rest := by
    simp only [List.append_assoc, List.cons_append, List.nil_append]
  rw [hsplit, dataBytes_append _ _ (by decide), hlabel, List.nil_append]

theorem dataBytes_lineText (hascii : f.ascii = false) :
    dataBytes f.wordSize (f.line opt data k) = dataBytes f.wordSize (f.dataText opt data k) := by
  have hnr (rest : List Char) : dataBytes f.wordSize (f.nrText k ++ rest) =
      dataBytes f.wordSize rest := by
    rw [DumpFmt.nrText]
    split
    · refine dataBytes_label (fun c hc => ?_) rest
      rw [isBlank, decide_eq_false_iff_not]
      rintro (rfl | rfl)
      · exact not_mem_decimal (by decide) (by decide) _ hc
      · exact not_mem_decimal (by decide) (by decide) _ hc
    · rfl
  have hoffset (rest : List Char) : dataBytes f.wordSize (f.offsetText opt k ++ rest) =
      dataBytes f.wordSize rest := by
    rw [DumpFmt.offsetText]
    split
    · exact dataBytes_label (fun c hc => not_isBlank_of_isDigit (isDigit_of_mem_label hc)) rest
    · rfl
  rw [DumpFmt.line, DumpFmt.asciiText, hascii, List.append_assoc, List.append_assoc, hnr, hoffset]
  exact congrArg _ (List.append_nil _)

theorem dataBytes_text {size : Nat} (hsize : 0 < size) (ls : List (List Char)) :
    dataBytes size (ls.flatMap (· ++ ['\n'])) = ls.flatMap (dataBytes size) := by
  induction ls with
  | nil => exact dataBytes_nil hsize
  | cons l ls ih =>
    rw [List.flatMap_cons, List.append_assoc, List.singleton_append,
      dataBytes_append _ _ (by decide), ih, List.flatMap_cons]

/-- The tokens of a dump are the data, followed by what cells without data are read as. -/
theorem exists_dataBytes_stateAt (h : IsData f.size f.wordSize) (hbase : opt.base = 16)
    (hcolumns : 0 < f.columns) (hascii : f.ascii = false) (hdvd : f.wordSize ∣ data.length) :
    ∃ rest, dataBytes f.wordSize (stateAt opt f data (lineCount f data.length)).os =
      data ++ rest := by
  obtain ⟨words, hwords⟩ := hdvd
  rw [Nat.mul_comm] at hwords
  have hle : words ≤ lineCount f data.length * f.columns := by
    have hmul := le_lineCount_mul (Nat.mul_pos hcolumns h.pos) data.length
    rw [hwords, DumpFmt.stride, ← Nat.mul_assoc] at hmul
    rw [hwords]
    exact Nat.le_of_mul_le_mul_right hmul h.pos
  have hline (k : Nat) : dataBytes f.wordSize (f.line opt data k) =
      (List.range f.columns).flatMap fun i =>
        cell opt data f.wordSize ((k * f.columns + i) * f.wordSize) := by
    rw [dataBytes_lineText hascii, ← DumpFmt.dataField_line h hbase, dataBytes_line h hbase]
  rw [os_stateAt, dataBytes_text h.pos, List.flatMap_map]
  simp only [hline]
  rw [flatMap_flatMap_range fun j => cell opt data f.wordSize (j * f.wordSize),
    flatMap_cell h.pos hwords.symm hle]
  exact ⟨_, rfl⟩

/-- The bytes of so many data -/
def decodeWords (size n : Nat) (columns : List (List Char)) : List UInt8 :=
  ((columns.filter (IsToken size ·)).flatMap octets).take n

theorem recoverable_of_dvd (h : IsData f.size f.wordSize) (hbase : opt.base = 16)
    (hcolumns : 0 < f.columns) (hascii : f.ascii = false) (hdvd : f.wordSize ∣ n)
    (hfits : ∀ k < lineCount f n, f.LineFits n k) : Recoverable opt f n := by
  refine ⟨decodeWords f.wordSize n, ?_⟩
  rintro data rfl
  obtain ⟨rest, hrest⟩ : ∃ rest, dataBytes _ (stateAt opt f data _).os = data ++ rest :=
    exists_dataBytes_stateAt h hbase hcolumns hascii hdvd
  refine ⟨_, (dumpFmt_eq_stopped_iff h hcolumns _).2 ⟨hfits, rfl⟩, ?_⟩
  rw [decodeWords, filter_dataColumns, ← dataBytes, hrest, List.take_left]

theorem isData_of_size (hsize : f.size = 'w' ∨ f.size = 'l') : IsData f.size f.wordSize := by
  rw [DumpFmt.wordSize]
  rcases hsize with hsize | hsize <;> rw [hsize]
  · exact .word
  · exact .long

/-- A dump by words or longs shows all data exactly if they are complete words, and no variable
overflows in any line. -/
theorem recoverable_iff (opt : DumpOpt) (f : DumpFmt) (n : Nat) (hbase : opt.base = 16)
    (hsize : f.size = 'w' ∨ f.size = 'l') (hcolumns : 0 < f.columns) (hascii : f.ascii = false) :
    Recoverable opt f n ↔ f.wordSize ∣ n ∧ ∀ k < lineCount f n, f.LineFits n k := by
  have h := isData_of_size hsize
  constructor
  · intro hn
    refine ⟨hn.dvd h hbase hcolumns hascii, ?_⟩
    obtain ⟨decode, hdecode⟩ := hn
    obtain ⟨s, hs, -⟩ := hdecode (List.replicate n 0) List.length_replicate
    rw [dumpFmt_eq_stopped_iff h hcolumns, List.length_replicate] at hs
    exact hs.1
  · rintro ⟨hdvd, hfits⟩
    exact recoverable_of_dvd h hbase hcolumns hascii hdvd hfits

theorem recoverable_two_words : Recoverable { base := 16 } { size := 'w', columns := 1 } 4 :=
  (recoverable_iff { base := 16 } { size := 'w', columns := 1 } 4 rfl (by decide) (by decide)
    rfl).2 <| by
      refine ⟨by decide, fun k hk => ⟨nofun, nofun, ?_⟩⟩
      change k < 2 at hk
      change (k + 1) * 2 + 0 < 2 ^ 31
      omega

/-- A single byte shows as no word. -/
theorem not_recoverable_one_byte : ¬Recoverable { base := 16 } { size := 'w', columns := 1 } 1 := by
  intro h
  exact absurd (h.dvd .word rfl (by decide) rfl) (by decide)

end Recovery

end Utlib.Dumpable
