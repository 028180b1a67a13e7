import Utlib.Dumpable.Lines

/-! Reading the columns of a hexadecimal dump back. -/

namespace Utlib.Dumpable

open Sequence (slice)

section Reading

/-- The lines of a text that ends with a line break -/
def lines (text : List Char) : List (List Char) := (text.splitOn '\n').dropLast

def isBlank (c : Char) : Bool := c = ' ' ∨ c = '\n'

def IsToken (size : Nat) (cs : List Char) : Prop :=
  cs.length = 2 * size ∧ ∀ c ∈ cs, Numeral.IsDigit 16 c

instance (size : Nat) (cs : List Char) : Decidable (IsToken size cs) :=
  inferInstanceAs (Decidable (_ ∧ _))

/-- What stands between blanks and is made of as many hexadecimal digits as so many bytes have. -/
def tokens (size : Nat) (cs : List Char) : List (List Char) :=
  (cs.splitOnP isBlank).filter (IsToken size ·)

def octets : List Char → List UInt8
  | c :: d :: cs => UInt8.ofNat (Numeral.value 16 [c, d]) :: octets cs
  | _ => []

def dataBytes (size : Nat) (cs : List Char) : List UInt8 := (tokens size cs).flatMap octets

end Reading

section Tokens

variable {size : Nat}

theorem dataBytes_append (xs ys : List Char) {c : Char} (hc : isBlank c) :
    dataBytes size (xs ++ c :: ys) = dataBytes size xs ++ dataBytes size ys := by
  rw [dataBytes, tokens, List.splitOnP_append_cons _ _ hc, List.filter_append,
    List.flatMap_append]
  rfl

theorem dataBytes_of_not_blank {cs : List Char} (h : ∀ c ∈ cs, isBlank c = false) :
    dataBytes size cs = if IsToken size cs then octets cs else [] := by
  rw [dataBytes, tokens, List.splitOnP_eq_singleton h, List.filter_singleton]
  by_cases htoken : IsToken size cs <;> simp [htoken]

theorem not_isBlank_of_isDigit {c : Char} (h : Numeral.IsDigit 16 c) : isBlank c = false := by
  rw [isBlank, decide_eq_false_iff_not]
  rintro (rfl | rfl)
  · exact absurd h (by decide)
  · exact absurd h (by decide)

/-- Only tokens contribute. -/
theorem dataBytes_eq_nil {cs : List Char} {c : Char} (hmem : c ∈ cs)
    (hdigit : ¬Numeral.IsDigit 16 c) (h : ∀ c ∈ cs, isBlank c = false) :
    dataBytes size cs = [] := by
  rw [dataBytes_of_not_blank h, if_neg]
  rintro ⟨-, hdigits⟩
  exact hdigit (hdigits c hmem)

theorem dataBytes_nil (hsize : 0 < size) : dataBytes size [] = [] := by
  rw [dataBytes_of_not_blank (by simp), if_neg]
  rintro ⟨hlen, -⟩
  rw [List.length_nil] at hlen
  omega

theorem dataBytes_blank_append (hsize : 0 < size) {c : Char} (hc : isBlank c) (cs : List Char) :
    dataBytes size (c :: cs) = dataBytes size cs := by
  rw [← List.nil_append (c :: cs), dataBytes_append _ _ hc, dataBytes_nil hsize, List.nil_append]

end Tokens

section Cells

open Numeral

variable {opt : DumpOpt} {data : List UInt8} {size : Nat}

/-- The case of the hexadecimal digits -/
def shade (opt : DumpOpt) (c : Char) : Char := if opt.uppercase then c.toUpper else c

theorem digitValue_shade {k : Nat} (hk : k < 16) :
    digitValue (shade opt (Nat.digitChar k)) = some k := by
  rw [shade]
  split
  · exact digitValue_toUpper_digitChar hk
  · exact digitValue_digitChar hk

theorem isDigit_of_mem_shade {w n : Nat} {c : Char} (hc : c ∈ (places 16 w n).map (shade opt)) :
    IsDigit 16 c := by
  obtain ⟨d, hd, rfl⟩ := List.mem_map.1 hc
  obtain ⟨k, hk, rfl⟩ := exists_of_mem_places (by decide) hd
  exact ⟨k, digitValue_shade hk, hk⟩

theorem ofBytes_cons (x : UInt8) (xs : List UInt8) :
    ofBytes (x :: xs) = x.toNat * 2 ^ (8 * xs.length) + ofBytes xs := by
  induction xs using List.reverseRecOn with
  | nil =>
    rw [List.length_nil, Nat.mul_zero, pow_zero, Nat.mul_one]
    exact Nat.add_comm _ _
  | append_singleton xs y ih =>
    rw [← List.cons_append, ofBytes_concat, ofBytes_concat, ih, List.length_append,
      List.length_singleton]
    ring

/-- The digits of a number that is made up of bytes are the digits of these bytes. -/
theorem octets_places (xs : List UInt8) :
    octets ((places 16 (2 * xs.length) (ofBytes xs)).map (shade opt)) = xs := by
  induction xs with
  | nil => rfl
  | cons x xs ih =>
    have hrest := ofBytes_lt xs
    have hpow : 16 ^ (2 * xs.length) = 2 ^ (8 * xs.length) := by
      rw [pow_mul, pow_mul]
      norm_num
    have hdiv : ofBytes (x :: xs) / 16 ^ (2 * xs.length) = x.toNat := by
      rw [ofBytes_cons, hpow, Nat.mul_comm, Nat.mul_add_div (by positivity),
        Nat.div_eq_of_lt hrest, Nat.add_zero]
    have hmod : ofBytes (x :: xs) % 16 ^ (2 * xs.length) = ofBytes xs := by
      rw [ofBytes_cons, hpow, Nat.mul_comm, Nat.mul_add_mod, Nat.mod_eq_of_lt hrest]
    have hvalue := value_map_places (b := 16) (w := 2) (f := shade opt)
      (fun k hk => digitValue_shade hk) (by decide) x.toNat
    have hlt := x.toNat_lt
    rw [Nat.mod_eq_of_lt (by omega)] at hvalue
    rw [List.length_cons, Nat.mul_add, Nat.add_comm, Nat.mul_one, places_add, hdiv,
      ← places_mod (ofBytes (x :: xs)), hmod, List.map_append]
    change UInt8.ofNat (value 16 ((places 16 2 x.toNat).map (shade opt))) ::
      octets ((places 16 (2 * xs.length) (ofBytes xs)).map (shade opt)) = x :: xs
    rw [hvalue, ih, UInt8.ofNat_toNat]

theorem shade_zero : shade opt '0' = '0' := by
  rw [shade]
  split <;> rfl

theorem leftpad_numeral {n w : Nat} (hn : n < 16 ^ (w + 1)) (hw : w < 16) :
    ((numeral 16 n).map (shade opt)).leftpad (w + 1) '0' =
      (places 16 (w + 1) n).map (shade opt) := by
  have hpow : 16 ^ (w + 1) ≤ 16 ^ 16 := Nat.pow_le_pow_right (by decide) hw
  have hmod : ((n : Int) % 2 ^ 64).toNat = n := by omega
  rw [← leftpad_toDigits (by decide) hn, numeral, hmod, List.leftpad, List.leftpad,
    List.map_append, List.map_replicate, shade_zero, List.length_map]

theorem cellText_eq {c : Char} (h : IsData c size) (hbase : opt.base = 16) (offset : Nat) :
    cellText opt (dataProvider data) size offset =
      if offset + size ≤ data.length then
        (places 16 (2 * size) (ofBytes (slice data offset size))).map (shade opt)
      else List.replicate (2 * size) opt.missing := by
  have hwidth : 0 < size ∧ size < 8 ∧ defaultWidth 16 size = 2 * size := by cases h <;> decide
  obtain ⟨hpos, hlt, hwidth⟩ := hwidth
  simp only [cellText, out, dataProvider_eq data offset hpos hlt, ne_eq, not_true_eq_false,
    if_false, if_true, hbase, hwidth]
  by_cases hinside : offset + size ≤ data.length
  · have hbound := ofBytes_lt (slice data offset size)
    have hlen : (slice data offset size).length = size := by
      rw [Sequence.length_slice]
      omega
    have hpow : (2 : Nat) ^ (8 * size) = 16 ^ (2 * size - 1 + 1) := by
      rw [Nat.sub_add_cancel (by omega), pow_mul, pow_mul]
      norm_num
    rw [hlen, hpow] at hbound
    have hpad : ((numeral 16 _).map (shade opt)).leftpad _ '0' = _ :=
      leftpad_numeral hbound (by omega)
    rw [Nat.sub_add_cancel (by omega)] at hpad
    rw [if_pos hinside, if_pos hinside]
    exact hpad
  · rw [if_neg hinside, if_neg hinside]

/-- What a cell without data is read as -/
def filler (opt : DumpOpt) (size : Nat) : List UInt8 :=
  dataBytes size (List.replicate (2 * size) opt.missing)

theorem dataBytes_replicate_blank (hsize : 0 < size) {c : Char} (hc : isBlank c) (n : Nat) :
    dataBytes size (List.replicate n c) = [] := by
  induction n with
  | zero => exact dataBytes_nil hsize
  | succ n ih => rw [List.replicate_succ, dataBytes_blank_append hsize hc, ih]

theorem filler_eq_nil_iff (hsize : 0 < size) :
    filler opt size = [] ↔ ¬IsDigit 16 opt.missing := by
  rw [filler]
  by_cases hblank : isBlank opt.missing
  · rw [dataBytes_replicate_blank hsize hblank]
    refine iff_of_true rfl fun hdigit => ?_
    rw [not_isBlank_of_isDigit hdigit] at hblank
    cases hblank
  · have hchars : ∀ c ∈ List.replicate (2 * size) opt.missing, isBlank c = false := by
      intro c hc
      rw [List.eq_of_mem_replicate hc]
      exact Bool.eq_false_iff.2 hblank
    obtain ⟨n, rfl⟩ := Nat.exists_eq_add_one.2 hsize
    rw [dataBytes_of_not_blank hchars, Nat.mul_succ, List.replicate_succ, List.replicate_succ]
    by_cases hdigit : IsDigit 16 opt.missing
    · rw [if_pos]
      · simp [octets, hdigit]
      · refine ⟨?_, ?_⟩
        · rw [List.length_cons, List.length_cons, List.length_replicate, Nat.mul_succ]
        · simp [hdigit]
    · rw [if_neg]
      · simp [hdigit]
      · rintro ⟨-, hdigits⟩
        exact hdigit (hdigits _ (by simp))

theorem dataBytes_cellText {c : Char} (h : IsData c size) (hbase : opt.base = 16) (offset : Nat) :
    dataBytes size (cellText opt (dataProvider data) size offset) =
      if offset + size ≤ data.length then slice data offset size else filler opt size := by
  rw [cellText_eq h hbase]
  split
  · next hinside =>
    have hlen : (slice data offset size).length = size := by
      rw [Sequence.length_slice]
      omega
    have hdigits : ∀ c ∈ (places 16 (2 * size) (ofBytes (slice data offset size))).map (shade opt),
        IsDigit 16 c := fun c hc => isDigit_of_mem_shade hc
    have hoctets : octets (List.map (shade opt) _) = _ := octets_places (slice data offset size)
    rw [hlen] at hoctets
    rw [dataBytes_of_not_blank fun c hc => not_isBlank_of_isDigit (hdigits c hc), if_pos, hoctets]
    exact ⟨by simp, hdigits⟩
  · rfl

end Cells

section Bytes

variable {opt : DumpOpt} {f : DumpFmt} {data : List UInt8} {size : Nat}

/-- What the data column at this offset is read as -/
def cell (opt : DumpOpt) (data : List UInt8) (size offset : Nat) : List UInt8 :=
  if offset + size ≤ data.length then slice data offset size else filler opt size

theorem IsData.pos {c : Char} (h : IsData c size) : 0 < size := by
  cases h <;> decide

theorem dataBytes_cells {c : Char} (h : IsData c size) (hbase : opt.base = 16)
    (offset n : Nat) (rest : List Char) :
    dataBytes size (cells opt (dataProvider data) size offset n ++ rest) =
      ((List.range n).flatMap fun i => cell opt data size (offset + i * size)) ++
        dataBytes size rest := by
  induction n generalizing offset with
  | zero => rfl
  | succ n ih =>
    have hshift : ((List.range n).flatMap fun i => cell opt data size (offset + size + i * size)) =
        (List.range n).flatMap fun i => cell opt data size (offset + (i + 1) * size) := by
      congr 1
      funext i
      rw [Nat.succ_mul, Nat.add_assoc, Nat.add_comm size]
    rw [cells_succ, List.append_assoc, List.append_assoc, List.singleton_append,
      dataBytes_append _ _ (by decide), ih, dataBytes_cellText h hbase, List.range_succ_eq_map,
      List.flatMap_cons, List.flatMap_map, Nat.zero_mul, Nat.add_zero, hshift, cell,
      List.append_assoc]

theorem groups_succ {reader : DataProvider} (offset n : Nat) :
    groups opt reader f size offset (n + 1) =
      groups opt reader f size offset n ++
        (cells opt reader size (offset + f.first f.groupCount n * size) (f.count f.groupCount n) ++
          if n + 1 < f.groupCount then [' '] else []) := by
  rw [groups, List.range_succ, List.flatMap_append, List.flatMap_singleton]
  rfl

theorem dataBytes_groups {c : Char} (h : IsData c size) (hbase : opt.base = 16)
    (offset n : Nat) (rest : List Char) :
    dataBytes size (groups opt (dataProvider data) f size offset n ++ rest) =
      ((List.range (f.first f.groupCount n)).flatMap fun i =>
        cell opt data size (offset + i * size)) ++ dataBytes size rest := by
  induction n generalizing rest with
  | zero =>
    rw [DumpFmt.first, Nat.zero_mul, Nat.zero_min]
    rfl
  | succ n ih =>
    have hblank : dataBytes size ((if n + 1 < f.groupCount then [' '] else []) ++ rest) =
        dataBytes size rest := by
      split
      · exact dataBytes_blank_append h.pos (by decide) rest
      · rfl
    have hshift : ((List.range (f.count f.groupCount n)).flatMap fun i =>
          cell opt data size (offset + f.first f.groupCount n * size + i * size)) =
        (List.range (f.count f.groupCount n)).flatMap fun i =>
          cell opt data size (offset + (f.first f.groupCount n + i) * size) := by
      congr 1
      funext i
      rw [Nat.add_mul, Nat.add_assoc]
    rw [groups_succ, List.append_assoc, List.append_assoc, ih, dataBytes_cells h hbase, hblank,
      hshift, f.first_succ, List.range_add, List.flatMap_append, List.flatMap_map, List.append_assoc]

theorem dataBytes_dataText (h : IsData f.size f.wordSize) (hbase : opt.base = 16) (k : Nat)
    (rest : List Char) :
    dataBytes f.wordSize (f.dataText opt data k ++ rest) =
      ((List.range f.columns).flatMap fun i =>
        cell opt data f.wordSize ((k * f.columns + i) * f.wordSize)) ++
          dataBytes f.wordSize rest := by
  have hshift : (fun i => cell opt data f.wordSize (k * f.stride + i * f.wordSize)) =
      fun i => cell opt data f.wordSize ((k * f.columns + i) * f.wordSize) := by
    funext i
    rw [DumpFmt.stride, Nat.add_mul, Nat.mul_assoc]
  rw [DumpFmt.dataText, List.append_assoc, dataBytes_groups h hbase, f.first_groupCount,
    List.singleton_append, dataBytes_blank_append h.pos (by decide), hshift]

theorem flatMap_slice (xs : List UInt8) (size n : Nat) :
    ((List.range n).flatMap fun i => slice xs (i * size) size) = xs.take (n * size) := by
  induction n with
  | zero => rw [Nat.zero_mul, List.take_zero]; rfl
  | succ n ih =>
    rw [List.range_succ, List.flatMap_append, List.flatMap_singleton, ih, Nat.succ_mul,
      List.take_add]
    rfl

theorem flatMap_flatMap_range {α : Type} (g : Nat → List α) (n l : Nat) :
    ((List.range l).flatMap fun k => (List.range n).flatMap fun i => g (k * n + i)) =
      (List.range (l * n)).flatMap g := by
  induction l with
  | zero => rw [Nat.zero_mul]; rfl
  | succ l ih =>
    rw [List.range_succ, List.flatMap_append, List.flatMap_singleton, ih, Nat.succ_mul,
      List.range_add, List.flatMap_append, List.flatMap_map]

/-- The data, and behind them what the remaining cells are read as. -/
theorem flatMap_cell {words n : Nat} (hsize : 0 < size) (hwords : words * size = data.length)
    (hle : words ≤ n) :
    ((List.range n).flatMap fun i => cell opt data size (i * size)) =
      data ++ (List.range (n - words)).flatMap fun _ => filler opt size := by
  have hinside : ((List.range words).flatMap fun i => cell opt data size (i * size)) = data := by
    have hslice : ∀ i ∈ List.range words,
        cell opt data size (i * size) = slice data (i * size) size := by
      intro i hi
      have hmul := Nat.mul_le_mul_right size (Nat.succ_le_of_lt (List.mem_range.1 hi))
      rw [Nat.succ_mul] at hmul
      rw [cell, if_pos (by omega)]
    rw [List.flatMap_congr hslice, flatMap_slice, hwords, List.take_length]
  have houtside : (fun i => cell opt data size ((words + i) * size)) =
      fun _ => filler opt size := by
    funext i
    rw [cell, if_neg]
    rw [Nat.add_mul]
    omega
  obtain ⟨rest, rfl⟩ := Nat.exists_eq_add_of_le hle
  rw [List.range_add, List.flatMap_append, List.flatMap_map, hinside, houtside,
    Nat.add_sub_cancel_left]

end Bytes

section Labels

open Numeral

variable {opt : DumpOpt}

theorem isDigit_of_mem_toDigits {b : Nat} (hb : 1 < b) (hb' : b ≤ 16) {n : Nat} {c : Char}
    (hc : c ∈ Nat.toDigits b n) : IsDigit b c := by
  obtain ⟨w, hw, -⟩ := toDigits_eq_places hb n
  rw [hw] at hc
  exact isDigit_of_mem_places (by omega) hb' hc

theorem not_mem_decimal {c : Char} (hdigit : ¬IsDigit 10 c) (hsign : c ≠ '-') (value : Int) :
    c ∉ decimal value := by
  intro hc
  rw [decimal] at hc
  split at hc
  · rcases List.mem_cons.1 hc with rfl | hc
    · exact hsign rfl
    · exact hdigit (isDigit_of_mem_toDigits (by decide) (by decide) hc)
  · exact hdigit (isDigit_of_mem_toDigits (by decide) (by decide) hc)

theorem label_eq (opt : DumpOpt) (offset : Int) :
    ∃ k w, label opt offset = List.replicate k '0' ++
      (places 16 w (offset % 2 ^ 64).toNat).map (shade opt) ∧
        (offset % 2 ^ 64).toNat < 16 ^ w := by
  obtain ⟨w, hw, hlt⟩ := toDigits_eq_places (b := 16) (by decide) (offset % 2 ^ 64).toNat
  have hlabel : label opt offset =
      ((Nat.toDigits 16 (offset % 2 ^ 64).toNat).map (shade opt)).leftpad 8 '0' := rfl
  exact ⟨_, w, by rw [hlabel, List.leftpad, hw], hlt⟩

theorem isDigit_of_mem_label {offset : Int} {c : Char} (hc : c ∈ label opt offset) :
    IsDigit 16 c := by
  obtain ⟨k, w, hlabel, -⟩ := label_eq opt offset
  rw [hlabel, List.mem_append] at hc
  rcases hc with hc | hc
  · rw [List.eq_of_mem_replicate hc]
    decide
  · exact isDigit_of_mem_shade hc

/-- The signed value of a numeral of 64 bits -/
def signed (n : Nat) : Int := if n < 2 ^ 63 then n else n - 2 ^ 64

theorem signed_label {offset : Int} (h : FitsISize offset) :
    signed (value 16 (label opt offset)) = offset := by
  obtain ⟨k, w, hlabel, hlt⟩ := label_eq opt offset
  rw [hlabel, value_replicate_append, value_map_places (fun k hk => digitValue_shade hk)
    (by decide), Nat.mod_eq_of_lt hlt, signed]
  rw [FitsISize] at h
  split <;> omega

end Labels

end Utlib.Dumpable

namespace Utlib.DumpFmt

open Dumpable

variable {opt : DumpOpt} {f : DumpFmt} {data : List UInt8} {k : Nat}

/-- What stands behind the first label -/
def afterLabel (cs : List Char) : List Char := (cs.dropWhile (· ≠ ':')).drop 2

def afterNr (f : DumpFmt) (cs : List Char) : List Char :=
  if f.nr.isSome then afterLabel cs else cs

def afterLabels (f : DumpFmt) (cs : List Char) : List Char :=
  if f.offset.isSome then afterLabel (f.afterNr cs) else f.afterNr cs

def offsetField (f : DumpFmt) (cs : List Char) : List Char :=
  (f.afterNr cs).takeWhile (· ≠ ':')

def dataWidth (f : DumpFmt) : Nat := f.columns * (2 * f.wordSize + 1) + f.groupCount

def dataField (f : DumpFmt) (cs : List Char) : List Char := (f.afterLabels cs).take f.dataWidth

def asciiField (f : DumpFmt) (cs : List Char) : List Char :=
  ((f.afterLabels cs).drop (f.dataWidth + 1)).take f.stride

theorem takeWhile_label {cs : List Char} (h : ':' ∉ cs) (rest : List Char) :
    (cs ++ ':' :: rest).takeWhile (· ≠ ':') = cs := by
  have hall : ∀ c ∈ cs, decide (c ≠ ':') = true := by
    intro c hc
    rw [decide_eq_true_iff]
    rintro rfl
    exact h hc
  rw [List.takeWhile_append_of_pos hall, List.takeWhile_cons_of_neg (by decide), List.append_nil]

theorem afterLabel_append {cs : List Char} (h : ':' ∉ cs) (rest : List Char) :
    afterLabel (cs ++ ([':', ' '] ++ rest)) = rest := by
  have hall : ∀ c ∈ cs, decide (c ≠ ':') = true := by
    intro c hc
    rw [decide_eq_true_iff]
    rintro rfl
    exact h hc
  rw [afterLabel, List.dropWhile_append_of_pos hall]
  rfl

theorem afterNr_line :
    f.afterNr (f.line opt data k) =
      f.offsetText opt k ++ (f.dataText opt data k ++ f.asciiText opt data k) := by
  rw [afterNr, line, nrText, List.append_assoc, List.append_assoc]
  cases f.nr with
  | none => rfl
  | some nr =>
    have hcolon : ':' ∉ decimal (nr.toInt + k) := not_mem_decimal (by decide) (by decide) _
    rw [if_pos Option.isSome_some]
    simp only [List.append_assoc]
    exact afterLabel_append hcolon _

theorem colon_not_mem_label (offset : Int) : ':' ∉ label opt offset :=
  fun hc => absurd (isDigit_of_mem_label hc) (by decide)

theorem afterLabels_line :
    f.afterLabels (f.line opt data k) = f.dataText opt data k ++ f.asciiText opt data k := by
  rw [afterLabels, afterNr_line, offsetText]
  cases f.offset with
  | none => rfl
  | some offset =>
    rw [if_pos Option.isSome_some]
    simp only [List.append_assoc]
    exact afterLabel_append (colon_not_mem_label _) _

theorem offsetField_line {offset : Int64} (h : f.offset = some offset) :
    f.offsetField (f.line opt data k) =
      label opt (offset.toInt + (k * f.stride : Nat)) := by
  rw [offsetField, afterNr_line, offsetText, h]
  simp only [List.append_assoc]
  exact takeWhile_label (colon_not_mem_label _) _

theorem length_cells {c : Char} {size : Nat} (h : IsData c size) (hbase : opt.base = 16)
    (offset n : Nat) :
    (cells opt (dataProvider data) size offset n).length = n * (2 * size + 1) := by
  induction n generalizing offset with
  | zero => rw [Nat.zero_mul]; rfl
  | succ n ih =>
    have hcell : (cellText opt (dataProvider data) size offset).length = 2 * size := by
      rw [cellText_eq h hbase]
      split
      · rw [List.length_map, Numeral.length_places]
      · rw [List.length_replicate]
    rw [cells_succ, List.length_append, List.length_append, hcell, ih, List.length_singleton,
      Nat.add_comm, ← Nat.succ_mul]

theorem length_groups {c : Char} {size : Nat} (h : IsData c size) (hbase : opt.base = 16)
    (offset n : Nat) :
    (Dumpable.groups opt (dataProvider data) f size offset n).length =
      f.first f.groupCount n * (2 * size + 1) + min n (f.groupCount - 1) := by
  induction n with
  | zero =>
    rw [first, Nat.zero_mul, Nat.zero_min, Nat.zero_min, Nat.zero_mul]
    rfl
  | succ n ih =>
    have hblank : (if n + 1 < f.groupCount then [' '] else []).length =
        if n + 1 < f.groupCount then 1 else 0 := by
      split <;> rfl
    rw [groups_succ, List.length_append, ih, List.length_append, length_cells h hbase, hblank,
      first_succ, Nat.add_mul]
    split <;> omega

theorem length_dataText (h : IsData f.size f.wordSize) (hbase : opt.base = 16) :
    (f.dataText opt data k).length = f.dataWidth := by
  have hpos := f.groupCount_pos
  rw [dataText, List.length_append, length_groups h hbase, first_groupCount,
    List.length_singleton, dataWidth]
  omega

theorem dataField_line (h : IsData f.size f.wordSize) (hbase : opt.base = 16) :
    f.dataField (f.line opt data k) = f.dataText opt data k := by
  rw [dataField, afterLabels_line, ← length_dataText h hbase, List.take_left]

theorem length_row (offset n : Nat) : (row opt data offset n).length = n := by
  rw [row, List.length_map, List.length_range]

theorem asciiField_line (h : IsData f.size f.wordSize) (hbase : opt.base = 16)
    (hascii : f.ascii = true) :
    f.asciiField (f.line opt data k) = row opt data (k * f.stride) f.stride := by
  have hwidth : (f.dataText opt data k).length = f.dataWidth := length_dataText h hbase
  rw [asciiField, afterLabels_line, ← hwidth, ← List.drop_drop, List.drop_left, asciiText,
    if_pos hascii]
  exact List.take_left' (length_row _ _)

end Utlib.DumpFmt
