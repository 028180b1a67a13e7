import Mathlib.Algebra.Order.Floor.Div
import Utlib.Dumpable.Passes
import Utlib.Numeral

/-! What `dump` writes for a `DumpFmt`: line by line, and as long as its counters last. -/

namespace Utlib

namespace Dumpable

section Gives

variable (opt : DumpOpt) (reader : DataProvider) (nrStart offsetStart : Int)

/-- From `s` the characters lead to `t` if `p` holds, and fail otherwise. -/
def Gives (cs : List Char) (s : State) (p : Prop) (t : State) : Prop :=
  ∀ u, scan .lp64 opt reader nrStart offsetStart cs s = .ok u ↔ p ∧ u = t

/-- Between two directives -/
def between (bcnt ccnt lcnt : Nat) (os : List Char) : State where
  bcnt := bcnt
  ccnt := ccnt
  lcnt := lcnt
  os := os

def FitsInt (n : Nat) : Prop := n < 2 ^ 31

def FitsISize (n : Int) : Prop := -2 ^ 63 ≤ n ∧ n < 2 ^ 63

variable {opt reader nrStart offsetStart} {cs ds : List Char} {s t u : State} {p q : Prop}
  {bcnt ccnt lcnt : Nat} {os : List Char}

theorem lp64_int_iff (n : Nat) : Widths.lp64.int n = true ↔ FitsInt n := by
  rw [Widths.lp64, decide_eq_true_iff, FitsInt]
  omega

theorem lp64_isize_iff (n : Int) : Widths.lp64.isize n = true ↔ FitsISize n := by
  rw [Widths.lp64, decide_eq_true_iff, FitsISize]

theorem Gives.nil (s : State) : Gives opt reader nrStart offsetStart [] s True s := by
  intro u
  rw [true_and]
  exact ⟨fun h => by cases h; rfl, fun h => by rw [h]; rfl⟩

theorem Gives.append (h : Gives opt reader nrStart offsetStart cs s p t)
    (h' : p → Gives opt reader nrStart offsetStart ds t q u) :
    Gives opt reader nrStart offsetStart (cs ++ ds) s (p ∧ q) u := by
  intro v
  rw [scan_append_eq_ok]
  constructor
  · rintro ⟨t', ht', hv⟩
    obtain ⟨hp, rfl⟩ := (h t').1 ht'
    obtain ⟨hq, rfl⟩ := (h' hp v).1 hv
    exact ⟨⟨hp, hq⟩, rfl⟩
  · rintro ⟨⟨hp, hq⟩, rfl⟩
    exact ⟨t, (h t).2 ⟨hp, rfl⟩, (h' hp v).2 ⟨hq, rfl⟩⟩

theorem Gives.congr (h : Gives opt reader nrStart offsetStart cs s p t) (hq : q ↔ p)
    (hu : p → u = t) : Gives opt reader nrStart offsetStart cs s q u := by
  intro v
  rw [h v, hq]
  exact and_congr_right fun hp => by rw [hu hp]

theorem gives_text {c : Char} (hpercent : c ≠ '%') (hnewline : c ≠ '\n') :
    Gives opt reader nrStart offsetStart [c] (between bcnt ccnt lcnt os) True
      (between bcnt ccnt lcnt (os ++ [c])) := by
  intro u
  have hstep : step .lp64 opt reader nrStart offsetStart (between bcnt ccnt lcnt os) c =
      .ok (between bcnt ccnt lcnt (os ++ [c])) := by
    rw [step, if_pos (by simp [between]), if_neg hpercent, if_neg hnewline]
    rfl
  rw [scan, List.foldlM_cons, hstep, true_and]
  exact ⟨fun h => by cases h; rfl, fun h => by rw [h]; rfl⟩

theorem gives_newline :
    Gives opt reader nrStart offsetStart ['\n'] (between bcnt ccnt lcnt os) (FitsInt (lcnt + 1))
      (between bcnt ccnt (lcnt + 1) (os ++ ['\n'])) := by
  intro u
  have hstep : step .lp64 opt reader nrStart offsetStart (between bcnt ccnt lcnt os) '\n' =
      (do
        let lcnt ← counted Widths.lp64.int (lcnt + 1)
        return between bcnt ccnt lcnt (os ++ ['\n'])) := by
    rw [step, if_pos (by simp [between]), if_neg (by decide), if_pos rfl]
    rfl
  rw [scan_cons_eq_ok, hstep]
  simp only [bind_eq_ok, counted_eq_ok, lp64_int_iff]
  constructor
  · rintro ⟨t, ⟨_, ⟨hfits, rfl⟩, ht⟩, hu⟩
    cases ht
    cases hu
    exact ⟨hfits, rfl⟩
  · rintro ⟨hfits, rfl⟩
    exact ⟨_, ⟨_, ⟨hfits, rfl⟩, rfl⟩, rfl⟩

/-- A directive without a width -/
theorem gives_directive {c : Char} (hdigit : ¬('0' ≤ c ∧ c ≤ '9'))
    (h : ∀ u, directive .lp64 opt reader nrStart offsetStart c
      { between bcnt ccnt lcnt os with ctrl := true } = .ok u ↔ p ∧ u = { t with ctrl := true })
    (ht : t.ctrl = false) :
    Gives opt reader nrStart offsetStart ['%', c] (between bcnt ccnt lcnt os) p t := by
  intro u
  have hpercent : step .lp64 opt reader nrStart offsetStart (between bcnt ccnt lcnt os) '%' =
      .ok { between bcnt ccnt lcnt os with ctrl := true } := by
    rw [step, if_pos (by simp [between]), if_pos rfl]
    rfl
  have hstep : step .lp64 opt reader nrStart offsetStart
      { between bcnt ccnt lcnt os with ctrl := true } c =
      (do
        let t ← directive .lp64 opt reader nrStart offsetStart c
          { between bcnt ccnt lcnt os with ctrl := true }
        return { t with ctrl := false }) := by
    rw [step, if_neg (by simp), if_neg hdigit]
  rw [scan_cons_eq_ok]
  simp only [hpercent, Except.ok.injEq, exists_eq_left', scan_cons_eq_ok, hstep, bind_eq_ok, h]
  constructor
  · rintro ⟨v, ⟨_, ⟨hp, rfl⟩, hv⟩, hu⟩
    cases hv
    cases hu
    exact ⟨hp, by rw [← ht]⟩
  · rintro ⟨hp, rfl⟩
    exact ⟨_, ⟨_, ⟨hp, rfl⟩, rfl⟩, by rw [← ht]; rfl⟩

theorem leftpad_zero (c : Char) (cs : List Char) : cs.leftpad 0 c = cs := by
  rw [List.leftpad, Nat.zero_sub, List.replicate_zero, List.nil_append]

theorem gives_nr :
    Gives opt reader nrStart offsetStart ['%', 'n'] (between bcnt ccnt lcnt os)
      (FitsISize (nrStart + lcnt))
      (between bcnt ccnt lcnt (os ++ decimal (nrStart + lcnt))) := by
  refine gives_directive (by decide) (fun u => ?_) rfl
  rw [directive, bind_eq_ok]
  simp only [checked_eq_ok, lp64_isize_iff, between, leftpad_zero]
  constructor
  · rintro ⟨_, ⟨hfits, rfl⟩, hu⟩
    cases hu
    exact ⟨hfits, rfl⟩
  · rintro ⟨hfits, rfl⟩
    exact ⟨_, ⟨hfits, rfl⟩, rfl⟩

/-- The label of an offset column -/
def label (opt : DumpOpt) (offset : Int) : List Char := out opt 0 (some offset) 4 16

theorem gives_offset :
    Gives opt reader nrStart offsetStart ['%', 'p'] (between bcnt ccnt lcnt os)
      (FitsISize (offsetStart + max bcnt ccnt))
      (between bcnt ccnt lcnt (os ++ label opt (offsetStart + max bcnt ccnt))) := by
  refine gives_directive (by decide) (fun u => ?_) rfl
  rw [directive, bind_eq_ok]
  simp only [checked_eq_ok, lp64_isize_iff]
  constructor
  · rintro ⟨_, ⟨hfits, rfl⟩, hu⟩
    cases hu
    exact ⟨hfits, rfl⟩
  · rintro ⟨hfits, rfl⟩
    exact ⟨_, ⟨hfits, rfl⟩, rfl⟩

/-- The text of a number in a data column -/
def cellText (opt : DumpOpt) (reader : DataProvider) (size offset : Nat) : List Char :=
  out opt 0 (reader offset size) size 0

/-- The directives for data and their numbers of bytes -/
inductive IsData : Char → Nat → Prop
  | byte : IsData 'b' 1
  | word : IsData 'w' 2
  | long : IsData 'l' 4

theorem IsData.not_digit {c : Char} {size : Nat} (h : IsData c size) :
    ¬('0' ≤ c ∧ c ≤ '9') := by
  cases h <;> decide

theorem IsData.directive_eq {c : Char} {size : Nat} (h : IsData c size) (s : State) :
    directive .lp64 opt reader nrStart offsetStart c s = dumpData .lp64 opt reader size s := by
  cases h <;> rfl

theorem gives_data {c : Char} {size : Nat} (h : IsData c size) :
    Gives opt reader nrStart offsetStart ['%', c] (between bcnt ccnt lcnt os)
      (FitsInt (bcnt + size))
      (between (bcnt + size) ccnt lcnt (os ++ cellText opt reader size bcnt)) := by
  refine gives_directive h.not_digit (fun u => ?_) rfl
  rw [h.directive_eq, dumpData, bind_eq_ok]
  simp only [counted_eq_ok, lp64_int_iff]
  constructor
  · rintro ⟨_, ⟨hfits, rfl⟩, hu⟩
    cases hu
    exact ⟨hfits, rfl⟩
  · rintro ⟨hfits, rfl⟩
    exact ⟨_, ⟨hfits, rfl⟩, rfl⟩

/-- What the character column shows of a byte -/
def shown (opt : DumpOpt) (val : Int) : Char := if isPrint opt val then toChar val else '.'

theorem gives_char {val : Int} (h : reader ccnt 1 = some val) :
    Gives opt reader nrStart offsetStart ['%', 'c'] (between bcnt ccnt lcnt os)
      (FitsInt (ccnt + 1))
      (between bcnt (ccnt + 1) lcnt (os ++ [shown opt val])) := by
  refine gives_directive (by decide) (fun u => ?_) rfl
  simp only [directive, dumpChar, between, h, bind_eq_ok, counted_eq_ok, lp64_int_iff]
  constructor
  · rintro ⟨_, ⟨hfits, rfl⟩, hu⟩
    cases hu
    exact ⟨hfits, rfl⟩
  · rintro ⟨hfits, rfl⟩
    exact ⟨_, ⟨hfits, rfl⟩, rfl⟩

theorem gives_blank (h : reader ccnt 1 = none) :
    Gives opt reader nrStart offsetStart ['%', 'c'] (between bcnt ccnt lcnt os) True
      (between bcnt ccnt lcnt (os ++ [' '])) := by
  refine gives_directive (by decide) (fun u => ?_) rfl
  simp only [directive, dumpChar, between, h, true_and]
  exact ⟨fun hu => by cases hu; rfl, fun hu => by rw [hu]; rfl⟩

end Gives

section Columns

variable {opt : DumpOpt} {reader : DataProvider} {nrStart offsetStart : Int}
  {bcnt ccnt lcnt : Nat} {os : List Char}

theorem repeated_succ (s : List Char) (n : Nat) : repeated s (n + 1) = s ++ repeated s n := by
  rw [repeated, List.replicate_succ, List.flatten_cons]
  rfl

theorem repeated_add (s : List Char) (m n : Nat) :
    repeated s (m + n) = repeated s m ++ repeated s n := by
  rw [repeated, List.replicate_add, List.flatten_append]
  rfl

/-- Data columns side by side, each with a blank behind it. -/
def cells (opt : DumpOpt) (reader : DataProvider) (size offset n : Nat) : List Char :=
  (List.range n).flatMap fun i => cellText opt reader size (offset + i * size) ++ [' ']

theorem cells_succ (size offset n : Nat) :
    cells opt reader size offset (n + 1) =
      cellText opt reader size offset ++ [' '] ++ cells opt reader size (offset + size) n := by
  rw [cells, List.range_succ_eq_map, List.flatMap_cons, List.flatMap_map, Nat.zero_mul,
    Nat.add_zero, cells]
  congr 2
  funext i
  rw [Nat.succ_mul, Nat.add_assoc, Nat.add_comm size]

theorem gives_cells {c : Char} {size : Nat} (h : IsData c size) (n : Nat) (hb : FitsInt bcnt) :
    Gives opt reader nrStart offsetStart (repeated ['%', c, ' '] n) (between bcnt ccnt lcnt os)
      (FitsInt (bcnt + n * size))
      (between (bcnt + n * size) ccnt lcnt (os ++ cells opt reader size bcnt n)) := by
  induction n generalizing bcnt os with
  | zero =>
    refine (Gives.nil _).congr ?_ ?_
    · rw [Nat.zero_mul, Nat.add_zero, iff_true]
      exact hb
    · intro _
      rw [Nat.zero_mul, Nat.add_zero, cells, List.range_zero, List.flatMap_nil, List.append_nil]
  | succ n ih =>
    have hcell : Gives opt reader nrStart offsetStart ['%', c, ' '] (between bcnt ccnt lcnt os)
        (FitsInt (bcnt + size) ∧ True)
        (between (bcnt + size) ccnt lcnt (os ++ cellText opt reader size bcnt ++ [' '])) :=
      (gives_data h).append fun _ => gives_text (by decide) (by decide)
    rw [repeated_succ]
    refine (hcell.append fun hfits => ih hfits.1).congr ?_ ?_
    · rw [Nat.succ_mul, Nat.add_comm (n * size), ← Nat.add_assoc, and_true]
      refine ⟨fun hfits => ⟨?_, hfits⟩, fun hfits => hfits.2⟩
      rw [FitsInt] at hfits ⊢
      omega
    · intro _
      rw [cells_succ, Nat.succ_mul, Nat.add_comm (n * size), ← Nat.add_assoc]
      simp only [List.append_assoc]

end Columns

section Characters

variable {opt : DumpOpt} {data : List UInt8} {nrStart offsetStart : Int} {bcnt ccnt lcnt : Nat}
  {os : List Char}

/-- The characters of a row, blanks behind the end of the data. -/
def row (opt : DumpOpt) (data : List UInt8) (offset n : Nat) : List Char :=
  (List.range n).map fun i =>
    match data[offset + i]? with
    | some x => shown opt x.toNat
    | none => ' '

theorem row_succ (offset n : Nat) :
    row opt data offset (n + 1) =
      (match data[offset]? with
      | some x => shown opt x.toNat
      | none => ' ') :: row opt data (offset + 1) n := by
  rw [row, List.range_succ_eq_map, List.map_cons, List.map_map, row]
  congr 1
  apply List.map_congr_left
  intro i _
  rw [Function.comp_apply, Nat.succ_eq_add_one, Nat.add_assoc, Nat.add_comm 1]

theorem row_of_le {offset n : Nat} (h : data.length ≤ offset) :
    row opt data offset n = List.replicate n ' ' := by
  induction n generalizing offset with
  | zero => rfl
  | succ n ih =>
    rw [row_succ, List.getElem?_eq_none h, ih (Nat.le_succ_of_le h), List.replicate_succ]

theorem gives_row (n : Nat) (hle : ccnt ≤ data.length) (hfits : FitsInt ccnt) :
    Gives opt (dataProvider data) nrStart offsetStart (repeated ['%', 'c'] n)
      (between bcnt ccnt lcnt os) (FitsInt (min (ccnt + n) data.length))
      (between bcnt (min (ccnt + n) data.length) lcnt (os ++ row opt data ccnt n)) := by
  induction n generalizing ccnt os with
  | zero =>
    refine (Gives.nil _).congr ?_ ?_
    · rw [Nat.add_zero, min_eq_left hle, iff_true]
      exact hfits
    · intro _
      rw [Nat.add_zero, min_eq_left hle, row, List.range_zero, List.map_nil, List.append_nil]
  | succ n ih =>
    rw [repeated_succ, row_succ]
    rcases Nat.lt_or_ge ccnt data.length with hlt | hge
    · have hread : dataProvider data ccnt 1 = some (data[ccnt].toNat : Int) := by
        rw [dataProvider_one, List.getElem?_eq_getElem hlt, Option.map_some]
      have hrest : min (ccnt + (n + 1)) data.length = min (ccnt + 1 + n) data.length := by
        rw [Nat.add_assoc, Nat.add_comm 1]
      rw [List.getElem?_eq_getElem hlt, hrest]
      refine ((gives_char hread).append fun hfits' => ih hlt hfits').congr ?_ ?_
      · refine ⟨fun h => ⟨?_, h⟩, fun h => h.2⟩
        rw [FitsInt] at h ⊢
        omega
      · intro _
        rw [List.append_assoc, List.singleton_append]
    · have hread : dataProvider data ccnt 1 = none := by
        rw [dataProvider_one, List.getElem?_eq_none hge, Option.map_none]
      have hrest : min (ccnt + (n + 1)) data.length = min (ccnt + n) data.length := by omega
      rw [List.getElem?_eq_none hge, hrest]
      refine ((gives_blank hread).append fun _ => ih hle hfits).congr (by rw [true_and]) ?_
      intro _
      rw [row_of_le hge, row_of_le (Nat.le_succ_of_le hge), List.append_assoc,
        List.singleton_append]

theorem repeated_repeated (s : List Char) (m n : Nat) :
    repeated (repeated s m) n = repeated s (n * m) := by
  induction n with
  | zero => rw [Nat.zero_mul]; rfl
  | succ n ih => rw [repeated_succ, ih, Nat.succ_mul, Nat.add_comm, repeated_add]

end Characters

end Dumpable

namespace DumpFmt

variable (f : DumpFmt)

/-- The number of data columns before group `i` of `g` -/
def first (g i : Nat) : Nat := i * (f.columns / g) + min i (f.columns % g)

theorem first_succ (g i : Nat) : f.first g (i + 1) = f.first g i + f.count g i := by
  rw [first, first, count, Nat.succ_mul]
  split <;> omega

theorem groupCount_pos : 0 < f.groupCount := by
  rw [groupCount]
  omega

theorem first_groupCount : f.first f.groupCount f.groupCount = f.columns := by
  have hlt := Nat.mod_lt f.columns f.groupCount_pos
  rw [first, Nat.min_eq_right hlt.le, Nat.div_add_mod]

end DumpFmt

namespace Dumpable

section Groups

variable {opt : DumpOpt} {reader : DataProvider} {nrStart offsetStart : Int} {f : DumpFmt}
  {bcnt ccnt lcnt : Nat} {os : List Char}

/-- The first `n` groups of data columns -/
def groups (opt : DumpOpt) (reader : DataProvider) (f : DumpFmt) (size offset n : Nat) :
    List Char :=
  let g := f.groupCount
  (List.range n).flatMap fun i =>
    cells opt reader size (offset + f.first g i * size) (f.count g i) ++
      if i + 1 < g then [' '] else []

theorem gives_groups {c : Char} {size : Nat} (h : IsData c size) (n : Nat) (hb : FitsInt bcnt) :
    Gives opt reader nrStart offsetStart
      ((List.range n).flatMap fun i => repeated ['%', c, ' '] (f.count f.groupCount i) ++
        if i + 1 < f.groupCount then [' '] else [])
      (between bcnt ccnt lcnt os)
      (FitsInt (bcnt + f.first f.groupCount n * size))
      (between (bcnt + f.first f.groupCount n * size) ccnt lcnt
        (os ++ groups opt reader f size bcnt n)) := by
  induction n with
  | zero =>
    have hzero : f.first f.groupCount 0 = 0 := by rw [DumpFmt.first, Nat.zero_mul, Nat.zero_min]
    refine (Gives.nil _).congr ?_ ?_
    · rw [hzero, Nat.zero_mul, Nat.add_zero, iff_true]
      exact hb
    · intro _
      rw [hzero, Nat.zero_mul, Nat.add_zero, groups, List.range_zero, List.flatMap_nil,
        List.append_nil]
  | succ n ih =>
    have hblank : ∀ {bcnt os}, Gives opt reader nrStart offsetStart
        (if n + 1 < f.groupCount then [' '] else []) (between bcnt ccnt lcnt os) True
        (between bcnt ccnt lcnt (os ++ if n + 1 < f.groupCount then [' '] else [])) := by
      intro bcnt os
      split
      · exact gives_text (by decide) (by decide)
      · rw [List.append_nil]
        exact Gives.nil _
    have hnext : bcnt + f.first f.groupCount n * size + f.count f.groupCount n * size =
        bcnt + f.first f.groupCount (n + 1) * size := by
      rw [DumpFmt.first_succ, Nat.add_mul, Nat.add_assoc]
    rw [List.range_succ, List.flatMap_append, List.flatMap_singleton]
    refine (ih.append fun hfits => (gives_cells h _ hfits).append fun _ => hblank).congr ?_ ?_
    · rw [hnext, and_true]
      refine ⟨fun hfits => ⟨?_, hfits⟩, fun hfits => hfits.2⟩
      rw [FitsInt] at hfits ⊢
      omega
    · intro _
      rw [hnext, groups, groups, List.range_succ, List.flatMap_append, List.flatMap_singleton]
      simp only [List.append_assoc]

end Groups

end Dumpable

namespace DumpFmt

open Dumpable

variable (opt : DumpOpt) (f : DumpFmt) (data : List UInt8)

def wordSize : Nat := if f.size = 'l' then 4 else if f.size = 'w' then 2 else 1

/-- The number of bytes in a line -/
def stride : Nat := f.columns * f.wordSize

def nrText (k : Nat) : List Char :=
  match f.nr with
  | some nr => decimal (nr.toInt + k) ++ [':', ' ']
  | none => []

def offsetText (k : Nat) : List Char :=
  match f.offset with
  | some offset => label opt (offset.toInt + (k * f.stride : Nat)) ++ [':', ' ']
  | none => []

def dataText (k : Nat) : List Char :=
  Dumpable.groups opt (dataProvider data) f f.wordSize (k * f.stride) f.groupCount ++ [' ']

def asciiText (k : Nat) : List Char :=
  if f.ascii then '|' :: row opt data (k * f.stride) f.stride ++ ['|'] else []

/-- Line `k` of a dump -/
def line (k : Nat) : List Char :=
  f.nrText k ++ f.offsetText opt k ++ f.dataText opt data k ++ f.asciiText opt data k

/-- The value of `ccnt` at the beginning of line `k` -/
def ccntAt (len k : Nat) : Nat := if f.ascii then min (k * f.stride) len else 0

theorem ccntAt_le_succ (len k : Nat) : f.ccntAt len k ≤ f.ccntAt len (k + 1) := by
  rw [ccntAt, ccntAt, Nat.succ_mul]
  split <;> omega

/-- No variable overflows in line `k`. -/
def LineFits (len k : Nat) : Prop :=
  (∀ nr, f.nr = some nr → FitsISize (nr.toInt + k)) ∧
  (∀ offset, f.offset = some offset → FitsISize (offset.toInt + (k * f.stride : Nat))) ∧
  FitsInt ((k + 1) * f.stride + f.ccntAt len (k + 1))

end DumpFmt

namespace Dumpable

section Lines

variable {opt : DumpOpt} {f : DumpFmt} {data : List UInt8} {bcnt ccnt lcnt k : Nat} {os : List Char}

theorem IsData.cases_on {c : Char} {size : Nat} (h : IsData c size) :
    c = 'b' ∧ size = 1 ∨ c = 'w' ∧ size = 2 ∨ c = 'l' ∧ size = 4 := by
  cases h <;> decide

theorem fmt_eq (h : IsData f.size f.wordSize) :
    f.fmt =
      (if f.nr.isSome then ['%', 'n'] ++ [':'] ++ [' '] else []) ++
      (if f.offset.isSome then ['%', 'p'] ++ [':'] ++ [' '] else []) ++
      (((List.range f.groupCount).flatMap fun i =>
        repeated ['%', f.size, ' '] (f.count f.groupCount i) ++
          if i + 1 < f.groupCount then [' '] else []) ++ [' ']) ++
      (if f.ascii then ['|'] ++ repeated ['%', 'c'] f.stride ++ ['|'] else []) ++ ['\n'] := by
  have hrow : repeated (repeated ['%', 'c'] f.wordSize) f.columns = repeated ['%', 'c'] f.stride :=
    repeated_repeated _ _ _
  rcases h.cases_on with ⟨hsize, hword⟩ | ⟨hsize, hword⟩ | ⟨hsize, hword⟩ <;>
    rw [← hrow, hword] <;>
    simp [DumpFmt.fmt, hsize, show repeated ['%', 'c'] 4 = ['%', 'c', '%', 'c', '%', 'c', '%', 'c']
      from rfl, show repeated ['%', 'c'] 2 = ['%', 'c', '%', 'c'] from rfl,
      show repeated ['%', 'c'] 1 = ['%', 'c'] from rfl]

abbrev start (n : Option Int64) : Int := (n.map Int64.toInt).getD 0

theorem gives_nrText {reader : DataProvider} {offsetStart : Int} :
    Gives opt reader (start f.nr) offsetStart
      (if f.nr.isSome then ['%', 'n'] ++ [':'] ++ [' '] else []) (between bcnt ccnt lcnt os)
      (∀ nr, f.nr = some nr → FitsISize (nr.toInt + lcnt))
      (between bcnt ccnt lcnt (os ++ f.nrText lcnt)) := by
  rw [DumpFmt.nrText]
  cases f.nr with
  | none => exact (Gives.nil _).congr (by simp) (by simp)
  | some nr =>
    refine ((gives_nr.append fun _ => gives_text (by decide) (by decide)).append
      fun _ => gives_text (by decide) (by decide)).congr (by simp [start]) ?_
    intro _
    simp only [List.append_assoc, List.singleton_append]
    rfl

theorem gives_offsetText {reader : DataProvider} {nrStart : Int}
    (hmax : max bcnt ccnt = k * f.stride) :
    Gives opt reader nrStart (start f.offset)
      (if f.offset.isSome then ['%', 'p'] ++ [':'] ++ [' '] else []) (between bcnt ccnt lcnt os)
      (∀ offset, f.offset = some offset → FitsISize (offset.toInt + (k * f.stride : Nat)))
      (between bcnt ccnt lcnt (os ++ f.offsetText opt k)) := by
  rw [DumpFmt.offsetText]
  cases hoffset : f.offset with
  | none => exact (Gives.nil _).congr (by simp) (by simp)
  | some offset =>
    refine ((gives_offset.append fun _ => gives_text (by decide) (by decide)).append
      fun _ => gives_text (by decide) (by decide)).congr ?_ ?_
    · rw [← hmax]
      simp [start]
    · intro _
      rw [← hmax]
      simp only [List.append_assoc, List.singleton_append, start]
      rfl

/-- The loop at the beginning of line `k` -/
def stateAt (opt : DumpOpt) (f : DumpFmt) (data : List UInt8) (k : Nat) : State :=
  between (k * f.stride) (f.ccntAt data.length k) k
    ((List.range k).flatMap fun j => f.line opt data j ++ ['\n'])

theorem gives_dataText (h : IsData f.size f.wordSize) {nrStart offsetStart : Int}
    (hb : FitsInt (k * f.stride)) :
    Gives opt (dataProvider data) nrStart offsetStart
      (((List.range f.groupCount).flatMap fun i =>
        repeated ['%', f.size, ' '] (f.count f.groupCount i) ++
          if i + 1 < f.groupCount then [' '] else []) ++ [' '])
      (between (k * f.stride) ccnt lcnt os) (FitsInt ((k + 1) * f.stride))
      (between ((k + 1) * f.stride) ccnt lcnt (os ++ f.dataText opt data k)) := by
  have hnext : k * f.stride + f.first f.groupCount f.groupCount * f.wordSize =
      (k + 1) * f.stride := by
    rw [f.first_groupCount, Nat.succ_mul, DumpFmt.stride]
  refine ((gives_groups h f.groupCount hb).append fun _ =>
    gives_text (by decide) (by decide)).congr ?_ ?_
  · rw [hnext, and_true]
  · intro _
    rw [hnext, DumpFmt.dataText, List.append_assoc]

theorem gives_asciiText {nrStart offsetStart : Int} (hlt : k * f.stride < data.length)
    (hfits : FitsInt (f.ccntAt data.length k)) :
    Gives opt (dataProvider data) nrStart offsetStart
      (if f.ascii then ['|'] ++ repeated ['%', 'c'] f.stride ++ ['|'] else [])
      (between bcnt (f.ccntAt data.length k) lcnt os) (FitsInt (f.ccntAt data.length (k + 1)))
      (between bcnt (f.ccntAt data.length (k + 1)) lcnt (os ++ f.asciiText opt data k)) := by
  rw [DumpFmt.asciiText, DumpFmt.ccntAt, DumpFmt.ccntAt] at *
  cases hascii : f.ascii with
  | false =>
    refine (Gives.nil _).congr ?_ ?_
    · exact iff_true_intro (Nat.two_pow_pos 31)
    · intro _
      simp
  | true =>
    rw [hascii, if_pos rfl, min_eq_left hlt.le] at hfits
    have hnext : min (k * f.stride + f.stride) data.length =
        min ((k + 1) * f.stride) data.length := by rw [Nat.succ_mul]
    simp only [if_true, min_eq_left hlt.le]
    refine (((gives_text (by decide) (by decide)).append fun _ => gives_row f.stride hlt.le
      hfits).append fun _ => gives_text (by decide) (by decide)).congr ?_ ?_
    · rw [hnext, true_and, and_true]
    · intro _
      rw [hnext]
      simp only [List.append_assoc, List.cons_append, List.nil_append]

theorem not_nul (h : IsData f.size f.wordSize) : '\x00' ∉ f.fmt := by
  have hsize : '\x00' ≠ f.size := by
    rcases h.cases_on with ⟨hsize, -⟩ | ⟨hsize, -⟩ | ⟨hsize, -⟩ <;> rw [hsize] <;> decide
  have hblank (i : Nat) : '\x00' ∉ (if i + 1 < f.groupCount then [' '] else []) := by
    split <;> decide
  rw [fmt_eq h]
  simp only [List.mem_append, List.mem_flatMap, not_or, repeated, List.mem_flatten,
    List.mem_replicate]
  refine ⟨⟨⟨⟨?_, ?_⟩, ?_, by decide⟩, ?_⟩, by decide⟩
  · split <;> decide
  · split <;> decide
  · rintro ⟨i, -, ⟨_, ⟨-, rfl⟩, hmem⟩ | hmem⟩
    · simp [hsize] at hmem
    · exact hblank i hmem
  · split
    · simp
    · decide

theorem lineFits_iff (hstride : 0 < f.stride) (len k : Nat) :
    f.LineFits len k ↔
      ((((((∀ nr, f.nr = some nr → FitsISize (nr.toInt + k)) ∧
        (∀ offset, f.offset = some offset → FitsISize (offset.toInt + (k * f.stride : Nat)))) ∧
        FitsInt ((k + 1) * f.stride)) ∧ FitsInt (f.ccntAt len (k + 1))) ∧ FitsInt (k + 1)) ∧
        FitsInt ((k + 1) * f.stride + f.ccntAt len (k + 1))) := by
  have hle := Nat.le_mul_of_pos_right (k + 1) hstride
  simp only [DumpFmt.LineFits, FitsInt]
  constructor
  · rintro ⟨hnr, hoffset, hsum⟩
    exact ⟨⟨⟨⟨⟨hnr, hoffset⟩, by omega⟩, by omega⟩, by omega⟩, hsum⟩
  · rintro ⟨⟨⟨⟨⟨hnr, hoffset⟩, -⟩, -⟩, -⟩, hsum⟩
    exact ⟨hnr, hoffset, hsum⟩

theorem gives_fmt (h : IsData f.size f.wordSize) (hlt : k * f.stride < data.length)
    (hfits : FitsInt (k * f.stride + f.ccntAt data.length k)) :
    Gives opt (dataProvider data) (start f.nr) (start f.offset) f.fmt (stateAt opt f data k)
      (((((∀ nr, f.nr = some nr → FitsISize (nr.toInt + k)) ∧
        (∀ offset, f.offset = some offset → FitsISize (offset.toInt + (k * f.stride : Nat)))) ∧
        FitsInt ((k + 1) * f.stride)) ∧ FitsInt (f.ccntAt data.length (k + 1))) ∧ FitsInt (k + 1))
      (stateAt opt f data (k + 1)) := by
  have hccnt : FitsInt (f.ccntAt data.length k) := by
    rw [FitsInt] at hfits ⊢
    omega
  have hbcnt : FitsInt (k * f.stride) := by
    rw [FitsInt] at hfits ⊢
    omega
  have hmax : max (k * f.stride) (f.ccntAt data.length k) = k * f.stride := by
    rw [DumpFmt.ccntAt]
    split <;> omega
  rw [fmt_eq h]
  refine ((((gives_nrText.append fun _ => gives_offsetText hmax).append
    fun _ => gives_dataText h hbcnt).append fun _ => gives_asciiText hlt hccnt).append
    fun _ => gives_newline).congr Iff.rfl fun _ => ?_
  rw [stateAt, List.range_succ, List.flatMap_append, List.flatMap_singleton, DumpFmt.line]
  simp only [List.append_assoc]

/-- One pass is one line. -/
theorem pass_stateAt (h : IsData f.size f.wordSize) (hstride : 0 < f.stride)
    (hlt : k * f.stride < data.length)
    (hfits : FitsInt (k * f.stride + f.ccntAt data.length k)) (r : State × Bool) :
    pass .lp64 opt (dataProvider data) (start f.nr) (start f.offset) f.fmt
        (stateAt opt f data k) = .ok r ↔
      f.LineFits data.length k ∧ r = (stateAt opt f data (k + 1), true) := by
  have hline : Gives opt _ _ _ f.fmt _ _ _ := gives_fmt h hlt hfits
  have hfmt : f.fmt.takeWhile (· ≠ '\x00') = f.fmt := by
    rw [List.takeWhile_eq_self_iff]
    intro c hc
    rw [decide_eq_true_iff]
    rintro rfl
    exact not_nul h hc
  have hmove : (k + 1) * f.stride + f.ccntAt data.length (k + 1) ≠
      k * f.stride + f.ccntAt data.length k := by
    have hmono := f.ccntAt_le_succ data.length k
    rw [Nat.succ_mul]
    omega
  rw [lineFits_iff hstride, pass, hfmt]
  simp only [bind_eq_ok, counted_eq_ok, lp64_int_iff]
  constructor
  · rintro ⟨_, ⟨-, rfl⟩, t, ht, _, ⟨hafter, rfl⟩, hr⟩
    obtain ⟨hp, rfl⟩ := (hline t).1 ht
    refine ⟨⟨hp, hafter⟩, ?_⟩
    cases hr
    exact congrArg (Prod.mk _) (decide_eq_true hmove)
  · rintro ⟨⟨hp, hafter⟩, rfl⟩
    refine ⟨_, ⟨hfits, rfl⟩, _, (hline _).2 ⟨hp, rfl⟩, _, ⟨hafter, rfl⟩, ?_⟩
    exact congrArg (fun b => Except.ok (stateAt opt f data (k + 1), b)) (decide_eq_true hmove)

/-- The number of lines -/
def lineCount (f : DumpFmt) (len : Nat) : Nat := len ⌈/⌉ f.stride

theorem lt_lineCount (hstride : 0 < f.stride) {len : Nat} :
    k < lineCount f len ↔ k * f.stride < len := by
  rw [lineCount, ← not_le, ceilDiv_le_iff_le_mul hstride, not_le, Nat.mul_comm]

theorem loop_stateAt (h : IsData f.size f.wordSize) (hstride : 0 < f.stride) (rest : Nat)
    {passes : Nat} (hrest : k + rest = lineCount f data.length) (hpasses : rest ≤ passes)
    (hfits : FitsInt (k * f.stride + f.ccntAt data.length k)) (s : State) :
    loop .lp64 opt (dataProvider data) (start f.nr) (start f.offset) f.fmt passes
        (stateAt opt f data k) = .stopped s ↔
      (∀ j, k ≤ j → j < lineCount f data.length → f.LineFits data.length j) ∧
        s = stateAt opt f data (lineCount f data.length) := by
  induction rest generalizing k passes with
  | zero =>
    have hend : data.length ≤ k * f.stride := by
      rw [← not_lt, ← lt_lineCount hstride]
      omega
    have hread : dataProvider data (stateAt opt f data k).bcnt 1 = none := by
      rw [stateAt, between, dataProvider_one, List.getElem?_eq_none hend, Option.map_none]
    have hstopped : loop .lp64 opt (dataProvider data) (start f.nr) (start f.offset) f.fmt passes
        (stateAt opt f data k) = .stopped (stateAt opt f data k) := by
      cases passes <;> rw [loop, hread] <;> rfl
    rw [hstopped, ← hrest, Nat.add_zero, Outcome.stopped.injEq, eq_comm]
    refine (and_iff_right ?_).symm
    intro j hj hlt
    omega
  | succ rest ih =>
    obtain ⟨passes, rfl⟩ := Nat.exists_eq_add_one.2 (Nat.lt_of_lt_of_le rest.succ_pos hpasses)
    have hlt : k * f.stride < data.length := (lt_lineCount hstride).1 (by omega)
    have hccnt : f.ccntAt data.length k < data.length := by
      rw [DumpFmt.ccntAt]
      split <;> omega
    have hmore : (dataProvider data (stateAt opt f data k).bcnt 1).isSome ∧
        (dataProvider data (stateAt opt f data k).ccnt 1).isSome := by
      simp only [stateAt, between, dataProvider_one, List.getElem?_eq_getElem hlt,
        List.getElem?_eq_getElem hccnt, Option.map_some, Option.isSome_some, and_self]
    have hpass : ∀ r : State × Bool, pass .lp64 opt _ _ _ _ (stateAt opt f data k) = .ok r ↔ _ :=
      pass_stateAt h hstride hlt hfits
    rw [loop, if_pos hmore]
    by_cases hline : f.LineFits data.length k
    · rw [(hpass _).2 ⟨hline, rfl⟩]
      refine (ih (by omega) (by omega) hline.2.2).trans (and_congr_left fun _ => ?_)
      refine ⟨fun hrest j hj hlt => ?_, fun hall j hj => hall j (by omega)⟩
      rcases Nat.eq_or_lt_of_le hj with rfl | hj
      · exact hline
      · exact hrest j hj hlt
    · refine iff_of_false ?_ fun hall => hline (hall.1 k le_rfl (by omega))
      cases hresult : pass .lp64 opt (dataProvider data) (start f.nr) (start f.offset) f.fmt
          (stateAt opt f data k) with
      | ok r => exact absurd ((hpass r).1 hresult).1 hline
      | error e =>
        intro hfailed
        cases hfailed

/-- A dump comes to its end exactly if no variable overflows in any line, and then it consists of
its lines. -/
theorem dumpFmt_eq_stopped_iff (h : IsData f.size f.wordSize) (hcolumns : 0 < f.columns)
    (s : State) :
    dumpFmt .lp64 opt (dataProvider data) f (2 * data.length + 1) = .stopped s ↔
      (∀ k < lineCount f data.length, f.LineFits data.length k) ∧
        s = stateAt opt f data (lineCount f data.length) := by
  have hstride : 0 < f.stride :=
    Nat.mul_pos hcolumns (by rcases h.cases_on with h | h | h <;> omega)
  have hcount : lineCount f data.length ≤ data.length := by
    rw [lineCount, ceilDiv_le_iff_le_mul hstride]
    exact Nat.le_mul_of_pos_left _ hstride
  have hstart : stateAt opt f data 0 = {} := by
    rw [stateAt, DumpFmt.ccntAt, Nat.zero_mul, Nat.zero_min, ite_self]
    rfl
  have hfits : FitsInt (0 * f.stride + f.ccntAt data.length 0) := by
    rw [DumpFmt.ccntAt, Nat.zero_mul, Nat.zero_min, ite_self]
    exact Nat.two_pow_pos 31
  rw [dumpFmt, dump, ← hstart]
  refine (loop_stateAt h hstride _ (Nat.zero_add _) (by omega) hfits s).trans
    (and_congr_left fun _ => ?_)
  exact forall_congr' fun k => ⟨fun h => h k.zero_le, fun h _ => h⟩

end Lines

end Dumpable

end Utlib
