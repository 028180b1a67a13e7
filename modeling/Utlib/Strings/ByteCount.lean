import Mathlib.Algebra.Order.Field.Rat
import Mathlib.Data.List.TakeWhile
import Mathlib.Tactic.FieldSimp
import Mathlib.Tactic.Linarith
import Mathlib.Tactic.NormNum
import Mathlib.Tactic.Ring
import Utlib.Integral
import Utlib.Numeral

/-! `byteCountAsString` (support/Strings.cpp). -/

namespace Utlib.Strings

open Integral Numeral

/-- The fraction of `size` in a unit of so many bytes, in hundredths -/
def fraction (size unit : Int) : Int := ((i64.wrap (size * 100)).toInt.tdiv unit).tmod 100

/-- `std::to_string(whole) + frac` -/
def joined (whole frac : Int) : String :=
  toString whole ++ if frac = 0 then "" else "." ++ toString frac

def byteCountAsString (size : Int) : String :=
  let kb := size.tdiv 1024
  let mb := size.tdiv (1024 * 1024)
  let gb := size.tdiv (1024 * 1024 * 1024)
  let kbfrac := fraction size 1024
  let mbfrac := fraction size (1024 * 1024)
  let gbfrac := fraction size (1024 * 1024 * 1024)
  if size < 1024 then toString size ++ " Bytes"
  else if size < 1024 * 1024 then joined kb kbfrac ++ " KB"
  else if size < 1024 * 1024 * 1024 then joined mb mbfrac ++ " MB"
  else joined gb gbfrac ++ " GB"

inductive ByteUnit
  | bytes
  | kb
  | mb
  | gb

namespace ByteUnit

def size : ByteUnit → Nat
  | bytes => 1
  | kb => 1024
  | mb => 1024 ^ 2
  | gb => 1024 ^ 3

def name : ByteUnit → List Char
  | bytes => "Bytes".toList
  | kb => "KB".toList
  | mb => "MB".toList
  | gb => "GB".toList

/-- The unit that a size is printed in -/
def of (n : Nat) : ByteUnit :=
  if n < 1024 then bytes else if n < 1024 ^ 2 then kb else if n < 1024 ^ 3 then mb else gb

theorem size_pos (u : ByteUnit) : 0 < u.size := by cases u <;> decide

theorem name_injective : Function.Injective name := by
  intro u v h
  cases u <;> cases v <;> first | rfl | exact absurd h (by decide)

end ByteUnit

/-- A text as a decimal fraction -/
def decimal (cs : List Char) : ℚ :=
  let fraction := (cs.dropWhile (· ≠ '.')).tail
  Nat.ofDigitChars 10 (cs.takeWhile (· ≠ '.')) 0 +
    Nat.ofDigitChars 10 fraction 0 / 10 ^ fraction.length

def printedNumber (text : String) : ℚ := decimal (text.toList.takeWhile (· ≠ ' '))

/-- The text is a number and, behind a space, a unit, and the number is the size in that unit,
rounded down to hundredths. -/
def Exact (n : Nat) (text : String) : Prop :=
  ∃ u : ByteUnit, text.toList.dropWhile (· ≠ ' ') = ' ' :: u.name ∧
    printedNumber text = (100 * n / u.size : Nat) / 100

/-- What is left of the size beyond whole units is less than a hundredth or at least a tenth of the
unit. -/
def Plain (n : Nat) : Prop :=
  100 * (n % (ByteUnit.of n).size) < (ByteUnit.of n).size ∨
    (ByteUnit.of n).size ≤ 10 * (n % (ByteUnit.of n).size)

instance (n : Nat) : Decidable (Plain n) := inferInstanceAs (Decidable (_ ∨ _))

section Text

/-- The digits of the number in front of the unit -/
def digits (n : Nat) (u : ByteUnit) : List Char :=
  Nat.toDigits 10 (n / u.size) ++
    if 100 * n / u.size % 100 = 0 then [] else '.' :: Nat.toDigits 10 (100 * n / u.size % 100)

theorem toList_toString (n : Nat) : (toString (n : Int)).toList = Nat.toDigits 10 n :=
  Nat.toList_repr

theorem fraction_eq {n : Nat} (u : ByteUnit) (h : n * 100 < 2 ^ 63) :
    fraction n u.size = (100 * n / u.size % 100 : Nat) := by
  have hwrap : (i64.wrap ((n : Int) * 100)).toInt = (100 * n : Nat) := by
    have hmin : i64.min = -2 ^ 63 := rfl
    have hmax : i64.max = 2 ^ 63 - 1 := rfl
    rw [toInt_wrap (by rw [hmin]; omega) (by rw [hmax]; omega)]
    omega
  rw [fraction, hwrap]
  rfl

theorem toList_joined (n : Nat) (u : ByteUnit) :
    (joined (n / u.size : Nat) (100 * n / u.size % 100 : Nat)).toList = digits n u := by
  rw [joined, digits, String.toList_append, toList_toString]
  congr 1
  by_cases hzero : 100 * n / u.size % 100 = 0
  · rw [if_pos hzero, hzero]
    rfl
  · rw [if_neg hzero, if_neg (by omega), String.toList_append, toList_toString]
    rfl

theorem byteCountAsString_eq {n : Nat} (h : n * 100 < 2 ^ 63) :
    byteCountAsString n =
      if n < 1024 then toString (n : Int) ++ " Bytes"
      else if n < 1024 ^ 2 then joined (n / 1024 : Nat) (fraction n ByteUnit.kb.size) ++ " KB"
      else if n < 1024 ^ 3 then joined (n / 1024 ^ 2 : Nat) (fraction n ByteUnit.mb.size) ++ " MB"
      else joined (n / 1024 ^ 3 : Nat) (fraction n ByteUnit.gb.size) ++ " GB" := by
  have hkb : (n : Int) < 1024 ↔ n < 1024 := by omega
  have hmb : (n : Int) < 1024 * 1024 ↔ n < 1024 ^ 2 := by omega
  have hgb : (n : Int) < 1024 * 1024 * 1024 ↔ n < 1024 ^ 3 := by omega
  simp only [byteCountAsString, hkb, hmb, hgb]
  rfl

theorem toList_byteCountAsString {n : Nat} (h : n * 100 < 2 ^ 63) :
    (byteCountAsString n).toList = digits n (ByteUnit.of n) ++ ' ' :: (ByteUnit.of n).name := by
  rw [byteCountAsString_eq h, ByteUnit.of, fraction_eq _ h, fraction_eq _ h, fraction_eq _ h]
  split
  · have hdigits : digits n .bytes = Nat.toDigits 10 n := by
      rw [digits, ByteUnit.size, Nat.div_one, Nat.div_one, Nat.mul_mod_right, if_pos rfl,
        List.append_nil]
    rw [hdigits, String.toList_append, toList_toString]
    rfl
  split
  · exact (String.toList_append ..).trans (congrArg (· ++ _) (toList_joined n .kb))
  split
  · exact (String.toList_append ..).trans (congrArg (· ++ _) (toList_joined n .mb))
  · exact (String.toList_append ..).trans (congrArg (· ++ _) (toList_joined n .gb))

theorem mem_digits {n : Nat} {u : ByteUnit} {c : Char} (hc : c.isDigit = false) (hne : c ≠ '.') :
    c ∉ digits n u := by
  rw [digits, List.mem_append]
  rintro (hmem | hmem)
  · exact not_mem_toDigits hc _ hmem
  · split at hmem
    · cases hmem
    · rw [List.mem_cons] at hmem
      exact hmem.elim hne (not_mem_toDigits hc _)

/-- A field that ends at the first separator -/
theorem takeWhile_append_cons {a : Char} {l r : List Char} (h : a ∉ l) :
    (l ++ a :: r).takeWhile (· ≠ a) = l ∧ (l ++ a :: r).dropWhile (· ≠ a) = a :: r := by
  have hall : ∀ x ∈ l, decide (x ≠ a) = true := fun x hx => by
    rw [decide_eq_true_eq]
    rintro rfl
    exact h hx
  refine ⟨?_, ?_⟩
  · rw [List.takeWhile_append_of_pos hall, List.takeWhile_cons_of_neg (by simp), List.append_nil]
  · rw [List.dropWhile_append_of_pos hall, List.dropWhile_cons_of_neg (by simp)]

theorem decimal_toDigits (q : Nat) : decimal (Nat.toDigits 10 q) = q := by
  have hall : ∀ c ∈ Nat.toDigits 10 q, decide (c ≠ '.') = true := fun c hc => by
    rw [decide_eq_true_eq]
    rintro rfl
    exact not_mem_toDigits (by decide) q hc
  rw [decimal, List.takeWhile_eq_self_iff.2 hall, List.dropWhile_eq_nil_iff.2 hall,
    Nat.ofDigitChars_ten_toDigits]
  simp

theorem decimal_toDigits_append (q f : Nat) :
    decimal (Nat.toDigits 10 q ++ '.' :: Nat.toDigits 10 f) =
      q + f / 10 ^ (Nat.toDigits 10 f).length := by
  obtain ⟨htake, hdrop⟩ := takeWhile_append_cons (r := Nat.toDigits 10 f)
    (not_mem_toDigits (c := '.') (by decide) q)
  rw [decimal, htake, hdrop, List.tail_cons, Nat.ofDigitChars_ten_toDigits,
    Nat.ofDigitChars_ten_toDigits]

theorem length_toDigits {f : Nat} (hf : f < 100) :
    (Nat.toDigits 10 f).length = if f < 10 then 1 else 2 := by
  have hpos := List.length_pos_of_ne_nil (Nat.toDigits_ne_nil (b := 10) (n := f))
  have hone := Nat.length_toDigits_le_iff (b := 10) (n := f) (k := 1) (by decide) (by decide)
  have htwo := Nat.length_toDigits_le_iff (b := 10) (n := f) (k := 2) (by decide) (by decide)
  split <;> omega

/-- The fraction is read as tenths when it has one digit only. -/
theorem decimal_digits (n : Nat) (u : ByteUnit) :
    decimal (digits n u) =
      (n / u.size : Nat) +
        (100 * n / u.size % 100 : Nat) / if 100 * n / u.size % 100 < 10 then 10 else 100 := by
  have hlt : 100 * n / u.size % 100 < 100 := Nat.mod_lt _ (by decide)
  rw [digits]
  generalize 100 * n / u.size % 100 = f at hlt
  split
  · next hzero =>
    rw [List.append_nil, decimal_toDigits, hzero]
    simp
  · rw [decimal_toDigits_append, length_toDigits hlt]
    split <;> norm_num

end Text

section Exact

variable {n : Nat}

/-- Hundredths are whole units and a fraction. -/
theorem hundredths_eq (n : Nat) (u : ByteUnit) :
    100 * n / u.size = 100 * (n / u.size) + 100 * n / u.size % 100 := by
  have hwhole : 100 * n / u.size / 100 = n / u.size := by
    rw [Nat.div_div_eq_div_mul, Nat.mul_comm u.size, Nat.mul_div_mul_left _ _ (by decide)]
  rw [← hwhole, Nat.div_add_mod]

theorem hundredths_mod (n : Nat) (u : ByteUnit) :
    100 * n / u.size % 100 = 100 * (n % u.size) / u.size := by
  have hsplit : 100 * n = 100 * (n % u.size) + u.size * (100 * (n / u.size)) := by
    conv_lhs => rw [← Nat.mod_add_div n u.size]
    ring
  have hdiv : 100 * n / u.size = 100 * (n % u.size) / u.size + 100 * (n / u.size) := by
    rw [hsplit, Nat.add_mul_div_left _ _ u.size_pos]
  have heq := hundredths_eq n u
  omega

theorem decimal_digits_eq_iff (n : Nat) (u : ByteUnit) :
    decimal (digits n u) = (100 * n / u.size : Nat) / 100 ↔
      100 * (n % u.size) < u.size ∨ u.size ≤ 10 * (n % u.size) := by
  have hzero : 100 * n / u.size % 100 = 0 ↔ 100 * (n % u.size) < u.size := by
    rw [hundredths_mod, Nat.div_eq_zero_iff]
    have := u.size_pos
    omega
  have hten : 10 ≤ 100 * n / u.size % 100 ↔ u.size ≤ 10 * (n % u.size) := by
    rw [hundredths_mod, Nat.le_div_iff_mul_le u.size_pos]
    omega
  have heq := hundredths_eq n u
  rw [← hzero, ← hten, decimal_digits]
  generalize 100 * n / u.size % 100 = f at *
  rw [heq]
  push_cast
  split
  · next hlt =>
    constructor
    · intro h
      have hf : (f : ℚ) = 0 := by linarith
      exact .inl (by exact_mod_cast hf)
    · rintro (rfl | hge)
      · simp
      · omega
  · next hge =>
    refine ⟨fun _ => .inr (by omega), fun _ => ?_⟩
    ring

theorem printedNumber_eq (h : n * 100 < 2 ^ 63) :
    printedNumber (byteCountAsString n) = decimal (digits n (ByteUnit.of n)) ∧
      (byteCountAsString n).toList.dropWhile (· ≠ ' ') = ' ' :: (ByteUnit.of n).name := by
  obtain ⟨htake, hdrop⟩ := takeWhile_append_cons (r := (ByteUnit.of n).name)
    (mem_digits (n := n) (u := ByteUnit.of n) (c := ' ') (by decide) (by decide))
  rw [printedNumber, toList_byteCountAsString h, htake, hdrop]
  exact ⟨rfl, rfl⟩

theorem exact_iff_of_lt (h : n * 100 < 2 ^ 63) : Exact n (byteCountAsString n) ↔ Plain n := by
  obtain ⟨hnumber, hunit⟩ := printedNumber_eq h
  rw [Exact, hnumber, hunit, Plain, ← decimal_digits_eq_iff]
  constructor
  · rintro ⟨u, hname, hexact⟩
    obtain rfl := ByteUnit.name_injective (List.cons.inj hname).2
    exact hexact
  · intro hexact
    exact ⟨_, rfl, hexact⟩

/-- Where the printed numbers are exact, a larger size in the same unit is no smaller number. -/
theorem printedNumber_mono {m : Nat} (hunit : ByteUnit.of m = ByteUnit.of n) (hle : m ≤ n)
    (hn : n * 100 < 2 ^ 63) (hplain : Plain m) (hplain' : Plain n) :
    printedNumber (byteCountAsString m) ≤ printedNumber (byteCountAsString n) := by
  rw [(printedNumber_eq (n := m) (by omega)).1, (printedNumber_eq hn).1,
    (decimal_digits_eq_iff m _).2 hplain, (decimal_digits_eq_iff n _).2 hplain', hunit]
  have hdiv : 100 * m / (ByteUnit.of n).size ≤ 100 * n / (ByteUnit.of n).size :=
    Nat.div_le_div_right (Nat.mul_le_mul_left 100 hle)
  have hcast : ((100 * m / (ByteUnit.of n).size : Nat) : ℚ) ≤
      (100 * n / (ByteUnit.of n).size : Nat) := Nat.cast_le.2 hdiv
  linarith

/-- One to nine hundredths are printed without their zero, so they are read as tenths. -/
theorem exact_iff_plain (h : n * 100 < 2 ^ 63) :
    (Exact n (byteCountAsString n) ↔ Plain n) ∧
      ∀ m : Nat, m ≤ n → ByteUnit.of m = ByteUnit.of n → Plain m → Plain n →
        printedNumber (byteCountAsString m) ≤ printedNumber (byteCountAsString n) :=
  ⟨exact_iff_of_lt h,
    fun _ hle hunit hplain hplain' => printedNumber_mono hunit hle h hplain hplain'⟩

theorem exact_iff_plain_megabytes :
    Exact 3000000 (byteCountAsString 3000000) ∧
      printedNumber (byteCountAsString 1572864) ≤ printedNumber (byteCountAsString 3000000) :=
  ⟨(exact_iff_plain (n := 3000000) (by decide)).1.2 (by decide),
    (exact_iff_plain (n := 3000000) (by decide)).2 1572864 (by decide) rfl (by decide) (by decide)⟩

/-- "1.9 KB" is read as more than "1.10 KB". -/
theorem not_exact_hundredths :
    ¬Exact 1117 (byteCountAsString 1117) ∧
      printedNumber (byteCountAsString 1127) < printedNumber (byteCountAsString 1117) := by
  refine ⟨(exact_iff_of_lt (by decide)).not.2 (by decide), ?_⟩
  have hless : ByteUnit.of 1117 = .kb := rfl
  have hmore : ByteUnit.of 1127 = .kb := rfl
  have htenths : printedNumber (byteCountAsString 1117) = 1 + 9 / 10 := by
    refine (printedNumber_eq (n := 1117) (by decide)).1.trans ?_
    rw [hless, decimal_digits]
    norm_num [ByteUnit.size]
  have hhundredths : printedNumber (byteCountAsString 1127) = 1 + 10 / 100 := by
    refine (printedNumber_eq (n := 1127) (by decide)).1.trans ?_
    rw [hmore, decimal_digits]
    norm_num [ByteUnit.size]
  rw [htenths, hhundredths]
  norm_num

end Exact

end Utlib.Strings
