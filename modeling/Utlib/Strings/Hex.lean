import Utlib.Strtol

/-! `hexstr` and `parseHex` (support/Strings.cpp). -/

namespace Utlib.Strings

open Numeral Strtol

/-- `(char)(nibble < 10 ? '0' + nibble : 'a' + (nibble - 10))` -/
def nibbleChar (nibble : Int64) : Char :=
  let code := if nibble < 10 then Int64.ofNat '0'.toNat + nibble
    else Int64.ofNat 'a'.toNat + (nibble - 10)
  Char.ofNat code.toNatClampNeg

/-- The loop of `hexstr`, which fills the string from behind -/
def hexstrLoop : Nat → Int64 → List Char → List Char
  | 0, _, str => str
  | i + 1, number, str => hexstrLoop i (number >>> 4) (nibbleChar (number &&& 0xF) :: str)

/-- `hexstr<digits>(number)` -/
def hexstr (digits : Nat) (number : Int64) : List Char := hexstrLoop digits number []

/-- Whether it succeeds, and what `result` points to afterwards -/
def parseHex (s : List Char) (result : Int64) : Bool × Int64 :=
  match stoll s 16 with
  | .ok (num, pos) => if pos = s.length then (true, Int64.ofInt num) else (false, result)
  | .error _ => (false, result)

example : hexstr 8 (-2) = "fffffffe".toList := by decide

section Nibbles

theorem toInt_shiftRight_four (n : Int64) : (n >>> 4).toInt = n.toInt / 16 := by
  have hshift : (n >>> 4).toBitVec = n.toBitVec.sshiftRight 4 := rfl
  rw [← Int64.toInt_toBitVec, hshift, BitVec.toInt_sshiftRight, Int.shiftRight_eq_div_pow]
  rfl

theorem toInt_and_fifteen (n : Int64) : (n &&& 0xF).toInt = n.toInt % 16 := by
  have hnat : (n &&& 0xF).toBitVec.toNat = n.toBitVec.toNat % 16 := by
    have hand : (n &&& 0xF).toBitVec = n.toBitVec &&& 15#64 := rfl
    rw [hand, BitVec.toNat_and]
    exact Nat.and_two_pow_sub_one_eq_mod n.toBitVec.toNat 4
  have hlt := Nat.mod_lt n.toBitVec.toNat (show 0 < 16 by decide)
  rw [← Int64.toInt_toBitVec, ← Int64.toInt_toBitVec, BitVec.toInt_eq_toNat_bmod, hnat,
    BitVec.toInt_eq_toNat_cond, Int.bmod_eq_of_le (by omega) (by omega)]
  split <;> omega

theorem nibbleChar_eq {nibble : Int64} {k : Nat} (hk : k < 16) (h : nibble.toInt = k) :
    nibbleChar nibble = Nat.digitChar k := by
  have hall : ∀ k : Fin 16, nibbleChar (Int64.ofInt k.val) = Nat.digitChar k.val := by decide
  have hchar := hall ⟨k, hk⟩
  rwa [← h, Int64.ofInt_toInt] at hchar

end Nibbles

section Hexstr

/-- The digits are those of any natural number that differs by a multiple of `16 ^ digits`. -/
theorem hexstrLoop_eq {digits m : Nat} {n : Int64} {q : Int} (h : n.toInt = m + 16 ^ digits * q)
    (str : List Char) : hexstrLoop digits n str = places 16 digits m ++ str := by
  induction digits generalizing m n str with
  | zero => rfl
  | succ i ih =>
    have hsplit : n.toInt = m + 16 * (16 ^ i * q) := by rw [h, pow_succ', Int.mul_assoc]
    have hrest : (n >>> 4).toInt = (m / 16 : Nat) + 16 ^ i * q := by
      rw [toInt_shiftRight_four, hsplit]
      omega
    have hlast : (n &&& 0xF).toInt = (m % 16 : Nat) := by
      rw [toInt_and_fifteen, hsplit]
      omega
    rw [hexstrLoop, ih hrest, nibbleChar_eq (Nat.mod_lt m (by decide)) hlast, places,
      List.append_assoc]
    rfl

theorem hexstr_eq {digits m : Nat} {n : Int64} {q : Int} (h : n.toInt = m + 16 ^ digits * q) :
    hexstr digits n = places 16 digits m := by
  rw [hexstr, hexstrLoop_eq h, List.append_nil]

end Hexstr

section ParseHex

variable {digits m : Nat}

theorem hexPrefixed_places (digits m : Nat) : hexPrefixed (places 16 digits m) = false := by
  rw [Bool.eq_false_iff, Ne, hexPrefixed_iff]
  rintro ⟨x, d, t, hplaces, hx, -⟩
  have hdigit : IsDigit 16 x :=
    isDigit_of_mem_places (by decide) (by decide) (by rw [hplaces]; simp : x ∈ places 16 digits m)
  rcases hx with rfl | rfl
  · exact absurd hdigit (by decide)
  · exact absurd hdigit (by decide)

/-- All of the digits are read. -/
def placesReading (hdigits : 0 < digits) (m : Nat) : Reading 16 (places 16 digits m) where
  spaces := []
  sign := []
  lead := []
  radix := 16
  digits := places 16 digits m
  tail := []
  text_eq := (List.append_nil _).symm
  isSpace_of_mem := nofun
  sign_eq := .inl rfl
  selects := .fixed (by decide) fun _ => by rw [List.append_nil, hexPrefixed_places]
  ne_nil := List.ne_nil_of_length_pos (by rwa [length_places])
  isDigit_of_mem := fun _ hc => isDigit_of_mem_places (by decide) (by decide) hc
  longest := nofun

theorem parseHex_places (hdigits : 0 < digits) (hm : m < 16 ^ digits) (result : Int64) :
    parseHex (places 16 digits m) result =
      if m < 2 ^ 63 then (true, Int64.ofInt m) else (false, result) := by
  have hvalue : (placesReading hdigits m).value = m := by
    have hplaces : value 16 (places 16 digits m) = m := by
      rw [value_places (by decide) (by decide), Nat.mod_eq_of_lt hm]
    have hsign : (placesReading hdigits m).sign ≠ ['-'] := (List.cons_ne_nil '-' []).symm
    rw [Reading.value, if_neg hsign]
    exact congrArg Int.ofNat hplaces
  have hstoll := (placesReading hdigits m).stoll_eq
  rw [hvalue] at hstoll
  rw [parseHex, hstoll]
  by_cases hfits : m < 2 ^ 63
  · have hlong : FitsLong m := ⟨by omega, by omega⟩
    rw [if_pos hlong, if_pos hfits]
    exact if_pos (Nat.sub_zero _)
  · have hlong : ¬FitsLong m := fun h => hfits (by have := h.2; omega)
    rw [if_neg hlong, if_neg hfits]

/-- Whatever `result` points to before -/
def ParsesHexstr (digits : Nat) (n : Int64) : Prop :=
  ∀ result, parseHex (hexstr digits n) result = (true, n)

theorem parsesHexstr_of_nonneg (hdigits : 0 < digits) {n : Int64} (hn : 0 ≤ n.toInt)
    (hlt : n.toInt < 16 ^ digits) : ParsesHexstr digits n := by
  intro result
  obtain ⟨m, hm⟩ := Int.eq_ofNat_of_zero_le hn
  have hbound := n.toInt_lt
  rw [hm] at hlt hbound
  have htext : hexstr digits n = places 16 digits m :=
    hexstr_eq (q := 0) (by rw [hm, Int.mul_zero, Int.add_zero])
  rw [htext, parseHex_places hdigits (by exact_mod_cast hlt), if_pos (by omega), ← hm,
    Int64.ofInt_toInt]

/-- A negative number has the digits of a number that is too large. -/
theorem parseHex_hexstr_of_neg {n : Int64} (hn : n.toInt < 0) (result : Int64) :
    parseHex (hexstr 16 n) result = (false, result) := by
  have hbound := n.le_toInt
  obtain ⟨m, hm⟩ := Int.eq_ofNat_of_zero_le (show 0 ≤ n.toInt + 2 ^ 64 by omega)
  have htext : hexstr 16 n = places 16 16 m :=
    hexstr_eq (q := -1) (by omega)
  rw [htext, parseHex_places (by decide) (by omega), if_neg (by omega)]

theorem parseHex_hexstr :
    (∀ n : Int64, (0 ≤ n → ParsesHexstr 16 n) ∧
      (n < 0 → ∀ result, parseHex (hexstr 16 n) result = (false, result))) ∧
      ∀ digits ∈ [1, 2, 4, 6, 8], ∀ n : Int64, 0 ≤ n → n.toInt < 16 ^ digits →
        ParsesHexstr digits n := by
  refine ⟨fun n => ⟨fun hn => ?_, fun hn => ?_⟩, fun digits hdigits n hn hlt => ?_⟩
  · have hbound := n.toInt_lt
    exact parsesHexstr_of_nonneg (by decide) (Int64.le_iff_toInt_le.1 hn) (by omega)
  · exact parseHex_hexstr_of_neg (Int64.lt_iff_toInt_lt.1 hn)
  · have hpos : ∀ d ∈ [1, 2, 4, 6, 8], 0 < d := by decide
    exact parsesHexstr_of_nonneg (hpos digits hdigits) (Int64.le_iff_toInt_le.1 hn) hlt

theorem parseHex_hexstr_255 :
    ParsesHexstr 16 255 ∧ parseHex (hexstr 16 (-255)) 7 = (false, 7) ∧ ParsesHexstr 2 255 :=
  ⟨(parseHex_hexstr.1 255).1 (by decide), (parseHex_hexstr.1 (-255)).2 (by decide) 7,
    parseHex_hexstr.2 2 (by decide) 255 (by decide) (by decide)⟩

/-- "ffffffffffffffff" is not read as -1. -/
theorem not_parsesHexstr_minus_one : ¬ParsesHexstr 16 (-1) := by
  intro h
  have hparsed := h 0
  rw [parseHex_hexstr_of_neg (by decide)] at hparsed
  exact absurd hparsed (by decide)

end ParseHex

end Utlib.Strings
