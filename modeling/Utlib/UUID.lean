import Utlib.BigEndian
import Utlib.Numeral

/-! `utl::UUID` (types/UUID.h, types/UUID.cpp): the text of a UUID, and its order. -/

namespace Utlib

open Numeral

structure UUID where
  high : UInt64 := 0
  low : UInt64 := 0
  deriving DecidableEq

namespace UUID

/-- The defaulted `operator<=>` -/
instance : LT UUID := ⟨fun u v => u.high < v.high ∨ u.high = v.high ∧ u.low < v.low⟩

/-- `std::hex << std::setfill('0') << std::setw(w) << n` -/
def hexField (w n : Nat) : List Char := (Nat.toDigits 16 n).leftpad w '0'

def toString (u : UUID) : List Char :=
  hexField 8 (u.high >>> 32).toUInt32.toNat ++ ['-'] ++
  hexField 4 (u.high >>> 16).toUInt16.toNat ++ ['-'] ++
  hexField 4 u.high.toUInt16.toNat ++ ['-'] ++
  hexField 4 (u.low >>> 48).toUInt16.toNat ++ ['-'] ++
  hexField 12 (u.low &&& 0x0000FFFFFFFFFFFF).toNat

/-- `std::invalid_argument` -/
structure InvalidArgument where
  what : String

/-- The loop of `fromString` -/
def removeDashes (hex : List Char) : List Char → Except InvalidArgument (List Char)
  | [] => .ok hex
  | c :: str =>
    if c = '-' then removeDashes hex str
    else if ¬IsDigit 16 c then .error ⟨"Invalid UUID string"⟩
    else removeDashes (hex ++ [c]) str

def shiftDigit (value : UInt64) (c : Char) : UInt64 :=
  let value := value <<< 4
  if '0' ≤ c ∧ c ≤ '9' then value ||| UInt64.ofNat (c.toNat - '0'.toNat)
  else if 'a' ≤ c ∧ c ≤ 'f' then value ||| UInt64.ofNat (c.toNat - 'a'.toNat + 10)
  else if 'A' ≤ c ∧ c ≤ 'F' then value ||| UInt64.ofNat (c.toNat - 'A'.toNat + 10)
  else value

def hexToUint64 (s : List Char) : UInt64 := s.foldl shiftDigit 0

def fromString (str : List Char) : Except InvalidArgument UUID :=
  if str = [] ∨ str = ['0'] then .ok {}
  else do
    let hex ← removeDashes [] str
    if hex.length ≠ 32 then return {}
    return ⟨hexToUint64 (hex.take 16), hexToUint64 ((hex.drop 16).take 16)⟩

section Text

/-- The 8-4-4-4-12 shape -/
def dashed (ds : List Char) : List Char :=
  ds.take 8 ++ '-' :: ((ds.drop 8).take 4 ++ '-' :: ((ds.drop 12).take 4 ++
    '-' :: ((ds.drop 16).take 4 ++ '-' :: ds.drop 20)))

def digits (u : UUID) : List Char := places 16 16 u.high.toNat ++ places 16 16 u.low.toNat

theorem length_digits (u : UUID) : u.digits.length = 32 := by
  rw [digits, List.length_append, length_places, length_places]

theorem isDigit_of_mem_digits {u : UUID} {c : Char} (hc : c ∈ u.digits) : IsDigit 16 c := by
  rcases List.mem_append.1 hc with hc | hc
  · exact isDigit_of_mem_places (by decide) (by decide) hc
  · exact isDigit_of_mem_places (by decide) (by decide) hc

theorem dashed_append {as bs cs ds : List Char} (ha : as.length = 8) (hb : bs.length = 4)
    (hc : cs.length = 4) (hd : ds.length = 4) (es : List Char) :
    dashed (as ++ (bs ++ (cs ++ (ds ++ es)))) =
      as ++ '-' :: (bs ++ '-' :: (cs ++ '-' :: (ds ++ '-' :: es))) := by
  have hdrop : ∀ {xs ys : List Char} {m n : Nat}, xs.length = m →
      (xs ++ ys).drop (m + n) = ys.drop n := by
    rintro xs ys _ n rfl
    rw [← List.drop_drop, List.drop_left]
  have htwo : (bs ++ (cs ++ (ds ++ es))).drop 4 = cs ++ (ds ++ es) := List.drop_left' hb
  have hthree : (bs ++ (cs ++ (ds ++ es))).drop 8 = ds ++ es :=
    (hdrop hb : _ = List.drop 4 _).trans (List.drop_left' hc)
  have hfour : (bs ++ (cs ++ (ds ++ es))).drop 12 = es :=
    (hdrop hb : _ = List.drop 8 _).trans ((hdrop hc : _ = List.drop 4 _).trans (List.drop_left' hd))
  rw [dashed, List.take_left' ha, List.drop_left' ha, hdrop ha (n := 4), hdrop ha (n := 8),
    hdrop ha (n := 12), htwo, hthree, hfour, List.take_left' hb, List.take_left' hc,
    List.take_left' hd]

theorem hexField_mod (w n : Nat) :
    hexField (w + 1) (n % 16 ^ (w + 1)) = places 16 (w + 1) n := by
  rw [hexField, leftpad_toDigits (by decide) (Nat.mod_lt n (by positivity)), places_mod]

theorem toString_eq (u : UUID) : u.toString = dashed u.digits := by
  have hhigh : places 16 16 u.high.toNat = places 16 8 (u.high.toNat / 2 ^ 32) ++
      (places 16 4 (u.high.toNat / 2 ^ 16) ++ places 16 4 u.high.toNat) :=
    (places_add 8 8 _).trans (congrArg _ (places_add 4 4 _))
  have hlow : places 16 16 u.low.toNat =
      places 16 4 (u.low.toNat / 2 ^ 48) ++ places 16 12 u.low.toNat := places_add 4 12 _
  have hfields : u.toString =
      hexField 8 (u.high.toNat / 2 ^ 32 % 16 ^ 8) ++ ['-'] ++
      hexField 4 (u.high.toNat / 2 ^ 16 % 16 ^ 4) ++ ['-'] ++
      hexField 4 (u.high.toNat % 16 ^ 4) ++ ['-'] ++
      hexField 4 (u.low.toNat / 2 ^ 48 % 16 ^ 4) ++ ['-'] ++
      hexField 12 (u.low.toNat % 16 ^ 12) := by
    have hmask : (u.low &&& 0x0000FFFFFFFFFFFF).toNat = u.low.toNat % 16 ^ 12 :=
      (UInt64.toNat_and _ _).trans (Nat.and_two_pow_sub_one_eq_mod _ 48)
    rw [toString, hmask]
    simp [Nat.shiftRight_eq_div_pow]
  have hdigits : u.digits = places 16 8 (u.high.toNat / 2 ^ 32) ++
      (places 16 4 (u.high.toNat / 2 ^ 16) ++ (places 16 4 u.high.toNat ++
        (places 16 4 (u.low.toNat / 2 ^ 48) ++ places 16 12 u.low.toNat))) := by
    rw [digits, hhigh, hlow, List.append_assoc, List.append_assoc]
  rw [hfields, hdigits,
    dashed_append (length_places _) (length_places _) (length_places _) (length_places _)]
  simp only [hexField_mod, List.append_assoc, List.cons_append, List.nil_append]

theorem filter_dashed {ds : List Char} (h : '-' ∉ ds) : (dashed ds).filter (· ≠ '-') = ds := by
  have hkeep (xs : List Char) (hxs : ∀ c ∈ xs, c ∈ ds) : xs.filter (· ≠ '-') = xs := by
    rw [List.filter_eq_self]
    intro c hc
    rw [decide_eq_true_iff]
    rintro rfl
    exact h (hxs _ hc)
  have hpart (i n : Nat) : ((ds.drop i).take n).filter (· ≠ '-') = (ds.drop i).take n :=
    hkeep _ fun c hc => List.mem_of_mem_drop (List.mem_of_mem_take hc)
  have hjoin (i n : Nat) : (ds.drop i).take n ++ ds.drop (i + n) = ds.drop i := by
    rw [← List.drop_drop, List.take_append_drop]
  have hdash (xs : List Char) : ('-' :: xs).filter (· ≠ '-') = xs.filter (· ≠ '-') := rfl
  simp only [dashed, List.filter_append, hdash, hpart]
  rw [hkeep _ fun c hc => List.mem_of_mem_take hc, hkeep _ fun c hc => List.mem_of_mem_drop hc,
    hjoin 16 4, hjoin 12 4, hjoin 8 4, List.take_append_drop]

end Text

section Reading

theorem removeDashes_eq {str : List Char} (h : ∀ c ∈ str, c ≠ '-' → IsDigit 16 c)
    (hex : List Char) : removeDashes hex str = .ok (hex ++ str.filter (· ≠ '-')) := by
  induction str generalizing hex with
  | nil =>
    rw [removeDashes, List.filter_nil, List.append_nil]
  | cons c str ih =>
    have hrest := ih fun d hd => h d (List.mem_cons_of_mem _ hd)
    rw [removeDashes]
    by_cases hc : c = '-'
    · rw [if_pos hc, hrest, List.filter_cons_of_neg (by simpa using hc)]
    · rw [if_neg hc, if_neg (not_not.2 (h c List.mem_cons_self hc)), hrest,
        List.filter_cons_of_pos (by simpa using hc), List.append_assoc, List.singleton_append]

theorem fromString_eq {str : List Char} (h : ∀ c ∈ str, c ≠ '-' → IsDigit 16 c)
    (hlen : (str.filter (· ≠ '-')).length = 32) :
    fromString str = .ok ⟨hexToUint64 ((str.filter (· ≠ '-')).take 16),
      hexToUint64 ((str.filter (· ≠ '-')).drop 16)⟩ := by
  have hshort : ¬(str = [] ∨ str = ['0']) := by
    rintro (rfl | rfl)
    · cases hlen
    · cases hlen
  have htake : ((str.filter (· ≠ '-')).drop 16).take 16 = (str.filter (· ≠ '-')).drop 16 := by
    apply List.take_of_length_le
    rw [List.length_drop, hlen]
  rw [fromString, if_neg hshort, removeDashes_eq h]
  simp only [bind, Except.bind, List.nil_append, hlen, ne_eq, not_true_eq_false, if_false, htake,
    pure, Except.pure]

theorem le_of_toNat_le {c d : Char} (h : c.toNat ≤ d.toNat) : c ≤ d := UInt32.le_iff_toNat_le.2 h

theorem shiftDigit_eq (value : UInt64) {c : Char} {d : Nat} (hd : digitValue c = some d)
    (hlt : d < 16) : shiftDigit value c = value <<< UInt64.ofNat 4 ||| UInt64.ofNat d := by
  unfold digitValue at hd
  rw [shiftDigit]
  split at hd
  · next hrange =>
    cases hd
    rw [if_pos hrange]
    rfl
  · next hdecimal =>
    rw [if_neg hdecimal]
    split at hd
    · next hrange =>
      cases hd
      have hle : c.toNat ≤ 'f'.toNat := by
        change c.toNat - 97 + 10 < 16 at hlt
        change c.toNat ≤ 102
        omega
      rw [if_pos ⟨hrange.1, le_of_toNat_le hle⟩]
      rfl
    · next hlower =>
      split at hd
      · next hrange =>
        cases hd
        have hle : c.toNat ≤ 'F'.toNat := by
          change c.toNat - 65 + 10 < 16 at hlt
          change c.toNat ≤ 70
          omega
        have hnot : ¬('a' ≤ c ∧ c ≤ 'f') := fun h => hlower ⟨h.1, Char.le_trans h.2 (by decide)⟩
        rw [if_neg hnot, if_pos ⟨hrange.1, le_of_toNat_le hle⟩]
        rfl
      · cases hd

theorem toNat_shiftDigit (value : UInt64) {c : Char} (h : IsDigit 16 c) :
    (shiftDigit value c).toNat = (16 * value.toNat + (digitValue c).getD 0) % 2 ^ 64 := by
  obtain ⟨d, hd, hlt⟩ := h
  have hnat : (UInt64.ofNat d).toNat = d := by
    rw [UInt64.toNat_ofNat']
    omega
  rw [shiftDigit_eq value hd hlt, BigEndian.toNat_shiftIn _ (by decide) (by omega), hnat, hd,
    Nat.mul_comm]
  rfl

/-- Sixteen digits fit into 64 bits. -/
theorem toNat_hexToUint64 {cs : List Char} (h : ∀ c ∈ cs, IsDigit 16 c) (hlen : cs.length ≤ 16) :
    (hexToUint64 cs).toNat = value 16 cs := by
  induction cs using List.reverseRecOn with
  | nil => rfl
  | append_singleton cs c ih =>
    rw [List.length_append, List.length_singleton] at hlen
    have hvalue := value_lt h
    have hpow : 16 ^ (cs ++ [c]).length ≤ 2 ^ 64 := by
      refine (Nat.pow_le_pow_right (by decide) (?_ : _ ≤ 16)).trans (by decide)
      rwa [List.length_append, List.length_singleton]
    have hlast : hexToUint64 (cs ++ [c]) = shiftDigit (hexToUint64 cs) c := by
      rw [hexToUint64, List.foldl_append]
      rfl
    rw [hlast, toNat_shiftDigit _ (h c (by simp)), ih (fun d hd => h d (by simp [hd])) (by omega),
      ← value_concat, Nat.mod_eq_of_lt (hvalue.trans_le hpow)]

end Reading

section Encoding

/-- What is read are the digits. -/
theorem toString_mk {ds : List Char} (h : ∀ c ∈ ds, IsDigit 16 c) (hlen : ds.length = 32) :
    toString ⟨hexToUint64 (ds.take 16), hexToUint64 (ds.drop 16)⟩ =
      dashed (ds.map Char.toLower) := by
  have hplaces {cs : List Char} (hcs : ∀ c ∈ cs, IsDigit 16 c) (hlen : cs.length = 16) :
      places 16 16 (hexToUint64 cs).toNat = cs.map Char.toLower := by
    have hvalue := places_value hcs
    rw [hlen] at hvalue
    rw [toNat_hexToUint64 hcs hlen.le, hvalue]
    exact List.map_congr_left fun c hc => digitChar_digitValue (hcs c hc)
  rw [toString_eq, digits, hplaces (fun c hc => h c (List.mem_of_mem_take hc)),
    hplaces (fun c hc => h c (List.mem_of_mem_drop hc)), ← List.map_append, List.take_append_drop]
  · rw [List.length_drop, hlen]
  · rw [List.length_take, hlen]
    rfl

theorem toNat_lt_pow (x : UInt64) : x.toNat < 16 ^ 16 := x.toNat_lt.trans_eq (by norm_num)

theorem fromString_toString (u : UUID) : fromString u.toString = .ok u := by
  have hdash : '-' ∉ u.digits := fun hc => absurd (isDigit_of_mem_digits hc) (by decide)
  have hfilter := filter_dashed hdash
  have hchars : ∀ c ∈ dashed u.digits, c ≠ '-' → IsDigit 16 c := by
    intro c hc hne
    have hmem : c ∈ (dashed u.digits).filter (· ≠ '-') :=
      List.mem_filter.2 ⟨hc, decide_eq_true hne⟩
    rw [hfilter] at hmem
    exact isDigit_of_mem_digits hmem
  have hword (x : UInt64) : hexToUint64 (places 16 16 x.toNat) = x := by
    apply UInt64.toNat_inj.1
    have hdigit : ∀ c ∈ places 16 16 x.toNat, IsDigit 16 c :=
      fun c hc => isDigit_of_mem_places (by decide) (by decide) hc
    rw [toNat_hexToUint64 hdigit (length_places _).le, value_places (by decide) (by decide)]
    exact Nat.mod_eq_of_lt (toNat_lt_pow x)
  have hhigh : u.digits.take 16 = places 16 16 u.high.toNat := List.take_left' (length_places _)
  have hlow : u.digits.drop 16 = places 16 16 u.low.toNat := List.drop_left' (length_places _)
  rw [toString_eq, fromString_eq hchars (by rw [hfilter, length_digits]), hfilter, hhigh, hlow,
    hword, hword]

theorem dash_lt_iff {xs ys us vs us' vs' : List Char} (hlen : xs.length = ys.length)
    (h : us' < vs' ↔ us < vs) : xs ++ '-' :: us' < ys ++ '-' :: vs' ↔ xs ++ us < ys ++ vs := by
  rw [append_lt_append_iff hlen, append_lt_append_iff hlen, List.cons_lt_cons_iff, h]
  simp

theorem dashed_lt_iff {ds es : List Char} (hlen : ds.length = es.length) :
    dashed ds < dashed es ↔ ds < es := by
  have hparts (i n : Nat) : ((ds.drop i).take n).length = ((es.drop i).take n).length := by
    rw [List.length_take, List.length_take, List.length_drop, List.length_drop, hlen]
  have hjoin (xs : List Char) (i n : Nat) :
      (xs.drop i).take n ++ xs.drop (i + n) = xs.drop i := by
    rw [← List.drop_drop, List.take_append_drop]
  have hfourth := dash_lt_iff (hparts 16 4) (Iff.rfl : ds.drop 20 < es.drop 20 ↔ _)
  rw [hjoin ds 16 4, hjoin es 16 4] at hfourth
  have hthird := dash_lt_iff (hparts 12 4) hfourth
  rw [hjoin ds 12 4, hjoin es 12 4] at hthird
  have hsecond := dash_lt_iff (hparts 8 4) hthird
  rw [hjoin ds 8 4, hjoin es 8 4] at hsecond
  have hfirst := dash_lt_iff (hparts 0 8) hsecond
  rw [hjoin ds 0 8, hjoin es 0 8] at hfirst
  exact hfirst

theorem digits_lt_iff (u v : UUID) : u.digits < v.digits ↔ u < v := by
  have hword (x y : UInt64) : places 16 16 x.toNat < places 16 16 y.toNat ↔ x < y :=
    places_lt_iff (by decide) (by decide) (toNat_lt_pow x) (toNat_lt_pow y)
  have heq (x y : UInt64) : places 16 16 x.toNat = places 16 16 y.toNat ↔ x = y :=
    (places_inj (by decide) (by decide) (toNat_lt_pow x) (toNat_lt_pow y)).trans
      UInt64.toNat_inj
  rw [digits, digits, append_lt_append_iff (by simp), hword, hword, heq]
  rfl

def IsLowerHex (c : Char) : Prop := '0' ≤ c ∧ c ≤ '9' ∨ 'a' ≤ c ∧ c ≤ 'f'

def Canonical (text : List Char) : Prop :=
  ∃ ds, ds.length = 32 ∧ (∀ c ∈ ds, IsLowerHex c) ∧ text = dashed ds

theorem isLowerHex_of_mem_digits {u : UUID} {c : Char} (hc : c ∈ u.digits) : IsLowerHex c := by
  have hall : ∀ k : Fin 16, '0' ≤ Nat.digitChar k ∧ Nat.digitChar k ≤ '9' ∨
      'a' ≤ Nat.digitChar k ∧ Nat.digitChar k ≤ 'f' := by decide
  rcases List.mem_append.1 hc with hc | hc
  · obtain ⟨k, hk, rfl⟩ := exists_of_mem_places (by decide) hc
    exact hall ⟨k, hk⟩
  · obtain ⟨k, hk, rfl⟩ := exists_of_mem_places (by decide) hc
    exact hall ⟨k, hk⟩

/-- The text of a UUID has the canonical shape and stands for that UUID alone, texts are ordered as
the UUIDs are, and every text with the right number of digits is read by these. -/
theorem text_faithful :
    (∀ u : UUID, fromString u.toString = .ok u ∧ Canonical u.toString) ∧
    (∀ u v : UUID, u < v ↔ u.toString < v.toString) ∧
    (∀ str : List Char, (∀ c ∈ str, c ≠ '-' → IsDigit 16 c) →
      (str.filter (· ≠ '-')).length = 32 →
      ∃ u, fromString str = .ok u ∧
        u.toString = dashed ((str.filter (· ≠ '-')).map Char.toLower)) := by
  refine ⟨fun u => ⟨fromString_toString u, ?_⟩, fun u v => ?_, fun str hdigits hlen => ?_⟩
  · exact ⟨u.digits, length_digits u, fun c hc => isLowerHex_of_mem_digits hc, toString_eq u⟩
  · rw [toString_eq, toString_eq, dashed_lt_iff (by rw [length_digits, length_digits]),
      digits_lt_iff]
  · refine ⟨_, fromString_eq hdigits hlen, toString_mk (fun c hc => ?_) hlen⟩
    obtain ⟨hmem, hne⟩ := List.mem_filter.1 hc
    exact hdigits c hmem (of_decide_eq_true hne)

theorem text_faithful_mixed :
    ∃ u, fromString "-0123-456789ABcdef000000000000fFfF--".toList = .ok u ∧
      u.toString = "01234567-89ab-cdef-0000-00000000ffff".toList := by
  have hall : ("-0123-456789ABcdef000000000000fFfF--".toList.all
      fun c => c = '-' ∨ IsDigit 16 c) = true := by decide
  refine text_faithful.2.2 "-0123-456789ABcdef000000000000fFfF--".toList (fun c hc => ?_)
    (by decide)
  exact (of_decide_eq_true (List.all_eq_true.1 hall c hc)).resolve_left

end Encoding

end UUID

end Utlib
