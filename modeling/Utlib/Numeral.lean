import Mathlib.Algebra.Order.Ring.Nat
import Mathlib.Data.List.Induction
import Mathlib.Order.Lattice

/-! Numerals with a fixed number of digits: what they are read as, and how they are ordered. -/

namespace Utlib.Numeral

/-- `0` to `9`, then the letters in either case. -/
def digitValue (c : Char) : Option Nat :=
  if '0' ≤ c ∧ c ≤ '9' then some (c.toNat - '0'.toNat)
  else if 'a' ≤ c ∧ c ≤ 'z' then some (c.toNat - 'a'.toNat + 10)
  else if 'A' ≤ c ∧ c ≤ 'Z' then some (c.toNat - 'A'.toNat + 10)
  else none

def IsDigit (b : Nat) (c : Char) : Prop := ∃ d, digitValue c = some d ∧ d < b

instance (b : Nat) (c : Char) : Decidable (IsDigit b c) :=
  decidable_of_iff ((digitValue c).any (· < b) = true) (by simp [IsDigit, Option.any_eq_true])

def value (b : Nat) (cs : List Char) : Nat :=
  cs.foldl (fun n c => b * n + (digitValue c).getD 0) 0

/-- The last `w` digits of a number. -/
def places (b : Nat) : Nat → Nat → List Char
  | 0, _ => []
  | w + 1, n => places b w (n / b) ++ [Nat.digitChar (n % b)]

section Digits

theorem digitValue_digitChar {k : Nat} (hk : k < 16) : digitValue (Nat.digitChar k) = some k := by
  have hall : ∀ k : Fin 16, digitValue (Nat.digitChar k) = some k.val := by decide
  exact hall ⟨k, hk⟩

theorem digitValue_toUpper_digitChar {k : Nat} (hk : k < 16) :
    digitValue (Nat.digitChar k).toUpper = some k := by
  have hall : ∀ k : Fin 16, digitValue (Nat.digitChar k).toUpper = some k.val := by decide
  exact hall ⟨k, hk⟩

theorem lt_of_isDigit {b : Nat} {c : Char} (h : IsDigit b c) : (digitValue c).getD 0 < b := by
  obtain ⟨d, hd, hlt⟩ := h
  rwa [hd, Option.getD_some]

/-- The digits of a stream are in lower case. -/
theorem digitChar_digitValue {c : Char} (h : IsDigit 16 c) :
    Nat.digitChar ((digitValue c).getD 0) = c.toLower := by
  have hall : ∀ n : Fin 128, IsDigit 16 (Char.ofNat n) →
      Nat.digitChar ((digitValue (Char.ofNat n)).getD 0) = (Char.ofNat n).toLower := by
    decide +kernel
  have hlt : c.toNat < 128 := by
    obtain ⟨d, hd, -⟩ := h
    unfold digitValue at hd
    split at hd
    · next hrange => exact lt_of_le_of_lt (UInt32.le_iff_toNat_le.1 hrange.2) (by decide)
    · split at hd
      · next hrange => exact lt_of_le_of_lt (UInt32.le_iff_toNat_le.1 hrange.2) (by decide)
      · split at hd
        · next hrange => exact lt_of_le_of_lt (UInt32.le_iff_toNat_le.1 hrange.2) (by decide)
        · cases hd
  have hc := hall ⟨c.toNat, hlt⟩
  rw [Char.ofNat_toNat] at hc
  exact hc h

theorem isDigit_digitChar {b k : Nat} (hb : b ≤ 16) (hk : k < b) : IsDigit b (Nat.digitChar k) :=
  ⟨k, digitValue_digitChar (by omega), hk⟩

theorem digitChar_lt_iff {k l : Nat} (hk : k < 16) (hl : l < 16) :
    Nat.digitChar k < Nat.digitChar l ↔ k < l := by
  have hall : ∀ k l : Fin 16, Nat.digitChar k < Nat.digitChar l ↔ k.val < l.val := by decide
  exact hall ⟨k, hk⟩ ⟨l, hl⟩

end Digits

section Places

variable {b w : Nat}

@[simp] theorem length_places (n : Nat) : (places b w n).length = w := by
  induction w generalizing n with
  | zero => rfl
  | succ w ih => rw [places, List.length_append, ih, List.length_singleton]

theorem places_add (m n v : Nat) :
    places b (m + n) v = places b m (v / b ^ n) ++ places b n v := by
  induction n generalizing v with
  | zero => rw [pow_zero, Nat.div_one, places, List.append_nil]; rfl
  | succ n ih =>
    rw [← Nat.add_assoc, places, places, ih, Nat.div_div_eq_div_mul, ← pow_succ',
      List.append_assoc]

theorem places_mod (v : Nat) : places b w (v % b ^ w) = places b w v := by
  induction w generalizing v with
  | zero => rfl
  | succ w ih =>
    rw [places, places, pow_succ', Nat.mod_mul_right_div_self, ih, Nat.mod_mul_right_mod]

theorem not_mem_toDigits {c : Char} (hc : c.isDigit = false) (n : Nat) : c ∉ Nat.toDigits 10 n := by
  intro hmem
  rw [Nat.isDigit_of_mem_toDigits (by decide) (by decide) hmem] at hc
  cases hc

theorem toDigits_eq_places (hb : 1 < b) (n : Nat) :
    ∃ w, Nat.toDigits b n = places b w n ∧ n < b ^ w := by
  induction n using Nat.strong_induction_on with
  | _ n ih =>
    rcases Nat.lt_or_ge n b with hsmall | hlarge
    · refine ⟨1, ?_, by rwa [pow_one]⟩
      rw [Nat.toDigits_of_lt_base hsmall, places, Nat.mod_eq_of_lt hsmall]
      rfl
    · obtain ⟨w, hw, hlt⟩ := ih (n / b) (Nat.div_lt_self (by omega) hb)
      refine ⟨w + 1, ?_, ?_⟩
      · rw [Nat.toDigits_of_base_le hb hlarge, hw]
        rfl
      · rwa [pow_succ, ← Nat.div_lt_iff_lt_mul (by omega)]

/-- What a stream makes of a number with this width and zeros as the fill. -/
theorem leftpad_toDigits {n : Nat} (hb : 1 < b) (hn : n < b ^ (w + 1)) :
    (Nat.toDigits b n).leftpad (w + 1) '0' = places b (w + 1) n := by
  induction w generalizing n with
  | zero =>
    rw [Nat.zero_add, pow_one] at hn
    rw [Nat.toDigits_of_lt_base hn, places, Nat.mod_eq_of_lt hn]
    rfl
  | succ w ih =>
    have hlt : n / b < b ^ (w + 1) := by
      rw [Nat.div_lt_iff_lt_mul (by omega)]
      rwa [pow_succ] at hn
    rw [places, ← ih hlt]
    rcases Nat.lt_or_ge n b with hsmall | hlarge
    · rw [Nat.toDigits_of_lt_base hsmall, Nat.div_eq_of_lt hsmall, Nat.mod_eq_of_lt hsmall,
        Nat.toDigits_zero]
      simp only [List.leftpad, List.length_singleton, Nat.add_sub_cancel]
      rw [← List.replicate_succ']
    · rw [Nat.toDigits_of_base_le hb hlarge]
      simp only [List.leftpad, List.length_append, List.length_singleton, Nat.add_sub_add_right,
        List.append_assoc]

theorem exists_of_mem_places (hb : 0 < b) {n : Nat} {c : Char} (hc : c ∈ places b w n) :
    ∃ k < b, c = Nat.digitChar k := by
  induction w generalizing n with
  | zero => cases hc
  | succ w ih =>
    rw [places, List.mem_append, List.mem_singleton] at hc
    rcases hc with hc | hc
    · exact ih hc
    · exact ⟨n % b, Nat.mod_lt n hb, hc⟩

theorem isDigit_of_mem_places (hb : 0 < b) (hb' : b ≤ 16) {n : Nat} {c : Char}
    (hc : c ∈ places b w n) : IsDigit b c := by
  obtain ⟨k, hk, rfl⟩ := exists_of_mem_places hb hc
  exact isDigit_digitChar hb' hk

theorem value_concat (cs : List Char) (c : Char) :
    value b (cs ++ [c]) = b * value b cs + (digitValue c).getD 0 := by
  rw [value, List.foldl_append]
  rfl

theorem value_lt {cs : List Char} (h : ∀ c ∈ cs, IsDigit b c) : value b cs < b ^ cs.length := by
  induction cs using List.reverseRecOn with
  | nil => exact Nat.one_pos
  | append_singleton cs c ih =>
    have hrest := ih fun c hc => h c (List.mem_append_left _ hc)
    have hlast := lt_of_isDigit (h c (by simp))
    have hmul := Nat.mul_le_mul_left b (Nat.succ_le_of_lt hrest)
    rw [Nat.mul_succ] at hmul
    rw [value_concat, List.length_append, List.length_singleton, pow_succ']
    omega

theorem places_value {cs : List Char} (h : ∀ c ∈ cs, IsDigit b c) :
    places b cs.length (value b cs) = cs.map fun c => Nat.digitChar ((digitValue c).getD 0) := by
  induction cs using List.reverseRecOn with
  | nil => rfl
  | append_singleton cs c ih =>
    have hlast := lt_of_isDigit (h c (by simp))
    rw [value_concat, List.length_append, List.length_singleton, places,
      Nat.mul_add_div (by omega), Nat.div_eq_of_lt hlast, Nat.add_zero, Nat.mul_add_mod,
      Nat.mod_eq_of_lt hlast, ih fun c hc => h c (List.mem_append_left _ hc), List.map_append,
      List.map_singleton]

theorem value_replicate_append (k : Nat) (cs : List Char) :
    value b (List.replicate k '0' ++ cs) = value b cs := by
  induction k with
  | zero => rfl
  | succ k ih =>
    rw [← ih, List.replicate_succ, List.cons_append, value, List.foldl_cons, Nat.mul_zero]
    rfl

/-- Reading back what a stream has written in another alphabet. -/
theorem value_map_places {f : Char → Char} (hf : ∀ k < b, digitValue (f (Nat.digitChar k)) = some k)
    (hb : 0 < b) (n : Nat) : value b ((places b w n).map f) = n % b ^ w := by
  induction w generalizing n with
  | zero => rw [pow_zero, Nat.mod_one]; rfl
  | succ w ih =>
    rw [places, List.map_append, List.map_singleton, value_concat, ih, hf _ (Nat.mod_lt n hb),
      Option.getD_some, pow_succ', Nat.mod_mul, Nat.add_comm]

theorem value_places (hb : 0 < b) (hb' : b ≤ 16) (n : Nat) :
    value b (places b w n) = n % b ^ w := by
  have hvalue := value_map_places (w := w) (f := id)
    (fun k hk => digitValue_digitChar (Nat.lt_of_lt_of_le hk hb')) hb n
  rwa [List.map_id] at hvalue

theorem places_inj (hb : 0 < b) (hb' : b ≤ 16) {m n : Nat} (hm : m < b ^ w) (hn : n < b ^ w) :
    places b w m = places b w n ↔ m = n := by
  constructor
  · intro heq
    have hvalue := congrArg (value b) heq
    rwa [value_places hb hb', value_places hb hb', Nat.mod_eq_of_lt hm, Nat.mod_eq_of_lt hn]
      at hvalue
  · rintro rfl
    rfl

end Places

section Order

/-- Texts are compared from the front. -/
theorem append_lt_append_iff {xs ys us vs : List Char} (hlen : xs.length = ys.length) :
    xs ++ us < ys ++ vs ↔ xs < ys ∨ xs = ys ∧ us < vs := by
  induction xs generalizing ys with
  | nil =>
    rw [List.length_nil, eq_comm, List.length_eq_zero_iff] at hlen
    subst hlen
    simp
  | cons x xs ih =>
    cases ys with
    | nil => cases hlen
    | cons y ys =>
      rw [List.cons_append, List.cons_append, List.cons_lt_cons_iff, List.cons_lt_cons_iff,
        ih (Nat.succ.inj hlen), List.cons.injEq]
      tauto

theorem lt_iff_div_mod {b : Nat} (hb : 0 < b) (m n : Nat) :
    m < n ↔ m / b < n / b ∨ m / b = n / b ∧ m % b < n % b := by
  have hm := Nat.div_add_mod m b
  have hn := Nat.div_add_mod n b
  have hmlt := Nat.mod_lt m hb
  have hnlt := Nat.mod_lt n hb
  rcases Nat.lt_trichotomy (m / b) (n / b) with hlt | heq | hgt
  · have hle := Nat.mul_le_mul_left b (Nat.succ_le_of_lt hlt)
    rw [Nat.mul_succ] at hle
    omega
  · rw [heq] at hm
    omega
  · have hle := Nat.mul_le_mul_left b (Nat.succ_le_of_lt hgt)
    rw [Nat.mul_succ] at hle
    omega

theorem places_lt_iff {b w m n : Nat} (hb : 0 < b) (hb' : b ≤ 16) (hm : m < b ^ w)
    (hn : n < b ^ w) : places b w m < places b w n ↔ m < n := by
  induction w generalizing m n with
  | zero =>
    rw [pow_zero] at hm hn
    have hzero : ¬m < n := by omega
    exact iff_of_false (List.not_lt_nil _) hzero
  | succ w ih =>
    have hdiv {v : Nat} (hv : v < b ^ (w + 1)) : v / b < b ^ w := by
      rw [Nat.div_lt_iff_lt_mul hb]
      rwa [pow_succ] at hv
    have hmod := Nat.mod_lt m hb
    have hmod' := Nat.mod_lt n hb
    have hlast : [Nat.digitChar (m % b)] < [Nat.digitChar (n % b)] ↔ m % b < n % b := by
      rw [List.cons_lt_cons_iff, digitChar_lt_iff (by omega) (by omega)]
      simp
    rw [places, places, append_lt_append_iff (by simp), ih (hdiv hm) (hdiv hn), hlast,
      places_inj hb hb' (hdiv hm) (hdiv hn), ← lt_iff_div_mod hb]

end Order

end Utlib.Numeral
