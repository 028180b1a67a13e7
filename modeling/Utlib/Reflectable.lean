import Mathlib.Algebra.Order.Ring.Int
import Mathlib.Algebra.Order.Monoid.Unbundled.Pow
import Mathlib.Data.List.Pairwise
import Mathlib.Data.Nat.Find
import Mathlib.Order.Monotone.Basic
import Utlib.Loop

/-! `Reflectable` (abilities/Reflectable.h): the keys of an enumeration and how they are parsed. -/

namespace Utlib

/-- What an enumeration provides; a member stands for its value. -/
structure Reflectable where
  minVal : Int
  maxVal : Int
  _key : Int → List Char
  le_minVal : -2 ^ 63 ≤ minVal
  maxVal_lt : maxVal < 2 ^ 63

namespace Reflectable

variable (T : Reflectable)

def isBitField : Bool := T.minVal = 1

def fullKey (e : Int) : List Char := T._key e

def next (i : Int) : Int := i + if T.isBitField then i else 1

/-- A round of the loop of `elements`, which gives nothing if the counter overflows. -/
def elementsRound (filter : Int → Bool) (s : Int × List Int) :
    Option (List Int) ⊕ Int × List Int :=
  if s.1 ≤ T.maxVal then
    let result := if filter s.1 then s.2 ++ [s.1] else s.2
    if T.next s.1 < 2 ^ 63 then .inr (T.next s.1, result) else .inl none
  else .inl (some s.2)

def elements (filter : Int → Bool) : Option (List Int) :=
  (Loop.run (T.elementsRound filter) ((T.maxVal - T.minVal + 1).toNat + 1) (T.minVal, [])).join

/-- The part of a key behind its first dot -/
def plainKey (enumkey : List Char) : Option (List Char) :=
  (enumkey.idxOf? '.').map fun pos => enumkey.drop (pos + 1)

def parsePartialEnum (key : List Char) (accept : Int → Bool) : Option (Option Int) :=
  let upper := key.map Char.toUpper
  (T.elements fun _ => true).map fun members => members.find? fun i =>
    accept i && (T.fullKey i = upper || plainKey (T.fullKey i) = some upper)

def parseEnum (key : List Char) : Option (Option Int) := T.parsePartialEnum key fun _ => true

/-- Numbered 1, 2, 4, and so on in a bit field, and one by one otherwise. -/
def Member (e : Int) : Prop :=
  e ≤ T.maxVal ∧ ∃ k : Nat, e = if T.isBitField then 2 ^ k else T.minVal + k

structure WellKeyed : Prop where
  distinct : ∀ d e, T.Member d → T.Member e → T.fullKey d = T.fullKey e → d = e
  upper : ∀ e, T.Member e → ∀ c ∈ T.fullKey e, c.isLower = false

/-- A search for `upper` stops at the member, whether it is meant or not. -/
def Hits (upper : List Char) (e : Int) : Prop :=
  T.fullKey e = upper ∨ plainKey (T.fullKey e) = some upper

/-- Each member is found by its full key in any letter case. -/
def ParsesBack : Prop :=
  ∀ e, T.Member e → ∀ key : List Char, key.map Char.toUpper = (T.fullKey e).map Char.toUpper →
    T.parseEnum key = some (some e)

/-- The counter of `elements` does not overflow. -/
def Counts : Prop := ∀ e, T.Member e → T.next e < 2 ^ 63

/-- The key of no member is the plain key of an earlier one. -/
def Unshadowed : Prop :=
  ∀ d e, T.Member d → T.Member e → d < e → plainKey (T.fullKey d) ≠ some (T.fullKey e)

section Elements

def nth (k : Nat) : Int := if T.isBitField then 2 ^ k else T.minVal + k

theorem nth_zero : T.nth 0 = T.minVal := by
  rw [nth]
  split
  · next h => rw [pow_zero, of_decide_eq_true h]
  · rw [Nat.cast_zero, add_zero]

theorem nth_succ (k : Nat) : T.nth (k + 1) = T.next (T.nth k) := by
  rw [nth, nth, next]
  split
  · rw [pow_succ]
    omega
  · omega

theorem nth_lt_nth {j k : Nat} (h : j < k) : T.nth j < T.nth k := by
  refine strictMono_nat_of_lt_succ (fun k => ?_) h
  rw [nth_succ, nth, next]
  split
  · have hpos : (0 : Int) < 2 ^ k := Int.pow_pos (by decide)
    omega
  · omega

theorem add_le_nth (k : Nat) : T.minVal + k ≤ T.nth k := by
  induction k with
  | zero => rw [nth_zero, Nat.cast_zero, add_zero]
  | succ k ih =>
    have hlt := T.nth_lt_nth (Nat.lt_add_one k)
    omega

theorem member_iff (e : Int) : T.Member e ↔ ∃ k, T.nth k = e ∧ e ≤ T.maxVal := by
  rw [Member, and_comm, ← exists_and_right]
  simp only [nth, eq_comm]

/-- The number of rounds after which the loop of `elements` ends -/
theorem exists_leaves : ∃ n, ¬(T.nth n ≤ T.maxVal ∧ T.nth (n + 1) < 2 ^ 63) := by
  refine ⟨(T.maxVal - T.minVal + 1).toNat, fun h => ?_⟩
  have hle := T.add_le_nth (T.maxVal - T.minVal + 1).toNat
  omega

theorem elements_eq {n : Nat} (hn : ¬(T.nth n ≤ T.maxVal ∧ T.nth (n + 1) < 2 ^ 63))
    (hrest : ∀ k < n, T.nth k ≤ T.maxVal ∧ T.nth (k + 1) < 2 ^ 63) :
    T.elements (fun _ => true) =
      if T.nth n ≤ T.maxVal then none else some ((List.range n).map T.nth) := by
  have hrounds : n ≤ (T.maxVal - T.minVal + 1).toNat := by
    rcases Nat.eq_zero_or_pos n with hzero | hpos
    · omega
    · have hlast := (hrest (n - 1) (by omega)).1
      have hle := T.add_le_nth (n - 1)
      omega
  have hcount : (T.maxVal - T.minVal + 1).toNat + 1 =
      (T.maxVal - T.minVal + 1).toNat - n + 1 + n := by omega
  have hrounds (k : Nat) (hk : k < n) :
      T.elementsRound (fun _ => true) (T.nth k, (List.range k).map T.nth) =
        .inr (T.nth (k + 1), (List.range (k + 1)).map T.nth) := by
    rw [elementsRound, if_pos (hrest k hk).1, if_pos rfl, ← nth_succ, if_pos (hrest k hk).2,
      List.range_succ, List.map_append]
    rfl
  have hrun := Loop.run_of_rounds (fun k => (T.nth k, (List.range k).map T.nth)) hrounds
    ((T.maxVal - T.minVal + 1).toNat - n + 1)
  simp only [nth_zero, List.range_zero, List.map_nil] at hrun
  rw [elements, hcount, hrun, Loop.run, elementsRound]
  by_cases hle : T.nth n ≤ T.maxVal
  · have hover : ¬T.next (T.nth n) < 2 ^ 63 := by
      rw [← nth_succ]
      exact fun hlt => hn ⟨hle, hlt⟩
    rw [if_pos hle, if_neg hover, if_pos hle]
    rfl
  · rw [if_neg hle, if_neg hle]
    rfl

/-- The loop collects all members in order, or its counter overflows. -/
theorem elements_spec :
    T.elements (fun _ => true) = none ∧ ¬T.Counts ∨
      T.Counts ∧ ∃ members, T.elements (fun _ => true) = some members ∧
        members.Pairwise (· < ·) ∧ ∀ e, e ∈ members ↔ T.Member e := by
  classical
  have hn := Nat.find_spec T.exists_leaves
  have hrest : ∀ k < Nat.find T.exists_leaves, T.nth k ≤ T.maxVal ∧ T.nth (k + 1) < 2 ^ 63 :=
    fun k hk => not_not.1 (Nat.find_min T.exists_leaves hk)
  generalize Nat.find T.exists_leaves = n at hn hrest
  have heq := T.elements_eq hn hrest
  by_cases hle : T.nth n ≤ T.maxVal
  · refine .inl ⟨by rw [heq, if_pos hle], fun hcounts => hn ⟨hle, ?_⟩⟩
    rw [nth_succ]
    exact hcounts _ ((T.member_iff _).2 ⟨n, rfl, hle⟩)
  · have hlt {k : Nat} (hk : T.nth k ≤ T.maxVal) : k < n := by
      by_contra hge
      rcases Nat.eq_or_lt_of_le (Nat.not_lt.1 hge) with rfl | hlt
      · exact hle hk
      · have := T.nth_lt_nth hlt
        omega
    refine .inr ⟨?_, (List.range n).map T.nth, by rw [heq, if_neg hle], ?_, ?_⟩
    · intro e he
      obtain ⟨k, rfl, hk⟩ := (T.member_iff e).1 he
      rw [← nth_succ]
      exact (hrest k (hlt hk)).2
    · exact List.pairwise_lt_range.map _ fun _ _ h => T.nth_lt_nth h
    · intro e
      rw [List.mem_map, member_iff]
      constructor
      · rintro ⟨k, hk, rfl⟩
        exact ⟨k, rfl, (hrest k (List.mem_range.1 hk)).1⟩
      · rintro ⟨k, rfl, hk⟩
        exact ⟨k, List.mem_range.2 (hlt hk), rfl⟩

end Elements

theorem member_iff_of_standard (h : T.isBitField = false) (e : Int) :
    T.Member e ↔ T.minVal ≤ e ∧ e ≤ T.maxVal := by
  rw [Member, h, and_comm]
  constructor
  · rintro ⟨⟨k, rfl⟩, hle⟩
    rw [if_neg Bool.false_ne_true] at hle ⊢
    omega
  · rintro ⟨hle, hle'⟩
    refine ⟨⟨(e - T.minVal).toNat, ?_⟩, hle'⟩
    rw [if_neg Bool.false_ne_true]
    omega

section Parsing

/-- The first hit in an increasing list -/
theorem find?_eq_some_iff_of_pairwise {p : Int → Bool} {l : List Int} (h : l.Pairwise (· < ·))
    (e : Int) : l.find? p = some e ↔ e ∈ l ∧ p e = true ∧ ∀ d ∈ l, d < e → p d = false := by
  rw [List.find?_eq_some_iff_append]
  constructor
  · rintro ⟨he, as, bs, rfl, has⟩
    refine ⟨by simp, he, fun d hd hlt => ?_⟩
    rw [List.pairwise_append, List.pairwise_cons] at h
    rw [List.mem_append, List.mem_cons] at hd
    rcases hd with hd | rfl | hd
    · simpa using has d hd
    · exact absurd hlt (lt_irrefl d)
    · exact absurd hlt (lt_asymm (h.2.1.1 d hd))
  · rintro ⟨hmem, he, hbefore⟩
    obtain ⟨as, bs, rfl⟩ := List.append_of_mem hmem
    refine ⟨he, as, bs, rfl, fun a ha => ?_⟩
    have hlt := (List.pairwise_append.1 h).2.2 a ha e (by simp)
    simpa using hbefore a (List.mem_append_left _ ha) hlt

theorem toUpper_of_not_isLower {c : Char} (h : c.isLower = false) : c.toUpper = c := by
  have hnot : ¬(c.val ≥ 'a'.val ∧ c.val ≤ 'z'.val) := by
    rintro ⟨hge, hle⟩
    have hlower : c.isLower = true :=
      Bool.and_eq_true_iff.2 ⟨decide_eq_true hge, decide_eq_true hle⟩
    rw [h] at hlower
    cases hlower
  exact dif_neg hnot

variable {T}

theorem WellKeyed.map_toUpper (h : T.WellKeyed) {e : Int} (he : T.Member e) :
    (T.fullKey e).map Char.toUpper = T.fullKey e := by
  conv_rhs => rw [← List.map_id (T.fullKey e)]
  apply List.map_congr_left
  intro c hc
  exact toUpper_of_not_isLower (h.upper e he c hc)

/-- A key is parsed as the first member with this full key or plain key. -/
theorem Counts.parseEnum_eq_iff (h : T.Counts) (key : List Char) (e : Int) :
    T.parseEnum key = some (some e) ↔
      T.Member e ∧ T.Hits (key.map Char.toUpper) e ∧
        ∀ d, T.Member d → d < e → ¬T.Hits (key.map Char.toUpper) d := by
  obtain ⟨-, hnot⟩ | ⟨-, members, helements, hsorted, hmem⟩ := T.elements_spec
  · exact absurd h hnot
  · rw [parseEnum, parsePartialEnum]
    simp only [helements, Option.map_some, Option.some.injEq, Bool.true_and,
      find?_eq_some_iff_of_pairwise hsorted, hmem, Hits]
    simp

theorem parsesBack_iff (h : T.WellKeyed) : T.ParsesBack ↔ T.Counts ∧ T.Unshadowed := by
  constructor
  · intro hparses
    have hcounts : T.Counts := by
      obtain ⟨hnone, hnot⟩ | ⟨hcounts, -⟩ := T.elements_spec
      · intro e he
        have hparse := hparses e he _ rfl
        rw [parseEnum, parsePartialEnum, hnone] at hparse
        cases hparse
      · exact hcounts
    refine ⟨hcounts, fun d e hd he hlt hplain => ?_⟩
    obtain ⟨-, -, hbefore⟩ := (hcounts.parseEnum_eq_iff _ e).1 (hparses e he _ rfl)
    rw [h.map_toUpper he] at hbefore
    exact hbefore d hd hlt (.inr hplain)
  · rintro ⟨hcounts, hunshadowed⟩ e he key hkey
    rw [hcounts.parseEnum_eq_iff, hkey, h.map_toUpper he]
    refine ⟨he, .inl rfl, fun d hd hlt => ?_⟩
    rintro (hfull | hplain)
    · exact hlt.ne (h.distinct d e hd he hfull)
    · exact hunshadowed d e hd he hlt hplain

end Parsing

/-- `CompressorEnum` (abilities/Compressible.h) -/
def compressorEnum : Reflectable where
  minVal := 0
  maxVal := 4
  _key
    | 0 => "NONE".toList
    | 1 => "GZIP".toList
    | 2 => "LZ4".toList
    | 3 => "RLE2".toList
    | 4 => "RLE3".toList
    | _ => "???".toList
  le_minVal := by decide
  maxVal_lt := by decide

theorem parsesBack_compressorEnum : compressorEnum.ParsesBack := by
  have hmem {e : Int} (he : compressorEnum.Member e) : e ∈ [0, 1, 2, 3, 4] := by
    obtain ⟨hle, hle'⟩ := (member_iff_of_standard _ rfl e).1 he
    simp only [compressorEnum] at hle hle'
    simp only [List.mem_cons, List.not_mem_nil, or_false]
    omega
  refine (parsesBack_iff ⟨fun d e hd he => ?_, fun e he => ?_⟩).2
    ⟨fun e he => ?_, fun d e hd he _ => ?_⟩
  · have hall : ∀ d ∈ [0, 1, 2, 3, 4], ∀ e ∈ [0, 1, 2, 3, 4],
        compressorEnum.fullKey d = compressorEnum.fullKey e → d = e := by decide
    exact hall d (hmem hd) e (hmem he)
  · have hall : ∀ e ∈ [0, 1, 2, 3, 4],
        (compressorEnum.fullKey e).all (fun c => !c.isLower) = true := by decide
    exact fun c hc => by simpa using List.all_eq_true.1 (hall e (hmem he)) c hc
  · have hall : ∀ e ∈ [0, 1, 2, 3, 4], compressorEnum.next e < 2 ^ 63 := by decide
    exact hall e (hmem he)
  · have hall : ∀ d ∈ [0, 1, 2, 3, 4], ∀ e ∈ [0, 1, 2, 3, 4],
        plainKey (compressorEnum.fullKey d) ≠ some (compressorEnum.fullKey e) := by decide
    exact hall d (hmem hd) e (hmem he)

/-- The second member's key is the plain key of the first one. -/
def shadowing : Reflectable where
  minVal := 0
  maxVal := 1
  _key e := if e = 0 then "A.B".toList else "B".toList
  le_minVal := by decide
  maxVal_lt := by decide

theorem not_parsesBack_shadowing : shadowing.WellKeyed ∧ ¬shadowing.ParsesBack := by
  have hmem (e : Int) : shadowing.Member e ↔ e = 0 ∨ e = 1 := by
    rw [member_iff_of_standard _ rfl]
    simp only [shadowing]
    omega
  refine ⟨⟨fun d e hd he => ?_, fun e he => ?_⟩, fun hparses => ?_⟩
  · rw [hmem] at hd he
    rcases hd with rfl | rfl <;> rcases he with rfl | rfl <;> decide
  · have hall : ∀ e ∈ [0, 1], (shadowing.fullKey e).all (fun c => !c.isLower) = true := by decide
    have he' : e ∈ [0, 1] := by simpa using (hmem e).1 he
    exact fun c hc => by simpa using List.all_eq_true.1 (hall e he') c hc
  · have hparse := hparses 1 ((hmem 1).2 (.inr rfl)) "b".toList (by decide)
    have hfirst : shadowing.parseEnum "b".toList = some (some 0) := by decide
    rw [hfirst] at hparse
    cases hparse

end Reflectable

end Utlib
