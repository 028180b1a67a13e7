import Mathlib.Data.List.Induction
import Mathlib.Data.List.Perm.Basic
import Mathlib.Order.MinMax
import Utlib.CommonPrefix

/-! `lowercased`, `uppercased` and `commonPrefix` (support/Strings.cpp).  `std::tolower` and
`std::toupper` are those of the C locale. -/

namespace Utlib.Strings

open CommonPrefix

def lowercased (s : List Char) : List Char := s.foldl (fun result c => result ++ [c.toLower]) []

def uppercased (s : List Char) : List Char := s.foldl (fun result c => result ++ [c.toUpper]) []

def sameChar (caseSensitive : Bool) (c d : Char) : Bool :=
  if caseSensitive then c = d else c.toUpper = d.toUpper

/-- The loop of `commonPrefix` from `count` on -/
def countFrom (caseSensitive : Bool) (s1 s2 : List Char) (count : Nat) : Nat :=
  if h : count < min s1.length s2.length then
    have h1 := lt_of_lt_of_le h (min_le_left _ _)
    have h2 := lt_of_lt_of_le h (min_le_right _ _)
    if sameChar caseSensitive s1[count] s2[count] then countFrom caseSensitive s1 s2 (count + 1)
    else count
  else count
termination_by s1.length - count

/-- `commonPrefix(s1, s2, caseSensitive)` -/
def commonPrefix (s1 s2 : List Char) (caseSensitive : Bool) : List Char :=
  s1.take (countFrom caseSensitive s1 s2 0)

/-- `commonPrefix(vec, caseSensitive)` -/
def commonPrefixVec (vec : List (List Char)) (caseSensitive : Bool) : List Char :=
  match vec with
  | [] => []
  | s :: vec => vec.foldl (commonPrefix · · caseSensitive) s

/-- Up to letter case, unless `caseSensitive` -/
def StartsWith (caseSensitive : Bool) (s p : List Char) : Prop :=
  if caseSensitive then p <+: s else lowercased p <+: lowercased s

structure IsGreatestCommonPrefix (caseSensitive : Bool) (s : List Char) (vec : List (List Char))
    (result : List Char) : Prop where
  spelling : result <+: s
  common : ∀ t ∈ s :: vec, StartsWith caseSensitive t result
  longest : ∀ p, p <+: s → (∀ t ∈ s :: vec, StartsWith caseSensitive t p) →
    p.length ≤ result.length

/-- What is compared of a character -/
def folded (caseSensitive : Bool) (c : Char) : Char := if caseSensitive then c else c.toUpper

variable {caseSensitive : Bool} {s s1 s2 : List Char}

theorem foldl_concat_eq (f : Char → Char) (s : List Char) :
    s.foldl (fun result c => result ++ [f c]) [] = s.map f := by
  induction s using List.reverseRecOn with
  | nil => rfl
  | append_singleton s c ih => rw [List.foldl_concat, ih, List.map_append, List.map_singleton]

theorem lowercased_eq (s : List Char) : lowercased s = s.map Char.toLower := foldl_concat_eq _ s

theorem uppercased_eq (s : List Char) : uppercased s = s.map Char.toUpper := foldl_concat_eq _ s

theorem val_toLower (c : Char) :
    c.toLower.val = if 65 ≤ c.val ∧ c.val ≤ 90 then c.val + 32 else c.val := by
  by_cases h : 65 ≤ c.val ∧ c.val ≤ 90
  · have hupper : c.toLower = _ := dif_pos h
    rw [hupper, if_pos h]
    rfl
  · have hother : c.toLower = c := dif_neg h
    rw [hother, if_neg h]

theorem val_toUpper (c : Char) :
    c.toUpper.val = if 97 ≤ c.val ∧ c.val ≤ 122 then c.val - 32 else c.val := by
  have hsub : 'A'.val - 'a'.val = -32 := by decide
  by_cases h : 97 ≤ c.val ∧ c.val ≤ 122
  · have hlower : c.toUpper = _ := dif_pos h
    rw [hlower, if_pos h, UInt32.sub_eq_add_neg c.val, ← hsub]
  · have hother : c.toUpper = c := dif_neg h
    rw [hother, if_neg h]

theorem toLower_toUpper (c : Char) : c.toUpper.toLower = c.toLower := by
  apply Char.ext
  rw [val_toLower, val_toUpper, val_toLower]
  by_cases h : 97 ≤ c.val ∧ c.val ≤ 122
  · rw [if_pos h]
    grind [UInt32.sub_add_cancel]
  · rw [if_neg h]

theorem toUpper_toLower (c : Char) : c.toLower.toUpper = c.toUpper := by
  apply Char.ext
  rw [val_toUpper, val_toLower, val_toUpper]
  by_cases h : 65 ≤ c.val ∧ c.val ≤ 90
  · rw [if_pos h]
    grind [UInt32.add_sub_cancel]
  · rw [if_neg h]

theorem lowercased_uppercased (s : List Char) : lowercased (uppercased s) = lowercased s := by
  rw [lowercased_eq, uppercased_eq, List.map_map, lowercased_eq]
  exact List.map_congr_left fun c _ => toLower_toUpper c

theorem uppercased_lowercased (s : List Char) : uppercased (lowercased s) = uppercased s := by
  rw [uppercased_eq, lowercased_eq, List.map_map, uppercased_eq]
  exact List.map_congr_left fun c _ => toUpper_toLower c

/-- Which of the two cases is taken makes no difference. -/
theorem lowercased_isPrefix_iff {p : List Char} :
    lowercased p <+: lowercased s ↔ uppercased p <+: uppercased s := by
  constructor
  · intro h
    have hupper := h.map Char.toUpper
    rwa [← uppercased_eq, ← uppercased_eq, uppercased_lowercased, uppercased_lowercased] at hupper
  · intro h
    have hlower := h.map Char.toLower
    rwa [← lowercased_eq, ← lowercased_eq, lowercased_uppercased, lowercased_uppercased] at hlower

theorem startsWith_iff {p : List Char} :
    StartsWith caseSensitive s p ↔
      p.map (folded caseSensitive) <+: s.map (folded caseSensitive) := by
  cases caseSensitive with
  | true =>
    have hid : folded true = id := rfl
    rw [hid, List.map_id, List.map_id]
    rfl
  | false =>
    have hupper : folded false = Char.toUpper := rfl
    rw [hupper, ← uppercased_eq, ← uppercased_eq, ← lowercased_isPrefix_iff]
    rfl

theorem sameChar_iff {c d : Char} :
    sameChar caseSensitive c d = true ↔ folded caseSensitive c = folded caseSensitive d := by
  cases caseSensitive <;> simp [sameChar, folded]

theorem countFrom_eq (caseSensitive : Bool) (s1 s2 : List Char) (count : Nat) :
    countFrom caseSensitive s1 s2 count =
      count + commonLength (folded caseSensitive) (s1.drop count) (s2.drop count) := by
  induction count using countFrom.induct caseSensitive s1 s2 with
  | case1 count h h1 h2 hsame ih =>
    rw [countFrom, dif_pos h, if_pos hsame, ih, List.drop_eq_getElem_cons h1,
      List.drop_eq_getElem_cons h2, commonLength, if_pos (sameChar_iff.1 hsame)]
    omega
  | case2 count h h1 h2 hsame =>
    rw [countFrom, dif_pos h, if_neg hsame, List.drop_eq_getElem_cons h1,
      List.drop_eq_getElem_cons h2, commonLength, if_neg (mt sameChar_iff.2 hsame), Nat.add_zero]
  | case3 count h =>
    have hend : commonLength (folded caseSensitive) (s1.drop count) (s2.drop count) = 0 := by
      rcases min_le_iff.1 (not_lt.1 h) with h1 | h2
      · rw [List.drop_eq_nil_of_le h1, commonLength_nil_left]
      · rw [List.drop_eq_nil_of_le h2, commonLength_nil_right]
    rw [countFrom, dif_neg h, hend, Nat.add_zero]

theorem commonPrefix_eq (s1 s2 : List Char) (caseSensitive : Bool) :
    commonPrefix s1 s2 caseSensitive = common (folded caseSensitive) s1 s2 := by
  rw [commonPrefix, countFrom_eq, Nat.zero_add, List.drop_zero, List.drop_zero]
  rfl

theorem commonPrefixVec_cons (s : List Char) (vec : List (List Char)) (caseSensitive : Bool) :
    commonPrefixVec (s :: vec) caseSensitive = vec.foldl (common (folded caseSensitive)) s := by
  have hstep : (commonPrefix · · caseSensitive) = common (folded caseSensitive) := by
    funext s1 s2
    exact commonPrefix_eq s1 s2 caseSensitive
  rw [commonPrefixVec, hstep]

theorem shares_folded_iff {vec : List (List Char)} {p : List Char} :
    Shares (folded caseSensitive) vec (p.map (folded caseSensitive)) ↔
      ∀ t ∈ vec, StartsWith caseSensitive t p :=
  forall₂_congr fun _ _ => startsWith_iff.symm

/-- The greatest common prefix, in the spelling of the first string. How long it is, does not
depend on the order. -/
theorem commonPrefixVec_isGreatest (caseSensitive : Bool) (s : List Char)
    (vec : List (List Char)) :
    IsGreatestCommonPrefix caseSensitive s vec (commonPrefixVec (s :: vec) caseSensitive) ∧
      ∀ vec', vec'.Perm (s :: vec) → (commonPrefixVec vec' caseSensitive).length =
        (commonPrefixVec (s :: vec) caseSensitive).length := by
  rw [commonPrefixVec_cons]
  refine ⟨⟨foldl_common_isPrefix, shares_folded_iff.1 shares_foldl, ?_⟩, ?_⟩
  · intro p _ hp
    have hle := length_le_length_foldl (shares_folded_iff.2 hp)
    rwa [List.length_map] at hle
  · intro vec' hperm
    obtain ⟨t, rest, rfl⟩ := List.exists_cons_of_ne_nil fun hnil : vec' = [] => by
      rw [hnil] at hperm
      exact List.cons_ne_nil s vec hperm.nil_eq.symm
    have himage := map_foldl_congr (f := folded caseSensitive) fun zs => hperm.mem_iff
    have hlen := congrArg List.length himage
    rwa [List.length_map, List.length_map, ← commonPrefixVec_cons] at hlen

/-- "Foobar", "fooBAZ" and "food", also in another order -/
theorem commonPrefixVec_isGreatest_foobar :
    IsGreatestCommonPrefix false "Foobar".toList ["fooBAZ".toList, "food".toList]
        (commonPrefixVec ["Foobar".toList, "fooBAZ".toList, "food".toList] false) ∧
      (commonPrefixVec ["food".toList, "Foobar".toList, "fooBAZ".toList] false).length =
        (commonPrefixVec ["Foobar".toList, "fooBAZ".toList, "food".toList] false).length := by
  obtain ⟨hgreatest, hlength⟩ := commonPrefixVec_isGreatest false "Foobar".toList
    ["fooBAZ".toList, "food".toList]
  exact ⟨hgreatest, hlength _ (by decide)⟩

example : commonPrefixVec ["Foobar".toList, "fooBAZ".toList, "food".toList] false =
    "Foo".toList := by
  rw [commonPrefixVec_cons]
  decide

end Utlib.Strings
