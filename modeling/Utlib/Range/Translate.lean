import Utlib.Range

/-! `translate` of `utl::Range` and `utl::ClosedRange` -/

namespace Utlib

open Integral

variable {T : Integral} {offset other x lower size : T.Value}

/-- `translate` has a value for `offset` exactly if `offset` is less than `size`; the value is
contained, and no other offset has it. -/
structure MapsOffset (translate : T.Value → Except Error T.Value) (contains : T.Value → Bool)
    (size offset : T.Value) : Prop where
  defined : (∃ x, translate offset = .ok x) ↔ 0 ≤ offset ∧ offset < size
  contained : ∀ x, translate offset = .ok x → contains x = true
  injective : ∀ other x, translate offset = .ok x → translate other = .ok x → other = offset

/-- The contained values are the `size` values from `lower` on. -/
structure Consecutive (lower size : T.Value) (contains : T.Value → Bool) : Prop where
  nonneg : 0 ≤ size.toInt
  last : lower.toInt + size.toInt ≤ T.max + 1
  contains_iff : ∀ x : T.Value,
    contains x = true ↔ lower.toInt ≤ x.toInt ∧ x.toInt < lower.toInt + size.toInt

theorem nonneg_iff : 0 ≤ offset ↔ 0 ≤ offset.toInt := by
  rw [le_iff, toInt_zero]

namespace Consecutive

variable {contains : T.Value → Bool}

theorem toInt_add (h : Consecutive lower size contains) (hnonneg : 0 ≤ offset)
    (hlt : offset < size) : (lower + offset).toInt = lower.toInt + offset.toInt := by
  have hlower := lower.bounded
  have hlast := h.last
  rw [nonneg_iff] at hnonneg
  rw [lt_iff] at hlt
  exact Integral.toInt_add (by omega) (by omega)

theorem contains_add (h : Consecutive lower size contains) (hnonneg : 0 ≤ offset)
    (hlt : offset < size) : contains (lower + offset) = true := by
  rw [h.contains_iff, h.toInt_add hnonneg hlt]
  rw [nonneg_iff] at hnonneg
  rw [lt_iff] at hlt
  omega

theorem add_injective (h : Consecutive lower size contains) (hnonneg : 0 ≤ offset)
    (hlt : offset < size) (hnonneg' : 0 ≤ other) (hlt' : other < size)
    (heq : lower + other = lower + offset) : other = offset := by
  have htoInt := congrArg Value.toInt heq
  rw [h.toInt_add hnonneg hlt, h.toInt_add hnonneg' hlt'] at htoInt
  exact Value.ext (by omega)

theorem exists_offset (h : Consecutive lower size contains) (hx : contains x = true) :
    ∃ offset, (0 ≤ offset ∧ offset < size) ∧ lower + offset = x := by
  rw [h.contains_iff] at hx
  have hmin := T.min_nonpos
  have hsize := size.bounded
  have hsub : (x - lower).toInt = x.toInt - lower.toInt := toInt_sub (by omega) (by omega)
  have hin : 0 ≤ x - lower ∧ x - lower < size := by
    rw [nonneg_iff, lt_iff, hsub]
    omega
  refine ⟨x - lower, hin, Value.ext ?_⟩
  rw [h.toInt_add hin.1 hin.2, hsub]
  omega

end Consecutive

namespace Range

variable {r : Range T}

theorem translate_eq_ok_iff :
    r.translate offset = .ok x ↔ (0 ≤ offset ∧ offset < r.size) ∧ r.lower + offset = x := by
  rw [translate]
  split
  · next h => simp [h]
  · next h => simp [h]

theorem consecutive (hvalid : r.valid = true) (hsize : r.upper.toInt - r.lower.toInt ≤ T.max) :
    Consecutive r.lower r.size r.contains := by
  have hle : r.lower.toInt ≤ r.upper.toInt := le_iff.1 (of_decide_eq_true hvalid)
  have hmin := T.min_nonpos
  have hupper := r.upper.bounded
  have hsub : r.size.toInt = r.upper.toInt - r.lower.toInt := toInt_sub (by omega) hsize
  refine ⟨by omega, by omega, fun x => ?_⟩
  rw [contains, decide_eq_true_iff, le_iff, lt_iff, hsub]
  omega

theorem mapsOffset (h : Consecutive r.lower r.size r.contains) (offset : T.Value) :
    MapsOffset r.translate r.contains r.size offset where
  defined := by
    simp [translate_eq_ok_iff]
  contained x hx := by
    obtain ⟨⟨hnonneg, hlt⟩, rfl⟩ := translate_eq_ok_iff.1 hx
    exact h.contains_add hnonneg hlt
  injective other x hx hother := by
    obtain ⟨⟨hnonneg, hlt⟩, rfl⟩ := translate_eq_ok_iff.1 hx
    obtain ⟨⟨hnonneg', hlt'⟩, heq⟩ := translate_eq_ok_iff.1 hother
    exact h.add_injective hnonneg hlt hnonneg' hlt' heq

end Range

namespace ClosedRange

variable {r : ClosedRange T}

theorem translate_eq_ok_iff :
    r.translate offset = .ok x ↔ (0 ≤ offset ∧ offset ≤ r.size) ∧ r.lower + offset = x := by
  rw [translate]
  split
  · next h => simp [h]
  · next h => simp [h]

section Fits

variable (hvalid : r.valid = true) (hsize : r.upper.toInt - r.lower.toInt + 1 ≤ T.max)

include hvalid hsize

theorem toInt_size : r.size.toInt = r.upper.toInt - r.lower.toInt + 1 := by
  have hle : r.lower.toInt ≤ r.upper.toInt := le_iff.1 (of_decide_eq_true hvalid)
  have hmin := T.min_nonpos
  have hsub : (r.upper - r.lower).toInt = r.upper.toInt - r.lower.toInt :=
    toInt_sub (by omega) (by omega)
  rw [size, toInt_add, hsub, toInt_one]
  · rw [hsub, toInt_one]
    omega
  · rw [hsub, toInt_one]
    omega

theorem consecutive : Consecutive r.lower r.size r.contains := by
  have hle : r.lower.toInt ≤ r.upper.toInt := le_iff.1 (of_decide_eq_true hvalid)
  have hupper := r.upper.bounded
  have htoInt := toInt_size hvalid hsize
  refine ⟨by omega, by omega, fun x => ?_⟩
  rw [contains, decide_eq_true_iff, le_iff, le_iff, htoInt]
  omega

/-- The offset `size()` leads to the value behind the last one, or around to the least of all. -/
theorem not_contains_lower_add_size : ¬r.contains (r.lower + r.size) = true := by
  have hle : r.lower.toInt ≤ r.upper.toInt := le_iff.1 (of_decide_eq_true hvalid)
  have htoInt := toInt_size hvalid hsize
  have hmin := T.min_nonpos
  have hlower := r.lower.bounded
  have hupper := r.upper.bounded
  rw [(consecutive hvalid hsize).contains_iff]
  by_cases hmax : r.upper.toInt = T.max
  · have hsum : r.lower.toInt + r.size.toInt = T.max + 1 := by omega
    have hwrap : (r.lower + r.size).toInt = T.min := by
      rw [← toInt_wrap_max T, ← hsum]
      rfl
    omega
  · have hadd : (r.lower + r.size).toInt = r.lower.toInt + r.size.toInt :=
      toInt_add (by omega) (by omega)
    omega

theorem mapsOffset_iff (offset : T.Value) :
    MapsOffset r.translate r.contains r.size offset ↔ offset ≠ r.size := by
  have h := consecutive hvalid hsize
  constructor
  · rintro hmaps rfl
    have hresult : r.translate r.size = .ok (r.lower + r.size) :=
      translate_eq_ok_iff.2 ⟨⟨nonneg_iff.2 h.nonneg, le_rfl⟩, rfl⟩
    exact not_contains_lower_add_size hvalid hsize (hmaps.contained _ hresult)
  · intro hne
    have hlt_of_le : offset ≤ r.size → offset < r.size := fun hle => lt_of_le_of_ne hle hne
    refine ⟨?_, ?_, ?_⟩
    · simp only [translate_eq_ok_iff, exists_and_left, exists_eq', and_true]
      exact and_congr_right fun _ => ⟨hlt_of_le, le_of_lt⟩
    · intro x hx
      obtain ⟨⟨hnonneg, hle⟩, rfl⟩ := translate_eq_ok_iff.1 hx
      exact h.contains_add hnonneg (hlt_of_le hle)
    · intro other x hx hother
      obtain ⟨⟨hnonneg, hle⟩, rfl⟩ := translate_eq_ok_iff.1 hx
      obtain ⟨⟨hnonneg', hle'⟩, heq⟩ := translate_eq_ok_iff.1 hother
      rcases hle'.eq_or_lt with rfl | hlt'
      · have hin := h.contains_add hnonneg (hlt_of_le hle)
        rw [← heq] at hin
        exact absurd hin (not_contains_lower_add_size hvalid hsize)
      · exact h.add_injective hnonneg (hlt_of_le hle) hnonneg' hlt' heq

end Fits

end ClosedRange

theorem translate_maps_offsets (T : Integral) :
    (∀ r : Range T, r.valid = true → r.upper.toInt - r.lower.toInt ≤ T.max →
        (∀ offset, MapsOffset r.translate r.contains r.size offset) ∧
          ∀ x, r.contains x = true → ∃ offset, r.translate offset = .ok x) ∧
      ∀ r : ClosedRange T, r.valid = true → r.upper.toInt - r.lower.toInt + 1 ≤ T.max →
        (∀ offset, MapsOffset r.translate r.contains r.size offset ↔ offset ≠ r.size) ∧
          ∀ x, r.contains x = true → ∃ offset, r.translate offset = .ok x := by
  constructor
  · intro r hvalid hsize
    have h := Range.consecutive hvalid hsize
    refine ⟨Range.mapsOffset h, fun x hx => ?_⟩
    obtain ⟨offset, hin, heq⟩ := h.exists_offset hx
    exact ⟨offset, Range.translate_eq_ok_iff.2 ⟨hin, heq⟩⟩
  · intro r hvalid hsize
    have h := ClosedRange.consecutive hvalid hsize
    refine ⟨ClosedRange.mapsOffset_iff hvalid hsize, fun x hx => ?_⟩
    obtain ⟨offset, ⟨hnonneg, hlt⟩, heq⟩ := h.exists_offset hx
    exact ⟨offset, ClosedRange.translate_eq_ok_iff.2 ⟨⟨hnonneg, hlt.le⟩, heq⟩⟩

/-- -5 up to 5 -/
def elevenValues : ClosedRange i32 := ⟨i32.wrap (-5), i32.wrap 5⟩

theorem translate_maps_offsets_eleven :
    MapsOffset (Range.mk (i32.wrap (-5)) (i32.wrap 6)).translate
        (Range.mk (i32.wrap (-5)) (i32.wrap 6)).contains
        (Range.mk (i32.wrap (-5)) (i32.wrap 6)).size (i32.wrap 11) ∧
      (MapsOffset elevenValues.translate elevenValues.contains elevenValues.size (i32.wrap 10) ↔
        i32.wrap 10 ≠ elevenValues.size) :=
  ⟨((translate_maps_offsets i32).1 ⟨i32.wrap (-5), i32.wrap 6⟩ (by decide) (by decide)).1 _,
    ((translate_maps_offsets i32).2 elevenValues (by decide) (by decide)).1 _⟩

theorem translate_maps_size :
    ¬MapsOffset elevenValues.translate elevenValues.contains elevenValues.size (i32.wrap 11) := by
  intro h
  have hresult : elevenValues.translate (i32.wrap 11) = .ok (i32.wrap 6) :=
    ClosedRange.translate_eq_ok_iff.2 (by decide)
  exact absurd (h.contained _ hresult) (by decide)

end Utlib
