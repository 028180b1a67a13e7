import Utlib.Float80.Scale

/-! The normalizing shift of `scale`, for every encoding. -/

namespace Utlib.Float80

variable (plus : Float80 → Float80 → SoftFloat.State → Float80 × SoftFloat.State)

/-- None of the early exits of `scale` is taken. -/
def Scales (x rhs : Float80) : Prop :=
  ¬(x.isNaN ∨ rhs.isNaN) ∧ ¬rhs.isInfinite ∧ ¬(x.isZero ∨ x.isInfinite)

/-- `scale` shifts by less than the width, and what it has rounded is a mantissa with bit 63 set. -/
def Normalizes (x rhs : Float80) (env : SoftFloat.State) : Prop :=
  Scales x rhs → countlZero x.man < 64 ∧ ∃ m exp, shiftLeft x.man (countlZero x.man) = some m ∧
    2 ^ 63 ≤ m.toNat ∧
    let z := SoftFloat.roundPackToExtF80 x.sign exp m 0 env.roundingPrecision env
    x.scale plus rhs env = some (fromSF z.1, z.2)

section Encodings

variable {x rhs : Float80}

theorem isFinite_of_not {x : Float80} (hnan : ¬x.isNaN) (hinfinite : ¬x.isInfinite) :
    x.isFinite := by
  rw [isNaN, decide_eq_true_iff] at hnan
  rw [isInfinite, decide_eq_true_iff] at hinfinite
  rw [isFinite, decide_eq_true_iff]
  intro hexp
  exact hnan ⟨hexp, fun hman => hinfinite ⟨hexp, hman⟩⟩

theorem scales_iff : Scales x rhs ↔ x.isFinite ∧ rhs.isFinite ∧ ¬x.isZero := by
  constructor
  · rintro ⟨hnan, hinfinite, hspecial⟩
    obtain ⟨hx, hrhs⟩ := not_or.1 hnan
    obtain ⟨hzero, hx'⟩ := not_or.1 hspecial
    exact ⟨isFinite_of_not hx hx', isFinite_of_not hrhs hinfinite, hzero⟩
  · rintro ⟨hx, hrhs, hzero⟩
    exact ⟨not_or.2 ⟨not_isNaN hx, not_isNaN hrhs⟩, not_isInfinite hrhs,
      not_or.2 ⟨hzero, not_isInfinite hx⟩⟩

/-- Only an unnormal without any mantissa bit gets past the test for zero. -/
theorem normalizes_iff (x rhs : Float80) (env : SoftFloat.State) :
    Normalizes plus x rhs env ↔
      (x.man = 0 → x.biasedExponent = 0 ∨ ¬x.isFinite ∨ ¬rhs.isFinite) := by
  rw [Normalizes, scales_iff]
  constructor
  · intro hnormalizes hman
    by_contra hneither
    rw [not_or, not_or, not_not, not_not] at hneither
    obtain ⟨hexp, hx, hrhs⟩ := hneither
    have hzero : ¬x.isZero := by
      rw [isZero, decide_eq_true_iff]
      exact fun hzero => hexp hzero.1
    have hshift := (hnormalizes ⟨hx, hrhs, hzero⟩).1
    rw [countlZero, if_pos hman] at hshift
    exact lt_irrefl 64 hshift
  · rintro hnonzero ⟨hx, hrhs, hzero⟩
    have hman : x.man ≠ 0 := by
      intro hman
      rw [isZero, decide_eq_true_iff] at hzero
      rcases hnonzero hman with hexp | hx' | hrhs'
      · exact hzero ⟨hexp, hman⟩
      · exact hx' hx
      · exact hrhs' hrhs
    obtain ⟨hnormalized, hlo⟩ := toNat_normalized hman
    have hshift := countlZero_lt hman
    rw [← hnormalized] at hlo
    exact ⟨hshift, _, _, if_pos hshift, hlo, scale_of_man_ne_zero plus hx hman hrhs⟩

theorem not_normalizes_unnormal :
    ¬∀ (x rhs : Float80) (env : SoftFloat.State),
      Normalizes (fun x _ env => (x, env)) x rhs env := by
  intro hall
  have hshift := (hall ⟨1, 0⟩ ⟨0, 0⟩ ⟨.nearEven, 0, 80⟩
    (scales_iff.2 ⟨by decide, by decide, by decide⟩)).1
  exact absurd hshift (by decide)

end Encodings

end Utlib.Float80
