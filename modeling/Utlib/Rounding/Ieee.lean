import Utlib.Rounding.Exact

/-! The operations of IEEE 754 on data: not-a-numbers, infinities and signed magnitudes. -/

namespace Utlib.Rounding

/-- What the encodings of a format stand for. -/
inductive Datum (K : Type)
  | nan (signaling : Bool)
  | infinite (negative : Bool)
  | finite (negative : Bool) (magnitude : K)

structure Flags where
  invalid : Bool := false
  divideByZero : Bool := false
  overflow : Bool := false
  underflow : Bool := false
  inexact : Bool := false
deriving DecidableEq

structure Result (K : Type) where
  datum : Datum K
  flags : Flags

namespace Result

variable {K : Type}

def exact (d : Datum K) : Result K := ⟨d, {}⟩

/-- The operation has no result. -/
def invalid : Result K := ⟨.nan false, { invalid := true }⟩

def ofNaN (signaling : Bool) : Result K := ⟨.nan false, { invalid := signaling }⟩

def ofRounded (negative : Bool) (r : Rounded K) : Result K where
  datum :=
    match r.outcome with
    | .finite v => .finite negative v
    | .infinite => .infinite negative
  flags := { overflow := r.overflow, underflow := r.underflow, inexact := r.inexact }

end Result

namespace Datum

variable {K : Type}

def isSignaling : Datum K → Bool
  | nan s => s
  | infinite _ => false
  | finite _ _ => false

def IsNaN : Datum K → Prop
  | nan _ => True
  | infinite _ => False
  | finite _ _ => False

def negate : Datum K → Datum K
  | nan s => nan s
  | infinite s => infinite !s
  | finite s v => finite (!s) v

def withSign (negative : Bool) : Datum K → Datum K
  | nan s => nan s
  | infinite _ => infinite negative
  | finite _ v => finite negative v

/-- The conversion to a format that has all numbers of the other one. -/
def convert : Datum K → Result K
  | nan s => .ofNaN s
  | infinite s => .exact (infinite s)
  | finite s v => .exact (finite s v)

theorem isSignaling_withSign (s : Bool) (d : Datum K) :
    (d.withSign s).isSignaling = d.isSignaling := by
  cases d <;> rfl

theorem isNaN_withSign {s : Bool} {d : Datum K} : (d.withSign s).IsNaN ↔ d.IsNaN := by
  cases d <;> exact Iff.rfl

variable [Field K] [LinearOrder K]

def signed (negative : Bool) (v : K) : K := if negative then -v else v

variable [FloorRing K] (f : Format) (mode : Mode)

def multiply : Datum K → Datum K → Result K
  | nan s, d => .ofNaN (s || d.isSignaling)
  | infinite _, nan s => .ofNaN s
  | finite _ _, nan s => .ofNaN s
  | infinite s, infinite s' => .exact (infinite (s ^^ s'))
  | infinite s, finite s' v => if v = 0 then .invalid else .exact (infinite (s ^^ s'))
  | finite s v, infinite s' => if v = 0 then .invalid else .exact (infinite (s ^^ s'))
  | finite s v, finite s' v' => .ofRounded (s ^^ s') (f.round mode (s ^^ s') (v * v'))

/-- A number other than zero determines its sign; the sign of an exact zero is given. -/
def ofSigned (zero : Bool) (x : K) : Result K :=
  if x = 0 then .exact (finite zero 0)
  else .ofRounded (decide (x < 0)) (f.round mode (decide (x < 0)) |x|)

def add : Datum K → Datum K → Result K
  | nan s, d => .ofNaN (s || d.isSignaling)
  | infinite _, nan s => .ofNaN s
  | finite _ _, nan s => .ofNaN s
  | infinite s, infinite s' => if s = s' then .exact (infinite s) else .invalid
  | infinite s, finite _ _ => .exact (infinite s)
  | finite _ _, infinite s => .exact (infinite s)
  | finite s v, finite s' v' =>
    ofSigned f mode (if s = s' then s else decide (mode = .down)) (signed s v + signed s' v')

def subtract (d d' : Datum K) : Result K := add f mode d d'.negate

def divide : Datum K → Datum K → Result K
  | nan s, d => .ofNaN (s || d.isSignaling)
  | infinite _, nan s => .ofNaN s
  | finite _ _, nan s => .ofNaN s
  | infinite _, infinite _ => .invalid
  | infinite s, finite s' _ => .exact (infinite (s ^^ s'))
  | finite s _, infinite s' => .exact (finite (s ^^ s') 0)
  | finite s v, finite s' v' =>
    if v' = 0 then
      if v = 0 then .invalid else ⟨infinite (s ^^ s'), { divideByZero := true }⟩
    else .ofRounded (s ^^ s') (f.round mode (s ^^ s') (v / v'))

/-- The integer nearest to the quotient is subtracted as often as it says, without rounding. -/
def remainder : Datum K → Datum K → Result K
  | nan s, d => .ofNaN (s || d.isSignaling)
  | infinite _, nan s => .ofNaN s
  | finite _ _, nan s => .ofNaN s
  | infinite _, _ => .invalid
  | finite s v, infinite _ => .exact (finite s v)
  | finite s v, finite _ v' =>
    if v' = 0 then .invalid
    else
      let r := v - Mode.nearest.round false (v / v') * v'
      .exact (finite (s ^^ decide (r < 0)) |r|)

/-- The conversion to a format that does not have all numbers of the other one. -/
def roundTo : Datum K → Result K
  | nan s => .ofNaN s
  | infinite s => .exact (infinite s)
  | finite s v => .ofRounded s (f.round mode s v)

end Datum

namespace Datum

variable {K : Type} [Field K] [LinearOrder K] [FloorRing K]

theorem sum_comm (f : Format) (mode : Mode) (d d' : Datum K) :
    add f mode d d' = add f mode d' d := by
  cases d with
  | nan s =>
    cases d' <;> simp only [add, isSignaling, Bool.or_false]
    rw [Bool.or_comm]
  | infinite s =>
    cases d' with
    | nan s' => simp only [add, isSignaling, Bool.or_false]
    | infinite s' => cases s <;> cases s' <;> rfl
    | finite s' v => rfl
  | finite s v =>
    cases d' with
    | nan s' => simp only [add, isSignaling, Bool.or_false]
    | infinite s' => rfl
    | finite s' v' =>
      rw [add, add, add_comm]
      cases s <;> cases s' <;> rfl

/-- A NaN among the operands is the result. -/
theorem add_of_nan (f : Format) (mode : Mode) {d d' : Datum K} (h : d.IsNaN ∨ d'.IsNaN) :
    add f mode d d' = .ofNaN (d.isSignaling || d'.isSignaling) := by
  cases d with
  | nan s => rfl
  | infinite s =>
    cases d' with
    | nan s' => rfl
    | infinite s' => exact (h.elim id id).elim
    | finite s' v => exact (h.elim id id).elim
  | finite s v =>
    cases d' with
    | nan s' => rfl
    | infinite s' => exact (h.elim id id).elim
    | finite s' v' => exact (h.elim id id).elim

theorem add_cancels (f : Format) (mode : Mode) (s : Bool) (v : K) :
    add f mode (finite s v) (finite (!s) v) = .exact (finite (decide (mode = .down)) 0) := by
  have hzero : signed s v + signed (!s) v = 0 := by
    cases s with
    | false => exact add_neg_cancel v
    | true => exact neg_add_cancel v
  have hsign : ¬s = !s := by cases s <;> decide
  rw [add, hzero, ofSigned, if_pos rfl, if_neg hsign]

variable [IsStrictOrderedRing K]

theorem ofSigned_signed (f : Format) (mode : Mode) (zero s : Bool) {v : K} (hv : 0 < v) :
    ofSigned f mode zero (signed s v) = .ofRounded s (f.round mode s v) := by
  cases s with
  | false =>
    have hpos : signed false v = v := rfl
    rw [hpos, ofSigned, decide_eq_false (not_lt.2 hv.le), if_neg hv.ne', abs_of_pos hv]
  | true =>
    have hneg : signed true v = -v := rfl
    have hlt : -v < 0 := neg_lt_zero.2 hv
    rw [hneg, ofSigned, decide_eq_true hlt, if_neg hlt.ne, abs_neg, abs_of_pos hv]

/-- Magnitudes with one sign are added. -/
theorem add_same (f : Format) (mode : Mode) (s : Bool) {v w : K} (h : 0 < v + w) :
    add f mode (finite s v) (finite s w) = .ofRounded s (f.round mode s (v + w)) := by
  have hsum : signed s v + signed s w = signed s (v + w) := by
    cases s with
    | false => rfl
    | true => exact (neg_add v w).symm
  rw [add, hsum, ofSigned_signed f mode _ s h]

/-- The smaller magnitude is subtracted from the larger one, which gives the sign. -/
theorem add_opposite (f : Format) (mode : Mode) (s : Bool) {v w : K} (h : w < v) :
    add f mode (finite s v) (finite (!s) w) = .ofRounded s (f.round mode s (v - w)) := by
  have hdiff : signed s v + signed (!s) w = signed s (v - w) := by
    cases s with
    | false => exact (sub_eq_add_neg v w).symm
    | true =>
      change -v + w = -(v - w)
      ring
  rw [add, hdiff, ofSigned_signed f mode _ s (sub_pos.2 h)]

/-- Rounded to an integer, as a number of the format again. -/
def roundToIntegral (mode : Mode) : Datum K → Result K
  | nan s => .ofNaN s
  | infinite s => .exact (infinite s)
  | finite s v =>
    ⟨finite s (mode.round s v), { inexact := decide ((mode.round s v : K) ≠ v) }⟩

/-- Rounded to an integer between two bounds, and whether it has been exact. -/
def toInteger (mode : Mode) (lo hi : ℤ) : Datum K → Option (ℤ × Bool)
  | nan _ => none
  | infinite _ => none
  | finite s v =>
    let n := if s then -mode.round s v else mode.round s v
    if lo ≤ n ∧ n ≤ hi then some (n, decide ((mode.round s v : K) = v)) else none

end Datum

section Order

variable {K : Type} [Field K]

/-- A magnitude with its sign, on the line with two ends. -/
def extended (negative : Bool) : WithTop K → WithBot (WithTop K)
  | ⊤ => if negative then ⊥ else ⊤
  | (v : K) => ((Datum.signed negative v : K) : WithTop K)

/-- A NaN is not on the line. -/
def Datum.number : Datum K → Option (WithBot (WithTop K))
  | nan _ => none
  | infinite s => some (extended s ⊤)
  | finite s v => some (extended s v)

theorem extended_coe (s : Bool) (v : K) :
    extended s (v : WithTop K) = ((Datum.signed s v : K) : WithTop K) := rfl

variable [LinearOrder K] {e e' : WithTop K}

theorem extended_lt_positive : extended false e < extended false e' ↔ e < e' := by
  have hpositive (e : WithTop K) : extended false e = (e : WithBot (WithTop K)) := by
    cases e <;> rfl
  rw [hpositive, hpositive, WithBot.coe_lt_coe]

variable [IsStrictOrderedRing K]

theorem extended_lt_negative : extended true e < extended true e' ↔ e' < e := by
  cases e with
  | top =>
    cases e' with
    | top => exact iff_of_false (lt_irrefl _) (lt_irrefl _)
    | coe v' => exact iff_of_true (WithBot.bot_lt_coe _) (WithTop.coe_lt_top v')
  | coe v =>
    cases e' with
    | top => exact iff_of_false not_lt_bot (not_lt_of_ge le_top)
    | coe v' =>
      rw [extended_coe, extended_coe, WithBot.coe_lt_coe, WithTop.coe_lt_coe, WithTop.coe_lt_coe]
      exact neg_lt_neg_iff

theorem extended_lt_mixed (h : 0 ≤ e) (h' : 0 ≤ e') :
    extended true e < extended false e' ↔ ¬(e = 0 ∧ e' = 0) := by
  cases e with
  | top => exact iff_of_true (by cases e' <;> exact WithBot.bot_lt_coe _) fun h => WithTop.top_ne_zero h.1
  | coe v =>
    cases e' with
    | top =>
      exact iff_of_true (WithBot.coe_lt_coe.2 (WithTop.coe_lt_top _)) fun h => WithTop.top_ne_zero h.2
    | coe v' =>
      have hv : 0 ≤ v := by exact_mod_cast h
      have hv' : 0 ≤ v' := by exact_mod_cast h'
      rw [extended_coe, extended_coe, WithBot.coe_lt_coe, WithTop.coe_lt_coe, WithTop.coe_eq_zero,
        WithTop.coe_eq_zero]
      change -v < v' ↔ _
      constructor
      · rintro hlt ⟨rfl, rfl⟩
        exact lt_irrefl 0 (neg_zero (G := K) ▸ hlt)
      · intro hne
        rcases hv.lt_or_eq with hpos | rfl
        · linarith
        · rw [neg_zero]
          exact lt_of_le_of_ne hv' fun heq => hne ⟨rfl, heq.symm⟩

theorem not_extended_lt_mixed (h : 0 ≤ e) (h' : 0 ≤ e') :
    ¬extended false e < extended true e' := by
  cases e with
  | top => exact not_lt_of_ge le_top
  | coe v =>
    cases e' with
    | top => exact not_lt_bot
    | coe v' =>
      have hv : 0 ≤ v := by exact_mod_cast h
      have hv' : 0 ≤ v' := by exact_mod_cast h'
      rw [extended_coe, extended_coe, WithBot.coe_lt_coe, WithTop.coe_lt_coe]
      change ¬v < -v'
      linarith

theorem extended_eq_mixed (h : 0 ≤ e) (h' : 0 ≤ e') :
    extended true e = extended false e' ↔ e = 0 ∧ e' = 0 := by
  have hle : extended true e ≤ extended false e' := not_lt.1 (not_extended_lt_mixed h' h)
  rw [← not_iff_not, ← extended_lt_mixed h h']
  exact ⟨fun hne => lt_of_le_of_ne hle hne, ne_of_lt⟩

theorem extended_inj (s : Bool) : extended s e = extended s e' ↔ e = e' := by
  have hline {L : Type} [LinearOrder L] (a b : L) : a = b ↔ ¬a < b ∧ ¬b < a := by
    rw [not_lt, not_lt, and_comm, le_antisymm_iff]
  cases s with
  | false => rw [hline, extended_lt_positive, extended_lt_positive, ← hline]
  | true => rw [hline, extended_lt_negative, extended_lt_negative, ← hline, eq_comm]

end Order

end Utlib.Rounding
