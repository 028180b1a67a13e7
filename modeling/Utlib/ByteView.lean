import Utlib.Cyclic
import Utlib.Machine

/-! `utl::BaseByteView` (primitives/ByteView.h): the cyclic iterator. -/

namespace Utlib

/-- A span whose size is an `isize`, as the constructor's assertion admits it. -/
structure ByteView where
  sp : List UInt8
  fits : sp.length < 2 ^ 63

namespace ByteView

def size (v : ByteView) : Int64 := Int64.ofNat v.sp.length

def FitsISize (x : Int) : Prop := -2 ^ 63 ≤ x ∧ x < 2 ^ 63

instance (x : Int) : Decidable (FitsISize x) := inferInstanceAs (Decidable (_ ∧ _))

/-- A signed addition, with `none` for an overflow -/
def checkedAdd (x : Int64) (d : Int) : Option Int64 :=
  if FitsISize (x.toInt + d) then some (Int64.ofInt (x.toInt + d)) else none

/-- `cyclic_iterator`, which is not made for an empty view. -/
@[ext] structure CyclicIterator where
  view : ByteView
  pos : Int64
  nonempty : view.sp ≠ []

def cyclicBegin (v : ByteView) (hv : v.sp ≠ []) (pos : Int64) : CyclicIterator := ⟨v, pos, hv⟩

namespace CyclicIterator

def offset (it : CyclicIterator) : Int64 :=
  let n := it.view.size
  let i := it.pos % n
  if i < 0 then i + n else i

/-- `++it` -/
def increment (it : CyclicIterator) : Option CyclicIterator := do
  some { it with pos := ← checkedAdd it.pos 1 }

/-- `--it` -/
def decrement (it : CyclicIterator) : Option CyclicIterator := do
  some { it with pos := ← checkedAdd it.pos (-1) }

/-- `it++`, with what it returns -/
def postIncrement (it : CyclicIterator) : Option (CyclicIterator × CyclicIterator) := do
  let tmp := it
  let it ← it.increment
  some (tmp, it)

/-- `it--`, which steps forward -/
def postDecrement (it : CyclicIterator) : Option (CyclicIterator × CyclicIterator) := do
  let tmp := it
  let it ← it.increment
  some (tmp, it)

end CyclicIterator

inductive Op
  | preInc
  | postInc
  | preDec
  | postDec
  deriving DecidableEq

def Op.isPost : Op → Bool
  | .postInc | .postDec => true
  | .preInc | .preDec => false

/-- A step, with the iterator that it returns -/
def step (op : Op) (it : CyclicIterator) : Option (CyclicIterator × CyclicIterator) :=
  match op with
  | .preInc => it.increment.map fun it => (it, it)
  | .postInc => it.postIncrement
  | .preDec => it.decrement.map fun it => (it, it)
  | .postDec => it.postDecrement

def cyclicMachine : Machine Op CyclicIterator CyclicIterator := ⟨fun _ _ => True, step⟩

/-- How far a step moves the iterator -/
def Op.move : Op → Int
  | .preInc | .postInc | .postDec => 1
  | .preDec => -1

/-- No position on the way is too large for an `isize`. -/
def InRange : Int → List Op → Prop
  | _, [] => True
  | x, op :: ops => FitsISize (x + op.move) ∧ InRange (x + op.move) ops

/-- The start, plus the number of increments, minus the number of decrements -/
def target (start : Int) (ops : List Op) : Int :=
  start + (ops.count .preInc + ops.count .postInc : Nat) -
    (ops.count .preDec + ops.count .postDec : Nat)

/-- From `it` on, the steps lead to where they should, and each of the postfix operators returns
the iterator before the step. -/
def Follows (it : CyclicIterator) (ops : List Op) : Prop :=
  ∃ returned it', cyclicMachine.run ops it = some (returned, it') ∧
    it'.offset.toInt = target it.pos.toInt ops % it.view.sp.length ∧
    ∀ k op, ops[k]? = some op → op.isPost → ∀ returned' before,
      cyclicMachine.run (ops.take k) it = some (returned', before) → returned[k]? = some before

theorem toInt_size (v : ByteView) : v.size.toInt = v.sp.length := by
  rw [size, Int64.toInt_ofNat_of_lt v.fits]

theorem CyclicIterator.toInt_offset (it : CyclicIterator) :
    it.offset.toInt = it.pos.toInt % it.view.sp.length := by
  have hpos : (0 : Int) < it.view.sp.length := by
    exact_mod_cast List.length_pos_of_ne_nil it.nonempty
  have hsize := toInt_size it.view
  have hfits := it.view.fits
  have hmod : (it.pos % it.view.size).toInt = it.pos.toInt.tmod it.view.sp.length := by
    rw [Int64.toInt_mod, hsize]
  have hlower := Int.lt_tmod_of_pos it.pos.toInt hpos
  have hupper := Int.tmod_lt_of_pos it.pos.toInt hpos
  rw [← Cyclic.tmod_add_eq_emod hpos, offset]
  split
  · next hneg =>
    rw [Int64.lt_iff_toInt_lt, hmod, Int64.toInt_zero] at hneg
    rw [if_pos hneg, Int64.toInt_add, hmod, hsize, Int.bmod_eq_of_le (by omega) (by omega)]
  · next hnonneg =>
    rw [Int64.lt_iff_toInt_lt, hmod, Int64.toInt_zero] at hnonneg
    rw [if_neg hnonneg, hmod]

section Steps

variable {it it' o : CyclicIterator} {op : Op} {ops : List Op} {returned : List CyclicIterator}

theorem fitsISize_toInt (x : Int64) : FitsISize x.toInt := ⟨x.le_toInt, x.toInt_lt⟩

theorem checkedAdd_eq_some_iff {x y : Int64} {d : Int} :
    checkedAdd x d = some y ↔ y.toInt = x.toInt + d := by
  rw [checkedAdd]
  split
  · next hfits =>
    rw [Option.some.injEq, ← Int64.toInt_inj, Int64.toInt_ofInt_of_le hfits.1 hfits.2, eq_comm]
  · next hover =>
    refine iff_of_false nofun fun heq => hover ?_
    rw [← heq]
    exact fitsISize_toInt y

theorem moved_eq_some_iff {d : Int} :
    (do some { it with pos := ← checkedAdd it.pos d } : Option CyclicIterator) = some it' ↔
      it'.view = it.view ∧ it'.pos.toInt = it.pos.toInt + d := by
  rw [← checkedAdd_eq_some_iff]
  cases checkedAdd it.pos d with
  | none => simp
  | some pos =>
    simp only [Option.bind_eq_bind, Option.bind_some, Option.some.injEq]
    constructor
    · rintro rfl
      exact ⟨rfl, rfl⟩
    · rintro ⟨hview, hpos⟩
      exact CyclicIterator.ext hview.symm hpos

theorem increment_eq_some_iff :
    it.increment = some it' ↔ it'.view = it.view ∧ it'.pos.toInt = it.pos.toInt + 1 :=
  moved_eq_some_iff

theorem decrement_eq_some_iff :
    it.decrement = some it' ↔ it'.view = it.view ∧ it'.pos.toInt = it.pos.toInt + -1 :=
  moved_eq_some_iff

theorem map_twice_eq_some_iff {x : Option CyclicIterator} :
    (x.map fun it => (it, it)) = some (o, it') ↔ x = some it' ∧ o = it' := by
  cases x with
  | none => simp
  | some it₁ =>
    simp only [Option.map_some, Option.some.injEq, Prod.mk.injEq]
    constructor
    · rintro ⟨rfl, rfl⟩
      exact ⟨rfl, rfl⟩
    · rintro ⟨rfl, rfl⟩
      exact ⟨rfl, rfl⟩

theorem bind_pair_eq_some_iff {x : Option CyclicIterator} :
    (x.bind fun it₁ => some (it, it₁)) = some (o, it') ↔ x = some it' ∧ o = it := by
  cases x with
  | none => simp
  | some it₁ => simp [and_comm, eq_comm]

/-- What a step does. Both postfix operators increment. -/
theorem step_eq_some_iff :
    step op it = some (o, it') ↔
      (it'.view = it.view ∧ it'.pos.toInt = it.pos.toInt + op.move) ∧
        o = if op.isPost then it else it' := by
  cases op with
  | preInc =>
    rw [Op.move, ← increment_eq_some_iff]
    exact map_twice_eq_some_iff
  | postInc =>
    rw [Op.move, ← increment_eq_some_iff]
    exact bind_pair_eq_some_iff
  | preDec =>
    rw [Op.move, ← decrement_eq_some_iff]
    exact map_twice_eq_some_iff
  | postDec =>
    rw [Op.move, ← increment_eq_some_iff]
    exact bind_pair_eq_some_iff

/-- A run is where the moves of its steps lead to. -/
theorem pos_of_run (h : cyclicMachine.run ops it = some (returned, it')) :
    it'.view = it.view ∧ it'.pos.toInt = ops.foldl (fun x op => x + op.move) it.pos.toInt := by
  induction ops generalizing it returned with
  | nil =>
    cases h
    exact ⟨rfl, rfl⟩
  | cons op ops ih =>
    obtain ⟨o, it₁, os, hstep, hrun, -⟩ := Machine.run_cons_eq_some_iff.1 h
    obtain ⟨⟨hview, hpos⟩, -⟩ := step_eq_some_iff.1 hstep
    obtain ⟨hview', hpos'⟩ := ih hrun
    rw [List.foldl_cons, ← hpos]
    exact ⟨hview'.trans hview, hpos'⟩

theorem exists_run_iff :
    (∃ returned it', cyclicMachine.run ops it = some (returned, it')) ↔
      InRange it.pos.toInt ops := by
  induction ops generalizing it with
  | nil => exact ⟨fun _ => trivial, fun _ => ⟨[], it, rfl⟩⟩
  | cons op ops ih =>
    constructor
    · rintro ⟨returned, it', h⟩
      obtain ⟨o, it₁, os, hstep, hrun, -⟩ := Machine.run_cons_eq_some_iff.1 h
      obtain ⟨⟨-, hpos⟩, -⟩ := step_eq_some_iff.1 hstep
      have hrest := ih.1 ⟨os, it', hrun⟩
      rw [hpos] at hrest
      have hfits := fitsISize_toInt it₁.pos
      rw [hpos] at hfits
      exact ⟨hfits, hrest⟩
    · rintro ⟨hfits, hrest⟩
      let it₁ : CyclicIterator := { it with pos := Int64.ofInt (it.pos.toInt + op.move) }
      have hpos : it₁.pos.toInt = it.pos.toInt + op.move :=
        Int64.toInt_ofInt_of_le hfits.1 hfits.2
      rw [← hpos] at hrest
      obtain ⟨os, it', hrun⟩ := ih.2 hrest
      exact ⟨_, it', Machine.run_cons_eq_some_iff.2
        ⟨_, it₁, os, step_eq_some_iff.2 ⟨⟨rfl, hpos⟩, rfl⟩, hrun, rfl⟩⟩

/-- A postfix operator returns the iterator before the step. -/
theorem getElem?_returned (h : cyclicMachine.run ops it = some (returned, it')) {k : Nat}
    (hop : ops[k]? = some op) (hpost : op.isPost) {returned' : List CyclicIterator}
    {before : CyclicIterator}
    (hbefore : cyclicMachine.run (ops.take k) it = some (returned', before)) :
    returned[k]? = some before := by
  induction k generalizing ops it returned returned' with
  | zero =>
    cases ops with
    | nil => cases hop
    | cons op' ops =>
      cases hop
      cases hbefore
      obtain ⟨o, it₁, os, hstep, -, rfl⟩ := Machine.run_cons_eq_some_iff.1 h
      rw [(step_eq_some_iff.1 hstep).2, if_pos hpost]
      rfl
  | succ k ih =>
    cases ops with
    | nil => cases hop
    | cons op' ops =>
      obtain ⟨o, it₁, os, hstep, hrun, rfl⟩ := Machine.run_cons_eq_some_iff.1 h
      obtain ⟨o', it₂, os', hstep', hrun', -⟩ := Machine.run_cons_eq_some_iff.1 hbefore
      obtain ⟨-, rfl⟩ := Prod.mk.inj (Option.some.inj (hstep.symm.trans hstep'))
      exact ih hrun hop hrun'

theorem count_cons_op (a op : Op) (ops : List Op) :
    (op :: ops).count a = ops.count a + if op = a then 1 else 0 := by
  rw [List.count_cons]
  simp only [beq_iff_eq]

theorem foldl_move (start : Int) (ops : List Op) :
    ops.foldl (fun x op => x + op.move) start =
      target start ops + (2 * ops.count .postDec : Nat) := by
  induction ops generalizing start with
  | nil =>
    simp only [target, List.count_nil, List.foldl_nil]
    omega
  | cons op ops ih =>
    rw [List.foldl_cons, ih]
    simp only [target, count_cons_op]
    cases op <;> simp only [Op.move, reduceCtorEq, if_true, if_false] <;> omega

theorem add_emod_eq_iff (a : Int) {b n : Nat} : (a + b) % n = a % n ↔ n ∣ b := by
  rw [Int.emod_eq_emod_iff_emod_sub_eq_zero, add_sub_cancel_left, ← Int.dvd_iff_emod_eq_zero,
    Int.natCast_dvd_natCast]

/-- The end of a run is where it should be if the decrements that went forward go round. -/
theorem offset_of_run (h : cyclicMachine.run ops it = some (returned, it')) :
    it'.offset.toInt = target it.pos.toInt ops % it.view.sp.length ↔
      it.view.sp.length ∣ 2 * ops.count .postDec := by
  obtain ⟨hview, hpos⟩ := pos_of_run h
  rw [it'.toInt_offset, hview, hpos, foldl_move, add_emod_eq_iff]

/-- Just the postfix decrements go wrong, unless they go round the view. -/
theorem follows_iff (v : ByteView) (hv : v.sp ≠ []) (start : Int64) (ops : List Op) :
    Follows (cyclicBegin v hv start) ops ↔
      InRange start.toInt ops ∧ v.sp.length ∣ 2 * ops.count .postDec := by
  constructor
  · rintro ⟨returned, it', hrun, hoffset, -⟩
    exact ⟨exists_run_iff.1 ⟨returned, it', hrun⟩, (offset_of_run hrun).1 hoffset⟩
  · rintro ⟨hrange, hdvd⟩
    obtain ⟨returned, it', hrun⟩ :
        ∃ returned it', cyclicMachine.run ops (cyclicBegin v hv start) = some (returned, it') :=
      exists_run_iff.2 hrange
    exact ⟨returned, it', hrun, (offset_of_run hrun).2 hdvd,
      fun k op hop hpost returned' before hbefore => getElem?_returned hrun hop hpost hbefore⟩

def threeBytes : ByteView := ⟨[1, 2, 3], by decide⟩

theorem follows_iff_three_bytes :
    Follows (cyclicBegin threeBytes (by decide) (-1)) [.postDec, .preDec, .postDec, .postDec] ↔
      InRange (-1) [.postDec, .preDec, .postDec, .postDec] ∧ 3 ∣ 2 * 3 :=
  follows_iff threeBytes (by decide) (-1) [.postDec, .preDec, .postDec, .postDec]

/-- From the first of three bytes, a single decrement leads to the second one. -/
theorem not_follows_postDec : ¬Follows (cyclicBegin threeBytes (by decide) 0) [.postDec] := by
  rintro ⟨returned, it', hrun, hoffset, -⟩
  exact absurd ((offset_of_run hrun).1 hoffset) (by decide)

end Steps

end ByteView

end Utlib
