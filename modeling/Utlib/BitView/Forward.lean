import Mathlib.Logic.Function.Iterate
import Utlib.BitView.Stream

/-! `utl::BaseBitView::forward`, the search for a bit pattern. -/

namespace Utlib.BitView

open BigEndian
open ByteView (FitsISize checkedAdd)

/-- The shift register of `forward` and the iterator that feeds it. -/
structure Scan where
  shiftreg : UInt64
  probe : CyclicIterator

namespace Scan

/-- `shiftreg = (shiftreg << 1) | u64(probe[0])`, then `++probe`. -/
def step (s : Scan) : Scan where
  shiftreg := s.shiftreg <<< UInt64.ofNat 1 ||| (s.probe.get 0).toUInt64
  probe := s.probe.advance 1

def search (mask target : UInt64) : Nat → Scan → Option CyclicIterator
  | 0, _ => none
  | n + 1, s => if s.shiftreg &&& mask = target then some s.probe else s.step.search mask target n

end Scan

def forward (v : BitView) (it : CyclicIterator) (pattern : UInt64) (bits : Nat) :
    Bool × CyclicIterator :=
  let mask := lowMask bits
  let target := pattern &&& mask
  let filled := Scan.step^[bits] ⟨0, it⟩
  (filled.search mask target v.size).elim (false, it) fun probe => (true, probe)

/-- The same with a probe whose position is an `isize` -/
structure CheckedScan where
  shiftreg : UInt64
  probe : Int64

namespace CheckedScan

def step (v : BitView) (s : CheckedScan) : Option CheckedScan := do
  some
    { shiftreg := s.shiftreg <<< UInt64.ofNat 1 ||| (v.get s.probe.toInt).toUInt64
      probe := ← checkedAdd s.probe 1 }

def fill (v : BitView) : Nat → CheckedScan → Option CheckedScan
  | 0, s => some s
  | n + 1, s => do fill v n (← s.step v)

/-- `none` is an overflow, and `some none` that nothing has been found. -/
def search (v : BitView) (mask target : UInt64) : Nat → CheckedScan → Option (Option Int64)
  | 0, _ => some none
  | n + 1, s =>
    if s.shiftreg &&& mask = target then some (some s.probe)
    else do search v mask target n (← s.step v)

end CheckedScan

def checkedForward (v : BitView) (it : Int64) (pattern : UInt64) (bits : Nat) :
    Option (Bool × Int64) := do
  let mask := lowMask bits
  let target := pattern &&& mask
  let filled ← CheckedScan.fill v bits ⟨0, it⟩
  let found ← filled.search v mask target v.size
  some (found.elim (false, it) fun probe => (true, probe))

/-- The bits from `i` on are the low `bits` bits of the pattern. -/
def Occurs (v : BitView) (pattern : UInt64) (bits : Nat) (i : Int) : Prop :=
  value (fun k => v.get ((i + k) % v.size)) bits = pattern.toNat % 2 ^ bits

instance (v : BitView) (pattern : UInt64) (bits : Nat) (i : Int) :
    Decidable (v.Occurs pattern bits i) := by
  unfold Occurs
  infer_instance

namespace CyclicIterator

theorem deref_eq (it : CyclicIterator) : it.deref = it.view.get it.pos := by
  have hv := it.nonempty
  rw [deref, ← get_emod hv it.pos]
  congr 1
  simp only [Int.tmod_eq_emod, Int.natAbs_natCast]
  have hnonneg := Int.emod_nonneg it.pos (show (it.view.size : Int) ≠ 0 by omega)
  have hlt := Int.emod_lt_of_pos it.pos (show (0 : Int) < it.view.size by omega)
  split <;> split <;> omega

theorem get_zero (it : CyclicIterator) : it.get 0 = it.view.get it.pos := by
  rw [get, deref_eq, advance, Int.add_zero]

end CyclicIterator

namespace Scan

variable {s : Scan} {it : CyclicIterator} {bits k m n : Nat}

/-- The scan has taken in the first `m` bits from `it` on. -/
structure Took (s : Scan) (it : CyclicIterator) (m : Nat) : Prop where
  probe : s.probe = it.advance m
  shiftreg : s.shiftreg.toNat = it.view.cyclicValue it.pos m % 2 ^ 64

theorem Took.start : Took ⟨0, it⟩ it 0 where
  probe := by simp [CyclicIterator.advance]
  shiftreg := rfl

theorem Took.step (h : s.Took it m) : s.step.Took it (m + 1) where
  probe := by
    rw [Scan.step, h.probe, CyclicIterator.advance, CyclicIterator.advance,
      CyclicIterator.advance, Nat.cast_succ, Int.add_assoc]
  shiftreg := by
    have hbit : (s.probe.get 0).toUInt64.toNat = it.view.cyclicValue (it.pos + m) 1 := by
      rw [h.probe, CyclicIterator.get_zero, cyclicValue_eq it.nonempty]
      simp [value, CyclicIterator.advance, toNat_toUInt64]
    rw [Scan.step, toNat_shiftIn _ (by decide) (hbit.trans_lt (cyclicValue_lt _ _ 1)), hbit,
      h.shiftreg, cyclicValue_add it.nonempty, Nat.add_mod, Nat.mod_mul_mod, ← Nat.add_mod]

theorem Took.iterate (n : Nat) (it : CyclicIterator) : (Scan.step^[n] ⟨0, it⟩).Took it n := by
  induction n with
  | zero => exact Took.start
  | succ n ih =>
    rw [Function.iterate_succ_apply']
    exact ih.step

theorem Took.match_iff (h : s.Took it (k + bits)) (pattern : UInt64) (hle : bits ≤ 64) :
    s.shiftreg &&& lowMask bits = pattern &&& lowMask bits ↔
      it.view.Occurs pattern bits (it.pos + k) := by
  have hdvd : 2 ^ bits ∣ 2 ^ 64 := Nat.pow_dvd_pow 2 hle
  rw [← UInt64.toNat_inj, toNat_and_lowMask _ hle, toNat_and_lowMask _ hle, h.shiftreg,
    Nat.mod_mod_of_dvd _ hdvd, cyclicValue_add it.nonempty, Nat.mul_add_mod_self_right,
    Nat.mod_eq_of_lt (cyclicValue_lt _ _ bits)]
  rfl

/-- The position that a search of `n` steps reports. -/
theorem Took.search_eq (h : s.Took it (k + bits)) (pattern : UInt64) (hle : bits ≤ 64) (n : Nat) :
    (s.search (lowMask bits) (pattern &&& lowMask bits) n = none ∧
        ∀ j, k ≤ j → j < k + n → ¬it.view.Occurs pattern bits (it.pos + j)) ∨
      ∃ j, k ≤ j ∧ j < k + n ∧ it.view.Occurs pattern bits (it.pos + j) ∧
        (∀ l, k ≤ l → l < j → ¬it.view.Occurs pattern bits (it.pos + l)) ∧
        s.search (lowMask bits) (pattern &&& lowMask bits) n = some (it.advance (j + bits)) := by
  induction n generalizing s k with
  | zero => exact .inl ⟨rfl, fun j hj hlt => absurd hlt (by omega)⟩
  | succ n ih =>
    have hmatch := h.match_iff pattern hle
    rw [search]
    by_cases hfound : it.view.Occurs pattern bits (it.pos + k)
    · right
      refine ⟨k, le_rfl, by omega, hfound, fun l hl hlt => absurd hlt (by omega), ?_⟩
      rw [if_pos (hmatch.2 hfound), h.probe, Nat.cast_add]
    · rw [if_neg (mt hmatch.1 hfound)]
      have hstep : s.step.Took it (k + 1 + bits) := by
        rw [Nat.add_right_comm]
        exact h.step
      rcases ih hstep with ⟨hnone, hfree⟩ | ⟨j, hj, hlt, hocc, hfree, hsome⟩
      · left
        refine ⟨hnone, fun j hj hlt => ?_⟩
        rcases Nat.eq_or_lt_of_le hj with rfl | hj
        · exact hfound
        · exact hfree j hj (by omega)
      · right
        refine ⟨j, by omega, by omega, hocc, fun l hl hlt => ?_, hsome⟩
        rcases Nat.eq_or_lt_of_le hl with rfl | hl
        · exact hfound
        · exact hfree l hl hlt

end Scan

namespace CheckedScan

variable {v : BitView} {s : CheckedScan} {n : Nat}

/-- The scan that `s` is, with an unbounded position -/
def unbounded (s : CheckedScan) (v : BitView) (hv : 0 < v.size) : Scan :=
  ⟨s.shiftreg, v.cyclicBegin hv s.probe.toInt⟩

theorem step_eq (hv : 0 < v.size) (h : FitsISize (s.probe.toInt + 1)) :
    ∃ t, s.step v = some t ∧ t.unbounded v hv = (s.unbounded v hv).step ∧
      t.probe.toInt = s.probe.toInt + 1 := by
  rcases checkedAdd_cases s.probe 1 with ⟨probe, hprobe, hpos⟩ | ⟨-, hover⟩
  · refine ⟨⟨_, probe⟩, by rw [step, hprobe]; rfl, ?_, hpos⟩
    rw [unbounded, unbounded, Scan.step, CyclicIterator.get_zero, hpos]
    rfl
  · exact absurd h hover

theorem fitsISize_add {x : Int64} {a b : Int} (h : FitsISize (x.toInt + b)) (ha : 0 ≤ a)
    (hle : a ≤ b) : FitsISize (x.toInt + a) := by
  by_contra hnot
  exact not_fitsISize_of_le hnot ha hle h

theorem fill_eq (hv : 0 < v.size) (h : FitsISize (s.probe.toInt + n)) :
    ∃ t, fill v n s = some t ∧ t.unbounded v hv = Scan.step^[n] (s.unbounded v hv) ∧
      t.probe.toInt = s.probe.toInt + n := by
  induction n generalizing s with
  | zero => exact ⟨s, rfl, rfl, (Int.add_zero _).symm⟩
  | succ n ih =>
    obtain ⟨u, hu, hstep, hpos⟩ := step_eq hv (s := s) (fitsISize_add h (by decide) (by omega))
    obtain ⟨t, ht, hfilled, hpos'⟩ := ih (s := u) (by rw [hpos]; convert h using 1; omega)
    refine ⟨t, ?_, ?_, by omega⟩
    · rw [fill, hu]
      exact ht
    · rw [hfilled, hstep, Function.iterate_succ_apply]

theorem search_eq (mask target : UInt64) (hv : 0 < v.size) (h : FitsISize (s.probe.toInt + n)) :
    ∃ found : Option Int64, search v mask target n s = some found ∧
      (s.unbounded v hv).search mask target n =
        found.map fun probe => v.cyclicBegin hv probe.toInt := by
  induction n generalizing s with
  | zero => exact ⟨none, rfl, rfl⟩
  | succ n ih =>
    rw [search, Scan.search]
    by_cases hmatch : s.shiftreg &&& mask = target
    · exact ⟨some s.probe, if_pos hmatch, if_pos hmatch⟩
    · obtain ⟨u, hu, hstep, hpos⟩ := step_eq hv (s := s) (fitsISize_add h (by decide) (by omega))
      obtain ⟨found, hfound, hunbounded⟩ := ih (s := u) (by rw [hpos]; convert h using 1; omega)
      refine ⟨found, ?_, ?_⟩
      · rw [if_neg hmatch, hu]
        exact hfound
      · rw [← hunbounded, hstep]
        exact if_neg hmatch

end CheckedScan

/-- As long as the position behind the last bit that is looked at can be held, `forward` goes where
it goes with unbounded positions. -/
theorem checkedForward_eq {v : BitView} (hv : 0 < v.size) (it : Int64) (pattern : UInt64)
    {bits : Nat} (h : FitsISize (it.toInt + (bits + v.size : Nat))) :
    ∃ pos : Int64, v.checkedForward it pattern bits =
        some ((v.forward (v.cyclicBegin hv it.toInt) pattern bits).1, pos) ∧
      (v.forward (v.cyclicBegin hv it.toInt) pattern bits).2 = v.cyclicBegin hv pos.toInt := by
  obtain ⟨filled, hfill, hfilled, hpos⟩ := CheckedScan.fill_eq hv (s := ⟨0, it⟩) (n := bits)
    (CheckedScan.fitsISize_add h (by omega) (by omega))
  have hroom : FitsISize (filled.probe.toInt + v.size) := by
    rw [hpos]
    convert h using 1
    simp only
    omega
  obtain ⟨found, hsearch, hfound⟩ :=
    CheckedScan.search_eq (lowMask bits) (pattern &&& lowMask bits) hv hroom
  have hforward : v.forward (v.cyclicBegin hv it.toInt) pattern bits =
      (found.map fun probe => v.cyclicBegin hv probe.toInt).elim
        (false, v.cyclicBegin hv it.toInt) fun probe => (true, probe) := by
    rw [← hfound, hfilled]
    rfl
  have hchecked : v.checkedForward it pattern bits =
      some (found.elim (false, it) fun probe => (true, probe)) := by
    simp only [checkedForward, hfill, hsearch, Option.bind_eq_bind, Option.bind_some]
  rw [hforward, hchecked]
  cases found with
  | none => exact ⟨it, rfl, rfl⟩
  | some probe => exact ⟨probe, rfl, rfl⟩

variable {v : BitView} {p : Int} {pattern : UInt64} {bits k : Nat}

/-- The nearest place at or after `p` where the pattern occurs is `k` bits ahead. -/
structure Nearest (v : BitView) (pattern : UInt64) (bits : Nat) (p : Int) (k : Nat) : Prop where
  lt : k < v.size
  occurs : v.Occurs pattern bits (p + k)
  free : ∀ j, j < k → ¬v.Occurs pattern bits (p + j)

theorem forward_cases (hv : 0 < v.size) (p : Int) (pattern : UInt64) (hle : bits ≤ 64) :
    (v.forward (v.cyclicBegin hv p) pattern bits = (false, v.cyclicBegin hv p) ∧
        ∀ k, k < v.size → ¬v.Occurs pattern bits (p + k)) ∨
      ∃ k, v.Nearest pattern bits p k ∧
        v.forward (v.cyclicBegin hv p) pattern bits =
          (true, v.cyclicBegin hv (p + k + bits)) := by
  have hfilled := Scan.Took.iterate bits (v.cyclicBegin hv p)
  rw [← Nat.zero_add bits] at hfilled
  rcases hfilled.search_eq pattern hle v.size with
    ⟨hnone, hfree⟩ | ⟨k, -, hlt, hocc, hfree, hsome⟩
  · left
    rw [Nat.zero_add] at hnone
    refine ⟨?_, fun k hk => hfree k (Nat.zero_le k) (by omega)⟩
    rw [forward, hnone, Option.elim_none]
  · right
    rw [Nat.zero_add] at hsome
    refine ⟨k, ⟨by omega, hocc, fun j hj => hfree j (Nat.zero_le j) hj⟩, ?_⟩
    rw [forward, hsome, Option.elim_some, Int.add_assoc]
    rfl

/-- `forward` finds the nearest match, with `isize` positions too as long as the one behind the
last bit that it looks at can be held. -/
theorem forward_reports_nearest (hv : 0 < v.size) (p : Int) (pattern : UInt64) (hle : bits ≤ 64) :
    ((v.forward (v.cyclicBegin hv p) pattern bits).1 = true ↔
        ∃ k, k < v.size ∧ v.Occurs pattern bits (p + k)) ∧
      ((v.forward (v.cyclicBegin hv p) pattern bits).1 = false →
        (v.forward (v.cyclicBegin hv p) pattern bits).2 = v.cyclicBegin hv p) ∧
      ((v.forward (v.cyclicBegin hv p) pattern bits).1 = true →
        ∃ k, v.Nearest pattern bits p k ∧
          (v.forward (v.cyclicBegin hv p) pattern bits).2 =
            v.cyclicBegin hv (p + k + bits)) ∧
      ∀ j : Int64, j.toInt = p → FitsISize (p + (bits + v.size : Nat)) →
        ∃ pos : Int64, v.checkedForward j pattern bits =
            some ((v.forward (v.cyclicBegin hv p) pattern bits).1, pos) ∧
          (v.forward (v.cyclicBegin hv p) pattern bits).2 = v.cyclicBegin hv pos.toInt := by
  have hchecked (j : Int64) (hj : j.toInt = p) (hfits : FitsISize (p + (bits + v.size : Nat))) :
      ∃ pos : Int64, v.checkedForward j pattern bits =
          some ((v.forward (v.cyclicBegin hv p) pattern bits).1, pos) ∧
        (v.forward (v.cyclicBegin hv p) pattern bits).2 = v.cyclicBegin hv pos.toInt := by
    subst hj
    exact checkedForward_eq hv j pattern hfits
  rcases forward_cases hv p pattern hle with ⟨hresult, hfree⟩ | ⟨k, hk, hresult⟩
  · rw [hresult] at hchecked ⊢
    refine ⟨⟨fun h => absurd h Bool.false_ne_true, fun ⟨k, hlt, hocc⟩ => ?_⟩, fun _ => rfl,
      fun h => absurd h Bool.false_ne_true, hchecked⟩
    exact absurd hocc (hfree k hlt)
  · rw [hresult] at hchecked ⊢
    exact ⟨⟨fun _ => ⟨k, hk.lt, hk.occurs⟩, fun _ => rfl⟩,
      fun h => absurd h.symm Bool.false_ne_true, fun _ => ⟨k, hk, rfl⟩, hchecked⟩

theorem forward_reports_nearest_twelveBits :
    let it := twelveBits.cyclicBegin (by decide) (-5)
    ((twelveBits.forward it 0x4A5 13).1 = true ↔
        ∃ k, k < twelveBits.size ∧ twelveBits.Occurs 0x4A5 13 (-5 + k)) ∧
      ((twelveBits.forward it 0x4A5 13).1 = false → (twelveBits.forward it 0x4A5 13).2 = it) ∧
      ((twelveBits.forward it 0x4A5 13).1 = true →
        ∃ k, twelveBits.Nearest 0x4A5 13 (-5) k ∧
          (twelveBits.forward it 0x4A5 13).2 =
            twelveBits.cyclicBegin (by decide) (-5 + k + 13)) ∧
      ∀ j : Int64, j.toInt = -5 → FitsISize (-5 + (13 + twelveBits.size : Nat)) →
        ∃ pos : Int64, twelveBits.checkedForward j 0x4A5 13 =
            some ((twelveBits.forward it 0x4A5 13).1, pos) ∧
          (twelveBits.forward it 0x4A5 13).2 = twelveBits.cyclicBegin (by decide) pos.toInt :=
  forward_reports_nearest (v := twelveBits) (by decide) (-5) 0x4A5 (by decide)

/-- What `forward` says of its result: on success the iterator is at the first bit of the match,
so that a second call finds the pattern there. -/
def LeavesOnMatch (v : BitView) (it : CyclicIterator) (pattern : UInt64) (bits : Nat) : Prop :=
  (v.forward it pattern bits).1 = true →
    v.Occurs pattern bits (v.forward it pattern bits).2.pos ∧
      v.forward (v.forward it pattern bits).2 pattern bits =
        (true, (v.forward it pattern bits).2)

theorem forward_leaves_on_match_iff (hv : 0 < v.size) (p : Int) (pattern : UInt64)
    (hpos : 1 ≤ bits) (hle : bits ≤ 64) :
    v.LeavesOnMatch (v.cyclicBegin hv p) pattern bits ↔
      ∀ k, k < v.size → ¬v.Occurs pattern bits (p + k) := by
  rcases forward_cases hv p pattern hle with ⟨hresult, hfree⟩ | ⟨k, hk, hresult⟩
  · rw [LeavesOnMatch, hresult]
    exact ⟨fun _ => hfree, fun _ h => absurd h Bool.false_ne_true⟩
  · constructor
    · intro hleaves
      rw [LeavesOnMatch, hresult] at hleaves
      have hagain := (hleaves rfl).2
      rcases forward_cases hv (p + k + bits) pattern hle with ⟨hresult', -⟩ | ⟨k', -, hresult'⟩
      · rw [hresult'] at hagain
        exact absurd (congrArg Prod.fst hagain) Bool.false_ne_true
      · rw [hresult'] at hagain
        have hpos' := congrArg (fun result => result.2.pos) hagain
        simp only [cyclicBegin] at hpos'
        omega
    · intro hfree
      exact absurd hk.occurs (hfree k hk.lt)

theorem forward_leaves_on_match_twelveBits :
    twelveBits.LeavesOnMatch (twelveBits.cyclicBegin (by decide) 0) 0x1F 5 ↔
      ∀ k, k < twelveBits.size → ¬twelveBits.Occurs 0x1F 5 (0 + k) :=
  forward_leaves_on_match_iff (v := twelveBits) (by decide) 0 0x1F (by decide) (by decide)

theorem forward_stops_behind_match :
    ¬twelveBits.LeavesOnMatch (twelveBits.cyclicBegin (by decide) 0) 0x5 3 := by
  intro h
  exact absurd (h (by decide)).1 (by decide)

end Utlib.BitView
