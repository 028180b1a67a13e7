import Mathlib.Data.Int.ModEq
import Utlib.Bits
import Utlib.Cyclic

/-! `utl::BaseBitView` (primitives/BitView.h). -/

namespace Utlib

open Bits

/-- A window `[first, last)` over the bits of `sp`, as the constructors' assertions admit it. -/
structure BitView where
  sp : List UInt8
  first : Nat
  last : Nat
  last_ge : first ≤ last
  last_le : last ≤ 8 * sp.length

namespace BitView

def size (v : BitView) : Nat := v.last - v.first

def normalize (v : BitView) (i : Int) : Int :=
  if i < 0 ∨ (v.size : Int) ≤ i then
    let i := i.tmod v.size
    if i < 0 then i + v.size else i
  else i

/-- `operator[]` -/
def get (v : BitView) (i : Int) : Bool :=
  let abs := v.first + (v.normalize i).toNat
  (v.sp.getD (abs / 8) 0 >>> UInt8.ofNat (7 - abs % 8)) &&& 1 ≠ 0

/-- The test that sends `getByte` and `setByte` down their fast path. -/
def Aligned (v : BitView) (i : Int) : Prop :=
  (v.first + (v.normalize i).toNat) % 8 = 0 ∧ v.size % 8 = 0

instance (v : BitView) (i : Int) : Decidable (v.Aligned i) := by
  unfold Aligned
  infer_instance

def getByte (v : BitView) (bitIndex : Int) : UInt8 :=
  let n := v.size
  let pos := (v.normalize bitIndex).toNat
  let abs := v.first + pos
  if v.Aligned bitIndex then v.sp.getD (abs / 8) 0
  else
    (List.range 8).foldl (fun val b =>
      let i := v.first + (pos + b) % n
      val <<< 1 ||| (v.sp.getD (i / 8) 0 >>> UInt8.ofNat (7 - i % 8) &&& 1)) 0

/-- The bytes that `setByte` leaves in the span. -/
def setByteBytes (v : BitView) (bitIndex : Int) (val : UInt8) : List UInt8 :=
  let n := v.size
  let pos := (v.normalize bitIndex).toNat
  let abs := v.first + pos
  if v.Aligned bitIndex then v.sp.set (abs / 8) val
  else scatter (fun b => v.first + (pos + b) % n) (fun b => val &&& mask b ≠ 0) 8 v.sp

theorem length_setByteBytes (v : BitView) (i : Int) (val : UInt8) :
    (v.setByteBytes i val).length = v.sp.length := by
  rw [setByteBytes]
  split
  · exact List.length_set
  · exact length_scatter

def setByte (v : BitView) (bitIndex : Int) (val : UInt8) : BitView where
  sp := v.setByteBytes bitIndex val
  first := v.first
  last := v.last
  last_ge := v.last_ge
  last_le := v.last_le.trans_eq (by rw [length_setByteBytes])

section Window

variable {v : BitView} {i : Int}

theorem first_add_size (v : BitView) : v.first + v.size = v.last := by
  have h := v.last_ge
  rw [size]
  omega

theorem normalize_eq (hv : 0 < v.size) (i : Int) : v.normalize i = i % v.size := by
  rw [normalize]
  split
  · exact Cyclic.tmod_add_eq_emod (by omega) i
  · exact (Int.emod_eq_of_lt (by omega) (by omega)).symm

/-- The place in the window that the source calls `pos`. -/
def pos (v : BitView) (i : Int) : Nat := (i % v.size).toNat

theorem toNat_normalize (hv : 0 < v.size) (i : Int) : (v.normalize i).toNat = v.pos i := by
  rw [normalize_eq hv, pos]

theorem pos_lt (hv : 0 < v.size) (i : Int) : v.pos i < v.size := by
  have hlt := Int.emod_lt_of_pos i (show (0 : Int) < v.size by omega)
  rw [pos]
  omega

theorem pos_add (hv : 0 < v.size) (i : Int) (b : Nat) : v.pos (i + b) = (v.pos i + b) % v.size := by
  have hpos : (v.pos i : Int) = i % v.size :=
    Int.toNat_of_nonneg (Int.emod_nonneg i (by omega))
  rw [pos, ← Int.emod_add_emod, ← hpos, ← Nat.cast_add, ← Int.natCast_mod, Int.toNat_natCast]

theorem pos_emod (v : BitView) (i : Int) : v.pos (i % v.size) = v.pos i := by
  rw [pos, pos, Int.emod_emod_of_dvd _ (dvd_refl _)]

theorem div_lt_length {k : Nat} (hk : k < v.size) : (v.first + k) / 8 < v.sp.length := by
  have h := v.first_add_size
  have h' := v.last_le
  omega

theorem get_eq (hv : 0 < v.size) (i : Int) : v.get i = bitAt v.sp (v.first + v.pos i) := by
  rw [get, toNat_normalize hv, shiftRight_and_one _ (Nat.mod_lt _ (by decide)), bitAt]
  generalize bit _ _ = b
  cases b <;> rfl

theorem get_emod (hv : 0 < v.size) (i : Int) : v.get (i % v.size) = v.get i := by
  rw [get_eq hv, get_eq hv, pos_emod]

end Window

section Bytes

variable {v : BitView} {i : Int}

theorem aligned_iff (hv : 0 < v.size) :
    v.Aligned i ↔ (v.first + v.pos i) % 8 = 0 ∧ v.size % 8 = 0 := by
  rw [Aligned, toNat_normalize hv]

theorem bit_getByte_of_aligned (hv : 0 < v.size) (h : v.Aligned i) {b : Nat} (hb : b < 8) :
    bit (v.getByte i) b = bitAt v.sp (v.first + v.pos i + b) := by
  rw [getByte, toNat_normalize hv, if_pos h, bit_getD_of_aligned ((aligned_iff hv).1 h).1 hb]

theorem bit_getByte_of_not_aligned (hv : 0 < v.size) (h : ¬v.Aligned i) {b : Nat} (hb : b < 8) :
    bit (v.getByte i) b = v.get (i + b) := by
  have hstep : ∀ k, v.sp.getD (k / 8) 0 >>> UInt8.ofNat (7 - k % 8) &&& 1 =
      (bitAt v.sp k).toUInt8 := fun k => shiftRight_and_one _ (Nat.mod_lt k (by decide))
  rw [getByte, toNat_normalize hv, if_neg h]
  simp only [hstep]
  rw [bit_gather (fun b => bitAt v.sp (v.first + (v.pos i + b) % v.size)) le_rfl hb,
    if_pos (by omega), get_eq hv, pos_add hv]
  rfl

theorem pos_add_of_aligned (hv : 0 < v.size) (h : v.Aligned i) {b : Nat} (hb : b < 8) :
    v.pos (i + b) = if v.size ≤ v.pos i + b then v.pos i + b - v.size else v.pos i + b := by
  have hpos := pos_lt hv i
  have hsize := ((aligned_iff hv).1 h).2
  rw [pos_add hv]
  split
  · next hle => rw [Nat.mod_eq_sub_mod hle, Nat.mod_eq_of_lt (by omega)]
  · next hlt => exact Nat.mod_eq_of_lt (by omega)

theorem bit_getByte_of_aligned_iff (hv : 0 < v.size) (h : v.Aligned i) {b : Nat} (hb : b < 8) :
    bit (v.getByte i) b = v.get (i + b) ↔
      (v.size ≤ v.pos i + b →
        bitAt v.sp (v.first + v.pos i + b) = bitAt v.sp (v.first + v.pos i + b - v.size)) := by
  rw [get_eq hv, bit_getByte_of_aligned hv h hb, pos_add_of_aligned hv h hb]
  by_cases hle : v.size ≤ v.pos i + b
  · rw [if_pos hle, ← Nat.add_sub_assoc hle, ← Nat.add_assoc]
    exact ⟨fun heq _ => heq, fun heq => heq hle⟩
  · rw [if_neg hle, ← Nat.add_assoc]
    exact ⟨fun _ hle' => absurd hle' hle, fun _ => rfl⟩

theorem getByte_shows_window_iff (hv : 0 < v.size) (i : Int) :
    (∀ b, b < 8 → bit (v.getByte i) b = v.get ((i + b) % v.size)) ↔
      (v.Aligned i → ∀ b, b < 8 → v.size ≤ v.pos i + b →
        bitAt v.sp (v.first + v.pos i + b) = bitAt v.sp (v.first + v.pos i + b - v.size)) := by
  simp only [get_emod hv]
  by_cases h : v.Aligned i
  · constructor
    · intro hall _ b hb
      exact (bit_getByte_of_aligned_iff hv h hb).1 (hall b hb)
    · intro hall b hb
      exact (bit_getByte_of_aligned_iff hv h hb).2 (hall h b hb)
  · constructor
    · intro _ h'
      exact absurd h' h
    · intro _ b hb
      exact bit_getByte_of_not_aligned hv h hb

/-- A window of one byte that starts and ends inside bytes. -/
def straddling : BitView := ⟨[0, 15], 4, 12, by decide, by decide⟩

theorem getByte_shows_straddling :
    (∀ b, b < 8 → bit (straddling.getByte 0) b = straddling.get ((0 + b) % straddling.size)) ↔
      (straddling.Aligned 0 → ∀ b, b < 8 → straddling.size ≤ straddling.pos 0 + b →
        bitAt straddling.sp (straddling.first + straddling.pos 0 + b) =
          bitAt straddling.sp (straddling.first + straddling.pos 0 + b - straddling.size)) :=
  getByte_shows_window_iff (v := straddling) (by decide) 0

theorem getByte_reads_behind_window :
    ¬∀ b : Nat, b < 8 →
      bit (straddling.getByte 4) b = straddling.get ((4 + b) % straddling.size) := by
  decide

theorem get_setByte (hv : 0 < v.size) (i j : Int) (val : UInt8) :
    (v.setByte i val).get j = bitAt (v.setByteBytes i val) (v.first + v.pos j) :=
  get_eq (v := v.setByte i val) hv j

theorem setByte_of_aligned (hv : 0 < v.size) (h : v.Aligned i) (val : UInt8) :
    (∀ b, b < 8 → bitAt (v.setByteBytes i val) (v.first + v.pos i + b) = bit val b) ∧
      ∀ k, k < v.first + v.pos i ∨ v.first + v.pos i + 8 ≤ k →
        bitAt (v.setByteBytes i val) k = bitAt v.sp k := by
  have halign := ((aligned_iff hv).1 h).1
  have hwrite : ∀ k, bitAt (v.setByteBytes i val) k =
      if k / 8 = (v.first + v.pos i) / 8 then bit val (k % 8) else bitAt v.sp k := by
    intro k
    rw [setByteBytes, toNat_normalize hv, if_pos h, bitAt_set (div_lt_length (pos_lt hv i))]
  constructor
  · intro b hb
    rw [hwrite, if_pos (by omega), show (v.first + v.pos i + b) % 8 = b by omega]
  · intro k hk
    rw [hwrite, if_neg (by omega)]

theorem setByteBytes_of_not_aligned (hv : 0 < v.size) (h : ¬v.Aligned i) (val : UInt8) :
    v.setByteBytes i val =
      scatter (fun b => v.first + v.pos (i + b)) (fun b => val &&& mask b ≠ 0) 8 v.sp := by
  simp only [setByteBytes, toNat_normalize hv, if_neg h, pos_add hv]

theorem pos_add_injective (hv : 0 < v.size) (i : Int) {b c : Nat} (hb : b < v.size)
    (hc : c < v.size) (h : v.pos (i + b) = v.pos (i + c)) : b = c := by
  rw [pos_add hv, pos_add hv] at h
  have hmod : b % v.size = c % v.size := Nat.ModEq.add_left_cancel' (v.pos i) h
  rwa [Nat.mod_eq_of_lt hb, Nat.mod_eq_of_lt hc] at hmod

theorem setByte_of_not_aligned (hv : 8 ≤ v.size) (h : ¬v.Aligned i) (val : UInt8) :
    (∀ b : Nat, b < 8 → bitAt (v.setByteBytes i val) (v.first + v.pos (i + b)) = bit val b) ∧
      ∀ k, (∀ b : Nat, b < 8 → k ≠ v.first + v.pos (i + b)) →
        bitAt (v.setByteBytes i val) k = bitAt v.sp k := by
  have hpos : ∀ b : Nat, b < 8 → (v.first + v.pos (i + b)) / 8 < v.sp.length := fun b _ =>
    div_lt_length (pos_lt (by omega) _)
  rw [setByteBytes_of_not_aligned (by omega) h]
  constructor
  · intro b hb
    rw [bitAt_scatter (p := fun b => v.first + v.pos (i + b)) hpos
      (fun b c hb hc heq =>
        pos_add_injective (by omega) i (by omega) (by omega) (Nat.add_left_cancel heq)) hb]
    exact Bool.eq_iff_iff.2 (decide_eq_true_iff.trans (and_mask_ne_zero val hb))
  · intro k hk
    exact bitAt_scatter_of_ne hpos hk

theorem view_setByte_of_aligned_iff (hv : 0 < v.size) (h : v.Aligned i) (val : UInt8) :
    (∀ b : Nat, b < 8 → bitAt (v.setByteBytes i val) (v.first + v.pos (i + b)) = bit val b) ↔
      ∀ b, b < 8 → v.size ≤ v.pos i + b →
        bitAt v.sp (v.first + v.pos i + b - v.size) = bit val b := by
  have halign := (aligned_iff hv).1 h
  obtain ⟨hin, hout⟩ := setByte_of_aligned hv h val
  apply forall₂_congr
  intro b hb
  rw [pos_add_of_aligned hv h hb]
  by_cases hle : v.size ≤ v.pos i + b
  · rw [if_pos hle, hout _ (by omega), ← Nat.add_sub_assoc hle, ← Nat.add_assoc]
    exact ⟨fun heq _ => heq, fun heq => heq hle⟩
  · rw [if_neg hle, ← Nat.add_assoc]
    exact ⟨fun _ hle' => absurd hle' hle, fun _ => hin b hb⟩

theorem frame_setByte_of_aligned_iff (hv : 0 < v.size) (h : v.Aligned i) (val : UInt8) :
    (∀ k, k < 8 * v.sp.length → (∀ b : Nat, b < 8 → k ≠ v.first + v.pos (i + b)) →
        bitAt (v.setByteBytes i val) k = bitAt v.sp k) ↔
      ∀ b, b < 8 → v.size ≤ v.pos i + b → bitAt v.sp (v.first + v.pos i + b) = bit val b := by
  have halign := (aligned_iff hv).1 h
  have hlt := div_lt_length (pos_lt hv i)
  obtain ⟨hin, hout⟩ := setByte_of_aligned hv h val
  constructor
  · intro hframe b hb hle
    rw [← hin b hb]
    refine (hframe _ (by omega) ?_).symm
    intro c hc
    rw [pos_add_of_aligned hv h hc]
    split <;> omega
  · intro hold k _ hk
    by_cases hbyte : v.first + v.pos i ≤ k ∧ k < v.first + v.pos i + 8
    · obtain ⟨b, rfl⟩ := Nat.exists_eq_add_of_le hbyte.1
      have hb : b < 8 := by omega
      have hle : v.size ≤ v.pos i + b := by
        by_contra hle
        have hne := hk b hb
        rw [pos_add_of_aligned hv h hb, if_neg hle] at hne
        omega
      rw [hin b hb, hold b hb hle]
    · exact hout k (by omega)

theorem setByte_writes_window_iff (hv : 8 ≤ v.size) (i : Int) (val : UInt8) :
    ((∀ b : Nat, b < 8 → (v.setByte i val).get ((i + b) % v.size) = bit val b) ∧
        ∀ k, k < 8 * v.sp.length → (∀ b : Nat, b < 8 → k ≠ v.first + v.pos (i + b)) →
          bitAt (v.setByte i val).sp k = bitAt v.sp k) ↔
      (v.Aligned i → ∀ b, b < 8 → v.size ≤ v.pos i + b →
        bitAt v.sp (v.first + v.pos i + b) = bit val b ∧
          bitAt v.sp (v.first + v.pos i + b - v.size) = bit val b) := by
  have hv' : 0 < v.size := by omega
  simp only [get_setByte hv', pos_emod]
  by_cases h : v.Aligned i
  · have hview := view_setByte_of_aligned_iff hv' h val
    have hframe := frame_setByte_of_aligned_iff hv' h val
    constructor
    · intro hall _ b hb hle
      exact ⟨hframe.1 hall.2 b hb hle, hview.1 hall.1 b hb hle⟩
    · intro hall
      exact ⟨hview.2 fun b hb hle => (hall h b hb hle).2,
        hframe.2 fun b hb hle => (hall h b hb hle).1⟩
  · have hslow := setByte_of_not_aligned hv h val
    constructor
    · intro _ h'
      exact absurd h' h
    · intro _
      exact ⟨hslow.1, fun k _ hk => hslow.2 k hk⟩

theorem setByte_writes_straddling :
    ((∀ b : Nat, b < 8 →
          (straddling.setByte 0 200).get ((0 + b) % straddling.size) = bit 200 b) ∧
        ∀ k, k < 8 * straddling.sp.length →
          (∀ b : Nat, b < 8 → k ≠ straddling.first + straddling.pos (0 + b)) →
          bitAt (straddling.setByte 0 200).sp k = bitAt straddling.sp k) ↔
      (straddling.Aligned 0 → ∀ b, b < 8 → straddling.size ≤ straddling.pos 0 + b →
        bitAt straddling.sp (straddling.first + straddling.pos 0 + b) = bit 200 b ∧
          bitAt straddling.sp (straddling.first + straddling.pos 0 + b - straddling.size) =
            bit 200 b) :=
  setByte_writes_window_iff (v := straddling) (by decide) 0 200

theorem setByte_writes_behind_window :
    ¬((∀ b : Nat, b < 8 →
          (straddling.setByte 4 0).get ((4 + b) % straddling.size) = bit 0 b) ∧
        ∀ k, k < 8 * straddling.sp.length →
          (∀ b : Nat, b < 8 → k ≠ straddling.first + straddling.pos (4 + b)) →
          bitAt (straddling.setByte 4 0).sp k = bitAt straddling.sp k) := by
  decide

end Bytes

end BitView

end Utlib
