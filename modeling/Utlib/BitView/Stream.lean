import Utlib.BigEndian
import Utlib.BitView
import Utlib.ByteView

/-! `utl::BaseBitView`: words read from the view, byte strings, and the cyclic iterator. Positions
are unbounded first; what is called `checked` has positions of type `isize`, and `none` for an
overflow. -/

namespace Utlib.BitView

open Bits BigEndian
open ByteView (FitsISize checkedAdd)

/-- The loop of `getBits`, then the remaining bits. -/
def getBitsFrom (v : BitView) (val : UInt64) (pos : Int) (count : Nat) : UInt64 :=
  if 8 ≤ count then
    v.getBitsFrom (val <<< UInt64.ofNat 8 ||| (v.getByte pos).toUInt64) (pos + 8) (count - 8)
  else if 0 < count then
    val <<< UInt64.ofNat count ||| (v.getByte pos >>> UInt8.ofNat (8 - count)).toUInt64
  else val
termination_by count

def getBits (v : BitView) (bitIndex : Int) (count : Nat) : UInt64 := v.getBitsFrom 0 bitIndex count

def setBytes (v : BitView) (bitIndex : Int) : List UInt8 → BitView
  | [] => v
  | value :: values => (v.setByte bitIndex value).setBytes (bitIndex + 8) values

def checkedBitsFrom (v : BitView) (val : UInt64) (pos : Int64) (count : Nat) : Option UInt64 :=
  if 8 ≤ count then do
    v.checkedBitsFrom (val <<< UInt64.ofNat 8 ||| (v.getByte pos.toInt).toUInt64)
      (← checkedAdd pos 8) (count - 8)
  else if 0 < count then
    some (val <<< UInt64.ofNat count ||| (v.getByte pos.toInt >>> UInt8.ofNat (8 - count)).toUInt64)
  else some val
termination_by count

def checkedBits (v : BitView) (bitIndex : Int64) (count : Nat) : Option UInt64 :=
  v.checkedBitsFrom 0 bitIndex count

/-- The index moves on behind the last byte, too. -/
def checkedSetBytes (v : BitView) (bitIndex : Int64) : List UInt8 → Option BitView
  | [] => some v
  | value :: values => do
    (v.setByte bitIndex.toInt value).checkedSetBytes (← checkedAdd bitIndex 8) values

/-- The results of `n` calls of `readByte` on an iterator at `pos`. -/
def checkedReadBytes (v : BitView) (pos : Int64) : Nat → Option (List UInt8)
  | 0 => some []
  | n + 1 => do
    let values ← v.checkedReadBytes (← checkedAdd pos 8) n
    some (v.getByte pos.toInt :: values)

/-- `cyclic_iterator` -/
structure CyclicIterator where
  view : BitView
  pos : Int
  nonempty : 0 < view.size

namespace CyclicIterator

/-- `operator*` -/
def deref (it : CyclicIterator) : Bool :=
  let n := it.view.size
  let i := it.pos.tmod n
  it.view.get (if i < 0 then i + n else i)

/-- `operator+=` -/
def advance (it : CyclicIterator) (n : Int) : CyclicIterator := { it with pos := it.pos + n }

/-- `operator[]` -/
def get (it : CyclicIterator) (n : Int) : Bool := (it.advance n).deref

def readByte (it : CyclicIterator) : UInt8 × CyclicIterator :=
  (it.view.getByte it.pos, it.advance 8)

/-- The results of `n` calls of `readByte`. -/
def readBytes (it : CyclicIterator) : Nat → List UInt8
  | 0 => []
  | n + 1 => it.readByte.1 :: it.readByte.2.readBytes n

end CyclicIterator

def cyclicBegin (v : BitView) (hv : 0 < v.size) (pos : Int) : CyclicIterator := ⟨v, pos, hv⟩

variable {v : BitView} {i : Int}

theorem pos_add_of_first (hfirst : v.first % 8 = 0) (hv : 0 < v.size) (h : v.Aligned i) {b : Nat}
    (hb : b < 8) : v.pos (i + b) = v.pos i + b := by
  have hpos := pos_lt hv i
  have halign := (aligned_iff hv).1 h
  rw [pos_add_of_aligned hv h hb, if_neg (by omega)]

theorem bit_getByte (hfirst : v.first % 8 = 0) (hv : 0 < v.size) (i : Int) {b : Nat} (hb : b < 8) :
    bit (v.getByte i) b = v.get (i + b) := by
  by_cases h : v.Aligned i
  · rw [bit_getByte_of_aligned hv h hb, get_eq hv, pos_add_of_first hfirst hv h hb, Nat.add_assoc]
  · exact bit_getByte_of_not_aligned hv h hb

/-- The number that the `n` bits from `i` on spell. -/
def cyclicValue (v : BitView) (i : Int) (n : Nat) : Nat :=
  value (fun k => v.get ((i + k) % v.size)) n

theorem cyclicValue_eq (hv : 0 < v.size) (i : Int) (n : Nat) :
    v.cyclicValue i n = value (fun k => v.get (i + k)) n :=
  value_congr fun k _ => get_emod hv (i + k)

theorem cyclicValue_add (hv : 0 < v.size) (i : Int) (m n : Nat) :
    v.cyclicValue i (m + n) = v.cyclicValue i m * 2 ^ n + v.cyclicValue (i + m) n := by
  simp only [cyclicValue_eq hv, value_add, Nat.cast_add, Int.add_assoc]

theorem cyclicValue_lt (v : BitView) (i : Int) (n : Nat) : v.cyclicValue i n < 2 ^ n := value_lt _ n

section Positions

theorem checkedAdd_cases (x : Int64) (d : Int) :
    (∃ y, checkedAdd x d = some y ∧ y.toInt = x.toInt + d) ∨
      checkedAdd x d = none ∧ ¬FitsISize (x.toInt + d) := by
  by_cases hfits : FitsISize (x.toInt + d)
  · exact .inl ⟨_, if_pos hfits, Int64.toInt_ofInt_of_le hfits.1 hfits.2⟩
  · exact .inr ⟨if_neg hfits, hfits⟩

/-- A walk that begins inside leaves the range where its last position does. -/
theorem not_fitsISize_of_le {x : Int64} {a b : Int} (hnot : ¬FitsISize (x.toInt + a)) (ha : 0 ≤ a)
    (hle : a ≤ b) : ¬FitsISize (x.toInt + b) := by
  have hx := x.le_toInt
  intro hfits
  exact hnot ⟨by omega, by have := hfits.2; omega⟩

theorem checkedBitsFrom_eq (v : BitView) (val : UInt64) (pos : Int64) (count : Nat) :
    v.checkedBitsFrom val pos count =
      if FitsISize (pos.toInt + (8 * (count / 8) : Nat)) then
        some (v.getBitsFrom val pos.toInt count)
      else none := by
  induction count using Nat.strong_induction_on generalizing val pos with
  | _ count ih =>
    rw [checkedBitsFrom, getBitsFrom]
    by_cases h : 8 ≤ count
    · rw [if_pos h, if_pos h]
      rcases checkedAdd_cases pos 8 with ⟨next, hnext, hpos⟩ | ⟨hnext, hover⟩
      · rw [hnext, Option.bind_eq_bind, Option.bind_some, ih (count - 8) (by omega), hpos]
        congr 2
        omega
      · rw [hnext, if_neg (not_fitsISize_of_le hover (by decide) (by omega))]
        rfl
    · have hfits : FitsISize (pos.toInt + (8 * (count / 8) : Nat)) := by
        rw [Nat.div_eq_of_lt (by omega)]
        simpa using ByteView.fitsISize_toInt pos
      rw [if_neg h, if_neg h, if_pos hfits]
      split <;> rfl

theorem checkedSetBytes_eq (v : BitView) (bitIndex : Int64) (values : List UInt8) :
    v.checkedSetBytes bitIndex values =
      if FitsISize (bitIndex.toInt + (8 * values.length : Nat)) then
        some (v.setBytes bitIndex.toInt values)
      else none := by
  induction values generalizing v bitIndex with
  | nil => exact (if_pos (by simpa using ByteView.fitsISize_toInt bitIndex)).symm
  | cons value values ih =>
    rw [checkedSetBytes, setBytes, List.length_cons]
    rcases checkedAdd_cases bitIndex 8 with ⟨next, hnext, hpos⟩ | ⟨hnext, hover⟩
    · rw [hnext, Option.bind_eq_bind, Option.bind_some, ih, hpos]
      congr 2
      omega
    · rw [hnext, if_neg (not_fitsISize_of_le hover (by decide) (by omega))]
      rfl

theorem checkedReadBytes_eq (hv : 0 < v.size) (pos : Int64) (n : Nat) :
    v.checkedReadBytes pos n =
      if FitsISize (pos.toInt + (8 * n : Nat)) then
        some ((v.cyclicBegin hv pos.toInt).readBytes n)
      else none := by
  induction n generalizing pos with
  | zero => exact (if_pos (by simpa using ByteView.fitsISize_toInt pos)).symm
  | succ n ih =>
    rw [checkedReadBytes]
    rcases checkedAdd_cases pos 8 with ⟨next, hnext, hpos⟩ | ⟨hnext, hover⟩
    · have hrest : FitsISize (pos.toInt + 8 + (8 * n : Nat)) ↔
          FitsISize (pos.toInt + (8 * (n + 1) : Nat)) := by
        rw [show pos.toInt + 8 + (8 * n : Nat) = pos.toInt + (8 * (n + 1) : Nat) by omega]
      rw [hnext, Option.bind_eq_bind, Option.bind_some, ih, hpos]
      by_cases hfits : FitsISize (pos.toInt + (8 * (n + 1) : Nat))
      · rw [if_pos hfits, if_pos (hrest.2 hfits)]
        rfl
      · rw [if_neg hfits, if_neg (mt hrest.1 hfits)]
        rfl
    · rw [hnext, if_neg (not_fitsISize_of_le hover (by decide) (by omega))]
      rfl

end Positions

section GetBits

theorem toNat_getByte (hfirst : v.first % 8 = 0) (hv : 0 < v.size) (i : Int) {n : Nat}
    (hn : n ≤ 8) : (v.getByte i).toNat / 2 ^ (8 - n) = v.cyclicValue i n := by
  rw [← value_bit _ hn, cyclicValue_eq hv]
  exact value_congr fun k hk => bit_getByte hfirst hv i (Nat.lt_of_lt_of_le hk hn)

theorem toNat_shiftIn_cyclic (hv : 0 < v.size) {val byte : UInt64} {m n : Nat}
    (hval : val.toNat = v.cyclicValue i m) (hbyte : byte.toNat = v.cyclicValue (i + m) n)
    (hn : n < 64) (hroom : m + n ≤ 64) :
    (val <<< UInt64.ofNat n ||| byte).toNat = v.cyclicValue i (m + n) := by
  have hlt : v.cyclicValue i (m + n) < 2 ^ 64 :=
    (cyclicValue_lt v i (m + n)).trans_le (Nat.pow_le_pow_right (by decide) hroom)
  rw [toNat_shiftIn val hn (hbyte.trans_lt (cyclicValue_lt v _ n)), hval, hbyte,
    ← cyclicValue_add hv, Nat.mod_eq_of_lt hlt]

theorem toNat_tail (hfirst : v.first % 8 = 0) (hv : 0 < v.size) (i : Int) {n : Nat} (hn : n ≤ 8)
    (hpos : 0 < n) :
    (v.getByte i >>> UInt8.ofNat (8 - n)).toUInt64.toNat = v.cyclicValue i n := by
  have hshift : (UInt8.ofNat (8 - n)).toNat % 8 = 8 - n := by
    rw [UInt8.toNat_ofNat_of_lt' (by rw [UInt8.size]; omega), Nat.mod_eq_of_lt (by omega)]
  rw [UInt8.toNat_toUInt64, UInt8.toNat_shiftRight, hshift, Nat.shiftRight_eq_div_pow,
    toNat_getByte hfirst hv i hn]

theorem toNat_getBitsFrom (hfirst : v.first % 8 = 0) (hv : 0 < v.size) {val : UInt64} {pos : Int}
    {m n : Nat} (hval : val.toNat = v.cyclicValue i m) (hpos : pos = i + m) (hroom : m + n ≤ 64) :
    (v.getBitsFrom val pos n).toNat = v.cyclicValue i (m + n) := by
  induction n using Nat.strong_induction_on generalizing val pos m with
  | _ n ih =>
    subst hpos
    rw [getBitsFrom]
    split
    · next h =>
      have hbyte : (v.getByte (i + m)).toUInt64.toNat = v.cyclicValue (i + m) 8 := by
        rw [UInt8.toNat_toUInt64, ← toNat_getByte hfirst hv _ le_rfl]
        simp
      have hstep := toNat_shiftIn_cyclic hv hval hbyte (by decide) (by omega)
      rw [ih (n - 8) (by omega) hstep (by push_cast; ring) (by omega)]
      congr 1
      omega
    · split
      · next h h' =>
        have htail := toNat_tail hfirst hv (i + m) (by omega) h'
        exact toNat_shiftIn_cyclic hv hval htail (by omega) hroom
      · rw [hval]
        congr 1
        omega

theorem toNat_getBits (hfirst : v.first % 8 = 0) (hv : 0 < v.size) (i : Int) {count : Nat}
    (hle : count ≤ 64) : (v.getBits i count).toNat = v.cyclicValue i count := by
  have h : (v.getBitsFrom 0 i count).toNat = v.cyclicValue i (0 + count) :=
    toNat_getBitsFrom hfirst hv rfl (by simp) (by omega)
  rwa [Nat.zero_add] at h

/-- The bits are read at their cyclic positions, with `isize` positions too as long as the one
behind the last whole byte can be held. -/
theorem getBits_reads_window (hfirst : v.first % 8 = 0) (hv : 0 < v.size) (i : Int) {count : Nat}
    (hle : count ≤ 64) :
    (v.getBits i count).toNat = value (fun k => v.get ((i + k) % v.size)) count ∧
      ∀ j : Int64, j.toInt = i → v.checkedBits j count =
        if FitsISize (i + (8 * (count / 8) : Nat)) then some (v.getBits i count) else none := by
  refine ⟨toNat_getBits hfirst hv i hle, ?_⟩
  rintro j rfl
  exact checkedBitsFrom_eq v 0 j count

/-- A window that ends inside a byte. -/
def twelveBits : BitView := ⟨[165, 60], 0, 12, by decide, by decide⟩

theorem getBits_reads_twelveBits :
    (twelveBits.getBits (-3) 64).toNat =
        value (fun k => twelveBits.get ((-3 + k) % twelveBits.size)) 64 ∧
      ∀ j : Int64, j.toInt = -3 → twelveBits.checkedBits j 64 =
        if FitsISize (-3 + (8 * (64 / 8) : Nat)) then some (twelveBits.getBits (-3) 64) else none :=
  getBits_reads_window (v := twelveBits) (by decide) (by decide) (-3) (by decide)

end GetBits

section SetBytes

theorem setByte_writes (hfirst : v.first % 8 = 0) (hv : 8 ≤ v.size) (i : Int) (val : UInt8)
    {b : Nat} (hb : b < 8) : (v.setByte i val).get (i + b) = bit val b := by
  rw [get_setByte (by omega)]
  by_cases h : v.Aligned i
  · rw [pos_add_of_first hfirst (by omega) h hb, ← Nat.add_assoc]
    exact (setByte_of_aligned (by omega) h val).1 b hb
  · exact (setByte_of_not_aligned hv h val).1 b hb

theorem setByte_frame (hfirst : v.first % 8 = 0) (hv : 8 ≤ v.size) (i : Int) (val : UInt8) {k : Nat}
    (hk : ∀ b : Nat, b < 8 → k ≠ v.first + v.pos (i + b)) :
    bitAt (v.setByte i val).sp k = bitAt v.sp k := by
  by_cases h : v.Aligned i
  · refine (setByte_of_aligned (by omega) h val).2 k ?_
    by_contra hin
    refine hk (k - (v.first + v.pos i)) (by omega) ?_
    rw [pos_add_of_first hfirst (by omega) h (by omega)]
    omega
  · exact (setByte_of_not_aligned hv h val).2 k hk

variable {values : List UInt8}

theorem first_setBytes : (v.setBytes i values).first = v.first := by
  induction values generalizing v i with
  | nil => rfl
  | cons value values ih => exact ih

theorem size_setBytes : (v.setBytes i values).size = v.size := by
  induction values generalizing v i with
  | nil => rfl
  | cons value values ih => exact ih

theorem pos_setBytes (j : Int) : (v.setBytes i values).pos j = v.pos j := by
  rw [pos, pos, size_setBytes]

theorem setBytes_frame (hfirst : v.first % 8 = 0) (hroom : 8 * values.length ≤ v.size) {k : Nat}
    (hk : ∀ j : Nat, j < 8 * values.length → k ≠ v.first + v.pos (i + j)) :
    bitAt (v.setBytes i values).sp k = bitAt v.sp k := by
  induction values generalizing v i with
  | nil => rfl
  | cons value values ih =>
    rw [List.length_cons] at hroom hk
    have hrest : bitAt ((v.setByte i value).setBytes (i + 8) values).sp k =
        bitAt (v.setByte i value).sp k := by
      refine ih hfirst (show 8 * values.length ≤ v.size by omega) fun j hj => ?_
      have h := hk (8 + j) (by omega)
      rwa [Nat.cast_add, ← Int.add_assoc] at h
    exact hrest.trans (setByte_frame hfirst (by omega) i value fun b hb => hk b (by omega))

/-- The bits from `i` on are those of `values`. -/
def Spells (v : BitView) : Int → List UInt8 → Prop
  | _, [] => True
  | i, x :: xs => (∀ b : Nat, b < 8 → v.get (i + b) = bit x b) ∧ v.Spells (i + 8) xs

theorem spells_setBytes (hfirst : v.first % 8 = 0) (hroom : 8 * values.length ≤ v.size) :
    (v.setBytes i values).Spells i values := by
  induction values generalizing v i with
  | nil => trivial
  | cons value values ih =>
    rw [List.length_cons] at hroom
    have hroom' : 8 * values.length ≤ (v.setByte i value).size :=
      show 8 * values.length ≤ v.size by omega
    refine ⟨fun b hb => ?_, ih hfirst hroom'⟩
    have hv : 0 < v.size := by omega
    have hkeep : bitAt (v.setBytes i (value :: values)).sp (v.first + v.pos (i + b)) =
        bitAt (v.setByte i value).sp (v.first + v.pos (i + b)) := by
      refine setBytes_frame (v := v.setByte i value) hfirst hroom' fun j hj heq => ?_
      have hpos : v.pos (i + b) = v.pos (i + (8 + j : Nat)) := by
        rw [Nat.cast_add, ← Int.add_assoc]
        exact Nat.add_left_cancel heq
      have hbj := pos_add_injective hv i (by omega) (by omega) hpos
      omega
    rw [get_eq (by rwa [size_setBytes]), first_setBytes, pos_setBytes, hkeep,
      ← setByte_writes hfirst (by omega) i value hb, get_setByte hv]
    rfl

theorem CyclicIterator.readBytes_of_spells {it : CyclicIterator} (hfirst : it.view.first % 8 = 0)
    (h : it.view.Spells it.pos values) : it.readBytes values.length = values := by
  induction values generalizing it with
  | nil => rfl
  | cons value values ih =>
    have hbyte : it.view.getByte it.pos = value := by
      apply eq_of_bit
      intro b hb
      rw [bit_getByte hfirst it.nonempty it.pos hb]
      exact h.1 b hb
    have hrest : (it.advance 8).readBytes values.length = values := ih hfirst h.2
    rw [List.length_cons, CyclicIterator.readBytes, readByte, hbyte, hrest]

theorem setBytes_readBytes (hfirst : v.first % 8 = 0) (hv : 0 < v.size) (i : Int)
    (hroom : 8 * values.length ≤ v.size) :
    ((v.setBytes i values).cyclicBegin (hv.trans_eq size_setBytes.symm) i).readBytes values.length =
        values ∧
      (∀ k, k < 8 * v.sp.length →
        (∀ j : Nat, j < 8 * values.length → k ≠ v.first + v.pos (i + j)) →
        bitAt (v.setBytes i values).sp k = bitAt v.sp k) ∧
      ∀ j : Int64, j.toInt = i → FitsISize (i + (8 * values.length : Nat)) →
        v.checkedSetBytes j values = some (v.setBytes i values) ∧
          (v.setBytes i values).checkedReadBytes j values.length = some values := by
  have hread : ((v.setBytes i values).cyclicBegin (hv.trans_eq size_setBytes.symm) i).readBytes
      values.length = values := by
    apply CyclicIterator.readBytes_of_spells
    · exact (congrArg (· % 8) first_setBytes).trans hfirst
    · exact spells_setBytes hfirst hroom
  refine ⟨hread, fun k _ hk => setBytes_frame hfirst hroom hk, ?_⟩
  rintro j rfl hfits
  rw [checkedSetBytes_eq, if_pos hfits, checkedReadBytes_eq (hv.trans_eq size_setBytes.symm),
    if_pos hfits, hread]
  exact ⟨rfl, rfl⟩

/-- A window that ends inside a byte, and more than one byte to write across its end. -/
def twentyFiveBits : BitView := ⟨[165, 60, 15, 128], 0, 25, by decide, by decide⟩

theorem setBytes_readBytes_twentyFiveBits :
    ((twentyFiveBits.setBytes 13 [90, 1]).cyclicBegin
          ((by decide : 0 < twentyFiveBits.size).trans_eq size_setBytes.symm) 13).readBytes 2 =
        [90, 1] ∧
      (∀ k, k < 8 * twentyFiveBits.sp.length →
        (∀ j : Nat, j < 8 * 2 → k ≠ twentyFiveBits.first + twentyFiveBits.pos (13 + j)) →
        bitAt (twentyFiveBits.setBytes 13 [90, 1]).sp k = bitAt twentyFiveBits.sp k) ∧
      ∀ j : Int64, j.toInt = 13 → FitsISize (13 + (8 * 2 : Nat)) →
        twentyFiveBits.checkedSetBytes j [90, 1] = some (twentyFiveBits.setBytes 13 [90, 1]) ∧
          (twentyFiveBits.setBytes 13 [90, 1]).checkedReadBytes j 2 = some [90, 1] :=
  setBytes_readBytes (v := twentyFiveBits) (by decide) (by decide) 13 (by decide)

end SetBytes

end Utlib.BitView
