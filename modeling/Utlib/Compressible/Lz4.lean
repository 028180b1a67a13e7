import Mathlib.Data.Int.ModEq
import Utlib.Program

/-! `utl::Compressible`: the LZ4 codecs, over the vendored library. -/

namespace Utlib.Compressible

open Program

section Integers

/-- Conversion to `int`. -/
def int32 (x : Int) : Int := x.bmod (2 ^ 32)

/-- Conversion to `isize`, and what a sum of two of them is after an overflow. -/
def int64 (x : Int) : Int := x.bmod (2 ^ 64)

/-- Conversion to `size_t`. -/
def sizeT (x : Int) : Nat := (x % 2 ^ 64).toNat

def hiByte (x : UInt16) : UInt8 := (x >>> 8).toUInt8

def loByte (x : UInt16) : UInt8 := x.toUInt8

def hiWord (x : Nat) : UInt16 := UInt16.ofNat (x >>> 16)

def loWord (x : Nat) : UInt16 := UInt16.ofNat x

def hiHiLoLo (x y z w : UInt8) : UInt32 :=
  x.toUInt32 <<< 24 ||| y.toUInt32 <<< 16 ||| z.toUInt32 <<< 8 ||| w.toUInt32

def w16be (v : UInt16) : List UInt8 := [hiByte v, loByte v]

def w32be (v : Nat) : List UInt8 := w16be (hiWord v) ++ w16be (loWord v)

def r32be (xs : List UInt8) : UInt32 :=
  hiHiLoLo (xs.getD 0 0) (xs.getD 1 0) (xs.getD 2 0) (xs.getD 3 0)

theorem length_w32be (v : Nat) : (w32be v).length = 4 := rfl

theorem toNat_hiHiLoLo (x y z w : UInt8) :
    (hiHiLoLo x y z w).toNat =
      x.toNat * 2 ^ 24 + (y.toNat * 2 ^ 16 + (z.toNat * 2 ^ 8 + w.toNat)) := by
  have hx := x.toNat_lt
  have hy := y.toNat_lt
  have hz := z.toNat_lt
  have hw := w.toNat_lt
  have hzw : z.toNat * 2 ^ 8 + w.toNat = z.toNat <<< 8 ||| w.toNat := by
    rw [← Nat.shiftLeft_add_eq_or_of_lt hw, Nat.shiftLeft_eq]
  have hyzw : y.toNat * 2 ^ 16 + (z.toNat * 2 ^ 8 + w.toNat) =
      y.toNat <<< 16 ||| (z.toNat <<< 8 ||| w.toNat) := by
    rw [← hzw, ← Nat.shiftLeft_add_eq_or_of_lt (by omega), Nat.shiftLeft_eq]
  have hxyzw : x.toNat * 2 ^ 24 + (y.toNat * 2 ^ 16 + (z.toNat * 2 ^ 8 + w.toNat)) =
      x.toNat <<< 24 ||| (y.toNat <<< 16 ||| (z.toNat <<< 8 ||| w.toNat)) := by
    rw [← hyzw, ← Nat.shiftLeft_add_eq_or_of_lt (by omega), Nat.shiftLeft_eq]
  rw [hxyzw, hiHiLoLo]
  simp only [UInt32.toNat_or, UInt32.toNat_shiftLeft, UInt8.toNat_toUInt32, UInt32.reduceToNat]
  simp only [Nat.shiftLeft_eq]
  simp (disch := omega) [Nat.mod_eq_of_lt]
  simp only [Nat.or_assoc]

theorem toNat_r32be_w32be (v : Nat) : (r32be (w32be v)).toNat = v % 2 ^ 32 := by
  rw [r32be, toNat_hiHiLoLo]
  simp only [w32be, w16be, hiByte, loByte, hiWord, loWord, List.cons_append, List.nil_append,
    List.getD_cons_zero, List.getD_cons_succ, UInt16.toNat_toUInt8, UInt16.toNat_shiftRight,
    UInt16.toNat_ofNat', Nat.shiftRight_eq_div_pow, UInt16.reduceToNat, Nat.reduceMod]
  omega

theorem int32_of_lt {x : Int} (hlo : -2 ^ 31 ≤ x) (hhi : x < 2 ^ 31) : int32 x = x := by
  rw [int32, Int.bmod_def]
  split <;> omega

theorem int32_of_ge {x : Int} (hlo : 2 ^ 31 ≤ x) (hhi : x < 2 ^ 32) : int32 x = x - 2 ^ 32 := by
  rw [int32, Int.bmod_def]
  split <;> omega

theorem sizeT_of_lt {x : Int} (hlo : 0 ≤ x) (hhi : x < 2 ^ 64) : sizeT x = x.toNat := by
  rw [sizeT, Int.emod_eq_of_lt hlo hhi]

theorem int32_le {x : Int} (h : 0 ≤ x) : int32 x ≤ x := by
  rw [int32, Int.bmod_def]
  split <;> omega

theorem int32_int64 (x : Int) : int32 (int64 x) = int32 x :=
  Int.bmod_bmod_of_dvd ⟨2 ^ 32, rfl⟩

theorem sizeT_add_int64 (x y : Int) : sizeT (x + int64 y) = sizeT (x + y) := by
  rw [sizeT, sizeT, int64, Int.bmod_def]
  congr 1
  split <;> omega

theorem sizeT_sub (x : Int) : sizeT (x - 2 ^ 64) = sizeT x := by
  rw [sizeT, sizeT, Int.sub_emod_right]

theorem sizeT_of_neg {x : Int} (hlo : -2 ^ 64 ≤ x) (hhi : x < 0) : sizeT x = (x + 2 ^ 64).toNat := by
  rw [sizeT, ← Int.add_emod_right, Int.emod_eq_of_lt (by omega) (by omega)]

attribute [irreducible] int32 int64 sizeT

end Integers

section Vectors

inductive Failure where
  | throws
  | outOfBounds
  deriving DecidableEq

/-- `max_size()` of a vector of bytes -/
abbrev maxSize : Nat := 2 ^ 63 - 1

/-- `std::vector<u8>` -/
structure ByteVector where
  bytes : List UInt8
  length_le : bytes.length ≤ maxSize

namespace ByteVector

def size (v : ByteVector) : Nat := v.bytes.length

/-- `memory n` tells whether storage for `n` bytes can be had. -/
def resize (memory : Nat → Bool) (n : Nat) : EStateM Failure ByteVector Unit := do
  let v ← get
  if hn : n ≤ v.size then
    set (⟨v.bytes.take n, by
      rw [List.length_take_of_le hn]
      exact hn.trans v.length_le⟩ : ByteVector)
  else if hmax : n ≤ maxSize then
    if memory n then
      set (⟨v.bytes ++ List.replicate (n - v.size) 0, by
        rw [List.length_append, List.length_replicate, size] at *
        omega⟩ : ByteVector)
    else throw .throws
  else throw .throws

/-- Stores the bytes from `data() + offset` on. -/
def store (offset : Nat) (ys : List UInt8) : EStateM Failure ByteVector Unit := do
  let v ← get
  if h : offset + ys.length ≤ v.size then
    set (⟨v.bytes.take offset ++ ys ++ v.bytes.drop (offset + ys.length), by
      have hlen := v.length_le
      simp only [List.length_append, List.length_take, List.length_drop, size] at *
      omega⟩ : ByteVector)
  else throw .outOfBounds

def Granted (memory : Nat → Bool) (n : Nat) (v : ByteVector) : Prop :=
  n ≤ v.size ∨ n ≤ maxSize ∧ memory n

def resized (n : Nat) (v : ByteVector) : List UInt8 :=
  v.bytes.take n ++ List.replicate (n - v.size) 0

section Rules

variable {memory : Nat → Bool} {n offset : Nat} {ys : List UInt8} {v w : ByteVector}
  {Q : Unit → ByteVector → Prop} {E : Failure → ByteVector → Prop}

theorem ext_bytes (h : v.bytes = w.bytes) : v = w := by
  cases v
  cases w
  cases h
  rfl

theorem length_resized (n : Nat) (v : ByteVector) : (resized n v).length = n := by
  rw [resized, List.length_append, List.length_take, List.length_replicate, size]
  omega

theorem size_of_resized (h : w.bytes = resized n v) : w.size = n := by
  rw [size, h, length_resized]

theorem Granted.le (h : Granted memory n v) : n ≤ maxSize := by
  rcases h with hle | ⟨hle, _⟩
  · exact hle.trans v.length_le
  · exact hle

theorem wp_resize : wp (resize memory n) Q E v ↔
    (∀ w : ByteVector, Granted memory n v → w.bytes = resized n v → Q () w) ∧
      (¬Granted memory n v → E .throws v) := by
  have hok : ∀ u : ByteVector, Granted memory n v → u.bytes = resized n v →
      (Q () u ↔ (∀ w : ByteVector, Granted memory n v → w.bytes = resized n v → Q () w) ∧
        (¬Granted memory n v → E .throws v)) := by
    intro u hgranted hu
    refine ⟨fun hQ => ⟨fun w _ hw => ?_, fun hnot => absurd hgranted hnot⟩,
      fun h => h.1 u hgranted hu⟩
    rwa [ext_bytes (hw.trans hu.symm)]
  have herror : ¬Granted memory n v →
      (E .throws v ↔ (∀ w : ByteVector, Granted memory n v → w.bytes = resized n v → Q () w) ∧
        (¬Granted memory n v → E .throws v)) := by
    intro hnot
    exact ⟨fun hE => ⟨fun _ hgranted => absurd hgranted hnot, fun _ => hE⟩, fun h => h.2 hnot⟩
  rw [resize, wp_bind, wp_get]
  by_cases hn : n ≤ v.size
  · rw [dif_pos hn, wp_set]
    refine hok _ (.inl hn) ?_
    rw [resized, Nat.sub_eq_zero_of_le hn, List.replicate_zero, List.append_nil]
  · rw [dif_neg hn]
    by_cases hmax : n ≤ maxSize
    · rw [dif_pos hmax]
      by_cases hmemory : memory n = true
      · rw [if_pos hmemory, wp_set]
        refine hok _ (.inr ⟨hmax, hmemory⟩) ?_
        rw [resized, List.take_of_length_le (Nat.le_of_not_le hn)]
      · rw [if_neg hmemory, wp_throw]
        exact herror fun hgranted => hgranted.elim hn fun h => hmemory h.2
    · rw [dif_neg hmax, wp_throw]
      exact herror fun hgranted => hgranted.elim hn fun h => hmax h.1

theorem wp_store : wp (store offset ys) Q E v ↔
    (∀ w : ByteVector, offset + ys.length ≤ v.size →
      w.bytes = v.bytes.take offset ++ ys ++ v.bytes.drop (offset + ys.length) → Q () w) ∧
      (v.size < offset + ys.length → E .outOfBounds v) := by
  rw [store, wp_bind, wp_get]
  by_cases h : offset + ys.length ≤ v.size
  · rw [dif_pos h, wp_set]
    refine ⟨fun hQ => ⟨fun w _ hw => ?_, fun hlt => absurd hlt (Nat.not_lt.2 h)⟩,
      fun hQ => hQ.1 _ h rfl⟩
    rwa [ext_bytes (w := ⟨_, _⟩) hw]
  · rw [dif_neg h, wp_throw]
    exact ⟨fun hE => ⟨fun _ hle => absurd hle h, fun _ => hE⟩, fun hE => hE.2 (Nat.lt_of_not_le h)⟩

end Rules

end ByteVector

end Vectors

/-- LZ4_MAX_INPUT_SIZE -/
def maxInputSize : Int := 0x7E000000

/-- LZ4_COMPRESSBOUND -/
def compressBound (n : Nat) : Nat := n + n / 255 + 16

/-- LZ4_compress_default and LZ4_decompress_safe: what they return, and the bytes they leave at
the start of the destination. -/
structure Lz4 where
  compress : List UInt8 → Int → Int → Int × List UInt8
  decompress : List UInt8 → Int → Int → Int × List UInt8
  compress_refuses : ∀ src n cap, n < 0 ∨ maxInputSize < n → (compress src n cap).1 ≤ 0
  compress_within : ∀ src n cap, (compress src n cap).2.length ≤ cap.toNat
  compress_block : ∀ src cap (n : Nat), n ≤ src.length → 0 < (compress src n cap).1 →
    (compress src n cap).1 ≤ (compress src n cap).2.length ∧
      (compress src n cap).1 ≤ compressBound n
  decompress_within : ∀ src c cap, (decompress src c cap).2.length ≤ cap.toNat
  decompress_compress : ∀ src cap (n c d : Nat) record, n ≤ src.length →
    (compress src n cap).1 = c → 0 < c → record.take c = (compress src n cap).2.take c → n ≤ d →
      (decompress record c d).1 = n ∧ (decompress record c d).2.take n = src.take n

/-- Blocks of up to twelve bytes, which are all literals, and nothing else. -/
def Lz4.literals : Lz4 where
  compress src n cap :=
    if 0 ≤ n ∧ n ≤ 12 ∧ n + 1 ≤ cap ∧ n ≤ src.length then
      (n + 1, UInt8.ofNat (16 * n.toNat) :: src.take n.toNat)
    else (0, [])
  decompress src c cap :=
    let block := src.take c.toNat
    if block ≠ [] ∧ (block.headD 0).toNat = 16 * block.tail.length ∧ block.tail.length ≤ cap then
      (block.tail.length, block.tail)
    else (-1, [])
  compress_refuses := by
    intro src n cap hout
    rw [maxInputSize] at hout
    rw [if_neg (by omega)]
  compress_within := by
    intro src n cap
    split
    · next h =>
      rw [List.length_cons, List.length_take]
      omega
    · exact Nat.zero_le _
  compress_block := by
    intro src cap n hle hpos
    split at hpos
    · next h =>
      rw [if_pos h, compressBound, List.length_cons, List.length_take]
      omega
    · cases hpos
  decompress_within := by
    intro src c cap
    dsimp only
    split
    · next h =>
      have hle : _ ≤ cap.toNat := Int.toNat_le_toNat h.2.2
      rwa [Int.toNat_natCast] at hle
    · exact Nat.zero_le _
  decompress_compress := by
    intro src cap n c d record hle hc hpos hblock hd
    by_cases h : (0 : Int) ≤ n ∧ (n : Int) ≤ 12 ∧ (n : Int) + 1 ≤ cap ∧ (n : Int) ≤ src.length
    · rw [if_pos h] at hc hblock
      have hlen : (src.take n).length = n := List.length_take_of_le hle
      have htoken : (UInt8.ofNat (16 * n)).toNat = 16 * n := by
        rw [UInt8.toNat_ofNat']
        omega
      have hall : record.take c = UInt8.ofNat (16 * n) :: src.take n := by
        rw [hblock, Int.toNat_natCast]
        apply List.take_of_length_le
        rw [List.length_cons, hlen]
        omega
      simp only [Int.toNat_natCast, hall, List.headD_cons, List.tail_cons, hlen, htoken]
      rw [if_pos ⟨List.cons_ne_nil _ _, trivial, by omega⟩]
      exact ⟨rfl, List.take_of_length_le hlen.le⟩
    · rw [if_neg h] at hc
      omega

variable (lz : Lz4) (memory : Nat → Bool)

open ByteVector

/-- `lz4` from where the block is in place. -/
def finish (initialLen len : Nat) (compressedSize : Int) : EStateM Failure ByteVector Unit := do
  store (initialLen + compressedSize.toNat) (w32be len)
  resize memory (sizeT (initialLen + int32 (compressedSize + 4)))

def lz4 (buffer : List UInt8) : EStateM Failure ByteVector Unit :=
  let len := buffer.length
  if len = 0 then pure ()
  else do
    let initialLen := (← get).size
    let maxSize := int64 (len + len / 2 + 256)
    resize memory (sizeT (initialLen + maxSize))
    let compressedSize := lz.compress buffer (int32 len) (int32 maxSize)
    store initialLen compressedSize.2
    if compressedSize.1 ≤ 0 then throw .throws
    else finish memory initialLen len compressedSize.1

/-- `unlz4` from where the record's length is known. -/
def expand (buffer : List UInt8) (decompressedSize : Int) : EStateM Failure ByteVector Unit := do
  let initialLen := (← get).size
  resize memory (sizeT (initialLen + decompressedSize))
  -- `&result[initialLen]`
  require (initialLen < (← get).size) .outOfBounds
  let compressedSize := buffer.length - 4
  let size := lz.decompress buffer (int32 (compressedSize : Nat)) decompressedSize
  store initialLen size.2
  if size.1 < 0 then throw .throws
  else if size.1 ≠ decompressedSize then throw .throws
  else pure ()

def unlz4 (buffer : List UInt8) : EStateM Failure ByteVector Unit :=
  let len := buffer.length
  if len = 0 then pure ()
  else if len ≤ 3 then throw .throws
  else expand lz memory buffer (int32 (r32be (buffer.drop (len - 4))).toNat)

section Malformed

variable {lz memory} {buffer : List UInt8} {result : ByteVector}

/-- The length at the end of a record. -/
def trailing (buffer : List UInt8) : Nat :=
  if buffer.length ≤ 3 then 0 else (r32be (buffer.drop (buffer.length - 4))).toNat

/-- The call makes the vector longer by `n` bytes, or throws, and leaves the bytes of `v` alone. -/
def Extends (v : ByteVector) (n : Nat) (x : EStateM Failure ByteVector Unit) : Prop :=
  wp x (fun _ r => v.bytes <+: r.bytes ∧ r.size = v.size + n)
    (fun e r => e = .throws ∧ v.bytes <+: r.bytes) v

def Survives (lz : Lz4) (memory : Nat → Bool) (buffer : List UInt8) (result : ByteVector) : Prop :=
  Extends result (trailing buffer) (unlz4 lz memory buffer)

/-- The length at the end is zero, or is negative as an `int` and shortens the vector. -/
def Misleads (buffer : List UInt8) (result : ByteVector) : Prop :=
  3 < buffer.length ∧
    (trailing buffer = 0 ∨ 2 ^ 31 ≤ trailing buffer ∧ 2 ^ 32 ≤ result.size + trailing buffer)

theorem extends_expand_of_refused {v : ByteVector} {d : Int} {n : Nat}
    (h : ¬Granted memory (sizeT (v.size + d)) v) : Extends v n (expand lz memory buffer d) := by
  simp only [Extends, expand, wp_bind, wp_get, wp_resize]
  exact ⟨fun _ hgranted => absurd hgranted h, fun _ => ⟨trivial, List.prefix_rfl⟩⟩

/-- The index of the first new byte is behind the end of the vector. -/
theorem wp_expand_of_le {v : ByteVector} {d : Int} (h : sizeT (v.size + d) ≤ v.size) :
    wp (expand lz memory buffer d) (fun _ _ => False) (fun e _ => e = .outOfBounds) v := by
  simp only [expand, wp_bind, wp_get, wp_resize, wp_require]
  refine ⟨fun w _ hw => ⟨fun hlt => ?_, fun _ => trivial⟩, fun hnot => absurd (.inl h) hnot⟩
  rw [size_of_resized hw] at hlt
  exact absurd hlt (Nat.not_lt.2 h)

theorem not_extends_expand_of_le {v : ByteVector} {d : Int} {n : Nat}
    (h : sizeT (v.size + d) ≤ v.size) : ¬Extends v n (expand lz memory buffer d) := by
  intro hextends
  obtain ⟨e, t, _, he, hthrows, _⟩ := ((wp_expand_of_le h).and hextends).exists_error fun _ _ => And.left
  rw [he] at hthrows
  cases hthrows

theorem wp_expand {v : ByteVector} {n : Nat} {answer : Int × List UInt8}
    {Q : Unit → ByteVector → Prop} {E : Failure → ByteVector → Prop} (hpos : 0 < n)
    (hsum : sizeT (v.size + (n : Int)) = v.size + n)
    (hanswer : lz.decompress buffer (int32 (buffer.length - 4 : Nat)) n = answer)
    (hrefused : ¬Granted memory (v.size + n) v → E .throws v)
    (hdone : ∀ u : ByteVector, Granted memory (v.size + n) v → u.size = v.size + n →
      v.bytes ++ answer.2 <+: u.bytes →
      (answer.1 ≠ n → E .throws u) ∧ (answer.1 = n → Q () u)) :
    wp (expand lz memory buffer n) Q E v := by
  simp only [expand, wp_bind, wp_get, wp_resize, wp_require, wp_store, hsum, hanswer]
  refine ⟨fun w hgranted hw => ?_, hrefused⟩
  have hwithin := lz.decompress_within buffer (int32 (buffer.length - 4 : Nat)) n
  rw [hanswer] at hwithin
  have hsize : w.size = v.size + n := size_of_resized hw
  have hlead : w.bytes.take v.size = v.bytes := by
    rw [hw, resized, List.take_of_length_le (i := v.size + n) (Nat.le_add_right v.bytes.length n)]
    exact List.take_left
  refine ⟨fun _ => ⟨fun u _ hu => ?_, fun hlt => by omega⟩, fun hle => by omega⟩
  rw [hlead] at hu
  have husize : u.size = v.size + n := by
    rw [← hsize, size, hu]
    simp only [List.length_append, List.length_drop, size] at *
    omega
  obtain ⟨hother, hsame⟩ := hdone u hgranted husize (hu ▸ List.prefix_append _ _)
  simp only [wp_ite, wp_throw, wp_pure]
  exact ⟨fun hneg => hother (by omega), fun _ => ⟨hother, fun heq => hsame (not_not.1 heq)⟩⟩

theorem extends_expand {v : ByteVector} {n : Nat} (hpos : 0 < n)
    (hsum : sizeT (v.size + (n : Int)) = v.size + n) :
    Extends v n (expand lz memory buffer n) := by
  refine wp_expand hpos hsum rfl (fun _ => ⟨rfl, List.prefix_rfl⟩) fun u _ hsize hlead => ?_
  have hkept : v.bytes <+: u.bytes := (List.prefix_append _ _).trans hlead
  exact ⟨fun _ => ⟨rfl, hkept⟩, fun _ => ⟨hkept, hsize⟩⟩

theorem survives_of_short (h : buffer.length ≤ 3) : Survives lz memory buffer result := by
  rw [Survives, trailing, if_pos h, unlz4, Extends]
  by_cases hzero : buffer.length = 0
  · rw [if_pos hzero]
    exact ⟨List.prefix_rfl, rfl⟩
  · rw [if_neg hzero, if_pos h]
    exact ⟨rfl, List.prefix_rfl⟩

theorem trailing_lt (buffer : List UInt8) : trailing buffer < 2 ^ 32 := by
  rw [trailing]
  split
  · decide
  · exact UInt32.toNat_lt _

theorem unlz4_eq (h : 3 < buffer.length) :
    unlz4 lz memory buffer = expand lz memory buffer (int32 (trailing buffer)) := by
  rw [unlz4, if_neg (by omega), if_neg (by omega), trailing, if_neg (by omega)]

theorem sizeT_of_misleads (h : Misleads buffer result) :
    sizeT (result.size + int32 (trailing buffer)) ≤ result.size := by
  have hlt := trailing_lt buffer
  have hsize : result.size ≤ 2 ^ 63 - 1 := result.length_le
  rcases h.2 with hzero | ⟨hlarge, hwrap⟩
  · rw [hzero, int32_of_lt (by omega) (by omega), sizeT_of_lt (by omega) (by omega)]
    omega
  · rw [int32_of_ge (by omega) (by omega), sizeT_of_lt (by omega) (by omega)]
    omega

theorem survives_of_not_misleads (h : ¬Misleads buffer result) :
    Survives lz memory buffer result := by
  by_cases hlen : buffer.length ≤ 3
  · exact survives_of_short hlen
  · have hlt := trailing_lt buffer
    have hsize : result.size ≤ 2 ^ 63 - 1 := result.length_le
    have hzero : trailing buffer ≠ 0 := fun hzero => h ⟨by omega, .inl hzero⟩
    rw [Survives, unlz4_eq (by omega)]
    by_cases hsmall : trailing buffer < 2 ^ 31
    · rw [int32_of_lt (by omega) (by omega)]
      refine extends_expand (by omega) ?_
      rw [sizeT_of_lt (by omega) (by omega)]
      omega
    · -- the negative length makes the sum wrap around, to more than any vector holds
      have hshort : ¬2 ^ 32 ≤ result.size + trailing buffer :=
        fun hwrap => h ⟨by omega, .inr ⟨by omega, hwrap⟩⟩
      rw [int32_of_ge (by omega) (by omega)]
      refine extends_expand_of_refused fun hgranted => ?_
      have hle : sizeT (result.size + ((trailing buffer : Int) - 2 ^ 32)) ≤ 2 ^ 63 - 1 :=
        hgranted.le
      rw [sizeT_of_neg (by omega) (by omega)] at hle
      omega

theorem not_survives_of_misleads (h : Misleads buffer result) : ¬Survives lz memory buffer result := by
  rw [Survives, unlz4_eq h.1]
  exact not_extends_expand_of_le (sizeT_of_misleads h)

theorem survives_iff : Survives lz memory buffer result ↔ ¬Misleads buffer result :=
  ⟨fun hsurvives hmisleads => not_survives_of_misleads hmisleads hsurvives,
    survives_of_not_misleads⟩

theorem not_survives_zero_length : ¬∀ (lz : Lz4) (memory : Nat → Bool) (buffer : List UInt8)
    (result : ByteVector), Survives lz memory buffer result := by
  intro hall
  have hmisleads : Misleads [0, 0, 0, 0, 0] ⟨[], Nat.zero_le _⟩ := ⟨by decide, .inl (by decide)⟩
  exact not_survives_of_misleads hmisleads
    (hall Lz4.literals (fun _ => true) [0, 0, 0, 0, 0] ⟨[], Nat.zero_le _⟩)

theorem wp_unlz4_size : wp (unlz4 lz memory buffer)
    (fun _ r => r.size = result.size + trailing buffer) (fun _ _ => True) result := by
  by_cases h : Misleads buffer result
  · rw [unlz4_eq h.1]
    exact (wp_expand_of_le (sizeT_of_misleads h)).mono (fun _ _ => False.elim) fun _ _ _ => trivial
  · have hsurvives : Survives lz memory buffer result := survives_of_not_misleads h
    exact hsurvives.mono (fun _ _ hr => hr.2) fun _ _ _ => trivial

end Malformed

section Compressing

variable {lz memory} {buffer : List UInt8} {result : ByteVector}

/-- The size of the vector that `lz4` asks for. -/
def needed (buffer : List UInt8) (result : ByteVector) : Nat :=
  result.size + (buffer.length + buffer.length / 2 + 256)

/-- The call of the library that `lz4` makes. -/
def call (lz : Lz4) (buffer : List UInt8) : Int × List UInt8 :=
  lz.compress buffer (int32 buffer.length)
    (int32 (buffer.length + buffer.length / 2 + 256 : Nat))

theorem length_call_le (lz : Lz4) (buffer : List UInt8) :
    (call lz buffer).2.length ≤ buffer.length + buffer.length / 2 + 256 := by
  have hwithin := lz.compress_within buffer (int32 buffer.length)
    (int32 (buffer.length + buffer.length / 2 + 256 : Nat))
  have hle := int32_le (x := (buffer.length + buffer.length / 2 + 256 : Nat)) (by omega)
  rw [call]
  omega

theorem call_of_pos (h : 0 < (call lz buffer).1) :
    ∃ n : Nat, int32 buffer.length = n ∧ n ≤ buffer.length ∧ n ≤ maxInputSize ∧
      (call lz buffer).1 ≤ (call lz buffer).2.length ∧ (call lz buffer).1 ≤ compressBound n := by
  have hrange : ¬(int32 buffer.length < 0 ∨ maxInputSize < int32 buffer.length) := by
    intro hout
    have hle := lz.compress_refuses buffer _
      (int32 (buffer.length + buffer.length / 2 + 256 : Nat)) hout
    rw [call] at h
    omega
  obtain ⟨n, hn⟩ := Int.eq_ofNat_of_zero_le (show 0 ≤ int32 buffer.length by omega)
  have hle := int32_le (x := buffer.length) (by omega)
  rw [hn] at hrange hle
  have hn' : n ≤ buffer.length := by omega
  refine ⟨n, hn, hn', by omega, ?_⟩
  rw [call, hn] at h ⊢
  exact lz.compress_block buffer _ n hn' h

theorem wp_finish {v : ByteVector} {initialLen len c : Nat}
    {Q : Unit → ByteVector → Prop} {E : Failure → ByteVector → Prop}
    (hc : c + 4 < 2 ^ 31) (hsize : initialLen + c + 4 ≤ v.size)
    (hQ : ∀ r : ByteVector, r.bytes = v.bytes.take (initialLen + c) ++ w32be len → Q () r) :
    wp (finish memory initialLen len c) Q E v := by
  have hmax : v.size ≤ 2 ^ 63 - 1 := v.length_le
  have hsum : sizeT (initialLen + int32 ((c : Int) + 4)) = initialLen + c + 4 := by
    rw [int32_of_lt (by omega) (by omega), sizeT_of_lt (by omega) (by omega)]
    omega
  have hlen := length_w32be len
  simp only [finish, wp_bind, wp_store, wp_resize, hsum, Int.toNat_natCast, hlen]
  refine ⟨fun u _ hu => ?_, fun hlt => by omega⟩
  have husize : u.size = v.size := by
    rw [size, hu]
    simp only [List.length_append, List.length_take, List.length_drop, hlen, size] at *
    omega
  refine ⟨fun r _ hr => hQ r ?_, fun hnot => absurd (.inl (by omega)) hnot⟩
  have hstart : (v.bytes.take (initialLen + c) ++ w32be len).length = initialLen + c + 4 := by
    rw [List.length_append, List.length_take, hlen, min_eq_left]
    exact Nat.le_trans (Nat.le_add_right _ 4) hsize
  rw [hr, resized, husize, Nat.sub_eq_zero_of_le hsize, List.replicate_zero, List.append_nil, hu,
    ← hstart, List.take_left]

/-- The bytes that `lz4` appends. -/
def record (lz : Lz4) (buffer : List UInt8) : List UInt8 :=
  (call lz buffer).2.take (call lz buffer).1.toNat ++ w32be buffer.length

theorem wp_lz4 {Q : Unit → ByteVector → Prop} {E : Failure → ByteVector → Prop}
    (hne : buffer.length ≠ 0) (hneed : needed buffer result < 2 ^ 64)
    (hrefused : ¬Granted memory (needed buffer result) result → E .throws result)
    (hfailed : ∀ u : ByteVector, Granted memory (needed buffer result) result →
      (call lz buffer).1 ≤ 0 → result.bytes <+: u.bytes → E .throws u)
    (hok : ∀ r : ByteVector, Granted memory (needed buffer result) result →
      0 < (call lz buffer).1 → r.bytes = result.bytes ++ record lz buffer → Q () r) :
    wp (lz4 lz memory buffer) Q E result := by
  have hsum : sizeT (result.size + int64 (buffer.length + buffer.length / 2 + 256)) =
      needed buffer result := by
    rw [needed] at hneed ⊢
    rw [sizeT_add_int64, sizeT_of_lt (by omega) (by omega)]
    omega
  have hcall : lz.compress buffer (int32 buffer.length)
      (int32 (int64 (buffer.length + buffer.length / 2 + 256))) = call lz buffer := by
    rw [int32_int64, call]
    push_cast
    rfl
  have hlen := length_call_le lz buffer
  rw [lz4, if_neg hne, wp_bind, wp_get, wp_bind, wp_resize, hsum]
  refine ⟨fun w hgranted hw => ?_, hrefused⟩
  have hwsize : w.size = needed buffer result := size_of_resized hw
  have hlead : w.bytes.take result.size = result.bytes := by
    rw [hw, resized, List.take_of_length_le (i := needed buffer result) (Nat.le_add_right _ _)]
    exact List.take_left
  rw [needed] at hwsize
  rw [wp_bind, hcall, wp_store]
  refine ⟨fun u _ hu => ?_, fun hlt => by omega⟩
  rw [hlead] at hu
  rw [wp_ite]
  refine ⟨fun hnonpos => hfailed u hgranted hnonpos ?_, fun hpos => ?_⟩
  · rw [hu, List.append_assoc]
    exact List.prefix_append _ _
  · rw [Int.not_le] at hpos
    obtain ⟨n, _, hle, hmax, hwritten, hbound⟩ := call_of_pos hpos
    obtain ⟨c, hc⟩ := Int.eq_ofNat_of_zero_le (Int.le_of_lt hpos)
    rw [hc, compressBound] at hbound
    rw [hc] at hwritten
    rw [maxInputSize] at hmax
    have husize : u.size = w.size := by
      rw [size, hu]
      simp only [List.length_append, List.length_drop, size] at *
      omega
    rw [hc]
    refine wp_finish (by omega) (by omega) fun r hr => hok r hgranted hpos ?_
    have htake : u.bytes.take (result.size + c) = result.bytes ++ (call lz buffer).2.take c := by
      rw [hu, List.append_assoc, size, List.take_length_add_append,
        List.take_append_of_le_length (by omega)]
    rw [hr, htake, record, hc, Int.toNat_natCast, List.append_assoc]

theorem unlz4_record {dest : ByteVector} (hne : buffer.length ≠ 0) (hlt : buffer.length < 2 ^ 32)
    (hpos : 0 < (call lz buffer).1) (hgranted : Granted memory (dest.size + buffer.length) dest) :
    wp (unlz4 lz memory (record lz buffer)) (fun _ s => s.bytes = dest.bytes ++ buffer)
      (fun _ _ => False) dest := by
  obtain ⟨n, hn, hle, hmax, hwritten, hbound⟩ := call_of_pos hpos
  obtain ⟨c, hc⟩ := Int.eq_ofNat_of_zero_le (Int.le_of_lt hpos)
  rw [hc, compressBound] at hbound
  rw [hc] at hwritten hpos
  rw [maxInputSize] at hmax
  have hsmall : buffer.length < 2 ^ 31 := by
    by_contra hlarge
    rw [int32_of_ge (by omega) (by omega)] at hn
    omega
  have hsame : n = buffer.length := by
    rw [int32_of_lt (by omega) (by omega)] at hn
    omega
  have hsize : dest.size ≤ 2 ^ 63 - 1 := dest.length_le
  have hblock : ((call lz buffer).2.take c).length = c := List.length_take_of_le (by omega)
  have hrecord : record lz buffer = (call lz buffer).2.take c ++ w32be buffer.length := by
    rw [record, hc, Int.toNat_natCast]
  have hlen : (record lz buffer).length = c + 4 := by
    rw [hrecord, List.length_append, hblock, length_w32be]
  have htrailing : trailing (record lz buffer) = buffer.length := by
    rw [trailing, if_neg (by omega), hlen, Nat.add_sub_cancel, hrecord, List.drop_left' hblock,
      toNat_r32be_w32be]
    omega
  have hdecompress := lz.decompress_compress buffer
    (int32 (buffer.length + buffer.length / 2 + 256 : Nat)) n c buffer.length (record lz buffer)
    (by omega) (by rw [← hn]; exact hc) (by omega)
    (by rw [← hn, hrecord, List.take_left' hblock]; rfl) (by omega)
  have hwithin := lz.decompress_within (record lz buffer) c buffer.length
  have hout : (lz.decompress (record lz buffer) c buffer.length).2 = buffer := by
    have htake := hdecompress.2
    rwa [hsame, List.take_length, List.take_of_length_le (by omega)] at htake
  have hanswer : lz.decompress (record lz buffer) (int32 ((record lz buffer).length - 4 : Nat))
      buffer.length = lz.decompress (record lz buffer) c buffer.length := by
    rw [hlen, Nat.add_sub_cancel, int32_of_lt (by omega) (by omega)]
  rw [unlz4_eq (by omega), htrailing, int32_of_lt (by omega) (by omega)]
  refine wp_expand (by omega) ?_ hanswer (absurd hgranted) fun s _ hs hlead => ?_
  · rw [sizeT_of_lt (by omega) (by omega)]
    omega
  · rw [hdecompress.1, hsame]
    rw [hout] at hlead
    refine ⟨fun hne => hne rfl, fun _ => (hlead.eq_of_length ?_).symm⟩
    rw [List.length_append]
    exact hs.symm

/-- What is refused or appended: in the second case a record of the whole buffer. -/
def Lossless (lz : Lz4) (memory : Nat → Bool) (buffer : List UInt8) (result : ByteVector) : Prop :=
  wp (lz4 lz memory buffer)
    (fun _ r => ∃ record, r.bytes = result.bytes ++ record ∧
      ∀ (memory' : Nat → Bool) (dest : ByteVector),
        Granted memory' (dest.size + buffer.length) dest →
          wp (unlz4 lz memory' record) (fun _ s => s.bytes = dest.bytes ++ buffer)
            (fun _ _ => False) dest)
    (fun e r => e = .throws ∧ result.bytes <+: r.bytes) result

/-- The vector cannot be enlarged, or LZ4 does not accept the lengths as they arrive. -/
def Refused (lz : Lz4) (memory : Nat → Bool) (buffer : List UInt8) (result : ByteVector) : Prop :=
  needed buffer result < 2 ^ 64 ∧
    (¬Granted memory (needed buffer result) result ∨ (call lz buffer).1 ≤ 0)

theorem lossless_of_short (h : buffer.length < 2 ^ 32) : Lossless lz memory buffer result := by
  have hsize : result.size ≤ 2 ^ 63 - 1 := result.length_le
  by_cases hne : buffer.length = 0
  · rw [Lossless, lz4, if_pos hne]
    refine ⟨[], (List.append_nil _).symm, fun memory' dest _ => ?_⟩
    rw [List.length_eq_zero_iff.1 hne]
    exact (List.append_nil _).symm
  · refine wp_lz4 hne ?_ (fun _ => ⟨rfl, List.prefix_rfl⟩) (fun u _ _ hu => ⟨rfl, hu⟩)
      fun r _ hpos hr => ?_
    · rw [needed]
      omega
    · exact ⟨record lz buffer, hr, fun memory' dest => unlz4_record hne h hpos⟩

theorem lossless_of_refused (hne : buffer.length ≠ 0) (h : Refused lz memory buffer result) :
    Lossless lz memory buffer result := by
  refine wp_lz4 hne h.1 (fun _ => ⟨rfl, List.prefix_rfl⟩) (fun u _ _ hu => ⟨rfl, hu⟩)
    fun r hgranted hpos _ => ?_
  rcases h.2 with hnot | hnonpos
  · exact absurd hgranted hnot
  · omega

theorem wp_lz4_of_overflow (hlen : buffer.length < 2 ^ 63) (h : 2 ^ 64 ≤ needed buffer result) :
    wp (lz4 lz memory buffer) (fun _ _ => False) (fun e _ => e = .outOfBounds) result := by
  have hsize : result.size ≤ 2 ^ 63 - 1 := result.length_le
  rw [needed] at h
  have hne : buffer.length ≠ 0 := by omega
  have hsum : sizeT (result.size + int64 (buffer.length + buffer.length / 2 + 256)) <
      result.size := by
    rw [sizeT_add_int64, ← sizeT_sub, sizeT_of_lt (by omega) (by omega)]
    omega
  rw [lz4, if_neg hne, wp_bind, wp_get, wp_bind, wp_resize]
  refine ⟨fun w _ hw => ?_, fun hnot => absurd (.inl (Nat.le_of_lt hsum)) hnot⟩
  have hwsize : w.size < result.size := by rwa [size_of_resized hw]
  rw [wp_bind, wp_store]
  exact ⟨fun _ hle => by omega, fun _ => rfl⟩

theorem refused_of_lossless (hlen : buffer.length < 2 ^ 63) (hlong : 2 ^ 32 ≤ buffer.length)
    (h : Lossless lz memory buffer result) : Refused lz memory buffer result := by
  have hne : buffer.length ≠ 0 := by omega
  by_contra hnot
  by_cases hneed : needed buffer result < 2 ^ 64
  · have hgranted : Granted memory (needed buffer result) result := by
      by_contra hrefused
      exact hnot ⟨hneed, .inl hrefused⟩
    have hpos : ¬(call lz buffer).1 ≤ 0 := fun hnonpos => hnot ⟨hneed, .inr hnonpos⟩
    have hreturns : wp (lz4 lz memory buffer) (fun _ _ => True) (fun _ _ => False) result :=
      wp_lz4 hne hneed (absurd hgranted) (fun _ _ hnonpos _ => hpos hnonpos)
        fun _ _ _ _ => trivial
    obtain ⟨_, r, _, ⟨record, _, hdecodes⟩, _⟩ := (h.and hreturns).exists_ok fun _ _ => And.right
    -- four bytes cannot tell the length of the buffer
    have hfits : 0 + buffer.length ≤ maxSize := by
      rw [maxSize]
      omega
    obtain ⟨_, s, _, hs, hsize⟩ := ((hdecodes (fun _ => true) ⟨[], Nat.zero_le _⟩
      (.inr ⟨hfits, rfl⟩)).and wp_unlz4_size).exists_ok fun _ _ => And.left
    have hlt := trailing_lt record
    rw [size, hs, List.nil_append, size, List.length_nil] at hsize
    omega
  · obtain ⟨e, _, _, ⟨hthrows, _⟩, he⟩ :=
      (h.and (wp_lz4_of_overflow hlen (by omega))).exists_error fun _ _ => And.right
    rw [he] at hthrows
    cases hthrows

theorem lossless_iff (hlen : buffer.length < 2 ^ 63) :
    Lossless lz memory buffer result ↔
      buffer.length < 2 ^ 32 ∨ Refused lz memory buffer result := by
  constructor
  · intro h
    by_cases hshort : buffer.length < 2 ^ 32
    · exact .inl hshort
    · exact .inr (refused_of_lossless hlen (by omega) h)
  · rintro (hshort | hrefused)
    · exact lossless_of_short hshort
    · by_cases hne : buffer.length = 0
      · exact lossless_of_short (by omega)
      · exact lossless_of_refused hne hrefused

theorem lossless_three_bytes :
    Lossless Lz4.literals (fun _ => true) [1, 2, 3] ⟨[], Nat.zero_le _⟩ :=
  (lossless_iff (by decide)).2 (.inl (by decide))

/-- LZ4 sees five bytes and a capacity of 263. -/
theorem call_truncated {buffer : List UInt8} (hlen : buffer.length = 2 ^ 33 + 5) :
    0 < (call Lz4.literals buffer).1 := by
  have hcall : int32 buffer.length = 5 ∧
      int32 (buffer.length + buffer.length / 2 + 256 : Nat) = 263 := by
    rw [hlen]
    decide +kernel
  rw [call, hcall.1, hcall.2]
  have hfits : (0 : Int) ≤ 5 ∧ (5 : Int) ≤ 12 ∧ (5 : Int) + 1 ≤ 263 ∧ (5 : Int) ≤ buffer.length := by
    omega
  simp only [Lz4.literals, if_pos hfits]
  decide

theorem not_lossless_truncated : ¬∀ (lz : Lz4) (memory : Nat → Bool) (buffer : List UInt8)
    (result : ByteVector), buffer.length < 2 ^ 63 → Lossless lz memory buffer result := by
  intro hall
  have hbuffer : ∃ buffer : List UInt8, buffer.length = 2 ^ 33 + 5 :=
    ⟨List.replicate _ 0, List.length_replicate⟩
  obtain ⟨buffer, hlen⟩ := hbuffer
  have hlossless := hall Lz4.literals (fun _ => true) buffer ⟨[], Nat.zero_le _⟩ (by omega)
  obtain ⟨_, hnot | hnonpos⟩ := refused_of_lossless (by omega) (by omega) hlossless
  · have hfits : needed buffer ⟨[], Nat.zero_le _⟩ ≤ maxSize := by
      rw [needed, hlen]
      decide
    exact hnot (.inr ⟨hfits, rfl⟩)
  · have hpos := call_truncated hlen
    omega

end Compressing

end Utlib.Compressible
