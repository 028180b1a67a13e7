import Utlib.Compressible.Lz4

/-! `utl::Compressible::gzip`, over zlib. -/

namespace Utlib.Compressible

open Program ByteVector

/-- Conversion to `uInt` -/
def uInt (x : Nat) : Nat := x % 2 ^ 32

/-- The windows of a `z_stream`: `nextIn` counts from the start of the buffer and `nextOut` from
the start of the result vector. -/
structure ZStream where
  nextIn : Nat
  availIn : Nat
  nextOut : Nat
  availOut : Nat

/-- deflateInit2 and deflate: what they return, and the bytes that deflate stores in the output
window for those in the input window. -/
structure Zlib where
  deflateInit2 : ZStream → Int
  deflate : ZStream → List UInt8 → Int × List UInt8
  deflate_within : ∀ zs input, (deflate zs input).2.length ≤ zs.availOut

/-- `result.resize(initialLen + len + len / 2 + 256)`, then the stream. -/
def openStream (memory : Nat → Bool) (len initialLen : Nat) :
    EStateM Failure ByteVector ZStream := do
  resize memory (sizeT (initialLen + len + len / 2 + 256))
  let size := (← get).size
  pure { nextIn := 0, availIn := uInt len, nextOut := initialLen, availOut := uInt size }

def gzip (z : Zlib) (memory : Nat → Bool) (buffer : List UInt8) :
    EStateM Failure ByteVector Unit :=
  let len := buffer.length
  if len = 0 then pure ()
  else do
    let initialLen := (← get).size
    let zs ← openStream memory len initialLen
    -- Z_OK
    if z.deflateInit2 zs ≠ 0 then throw .throws
    else
      require (zs.nextIn + zs.availIn ≤ len) .outOfBounds
      let ret := z.deflate zs ((buffer.drop zs.nextIn).take zs.availIn)
      store zs.nextOut ret.2
      -- Z_STREAM_END
      if ret.1 ≠ 1 then throw .throws
      else resize memory (sizeT (initialLen + ret.2.length))

section Windows

variable {memory : Nat → Bool} {buffer : List UInt8} {result v w : ByteVector} {zs : ZStream}
  {len : Nat}

/-- The input window is all of the buffer; the output window begins behind the bytes of `v` and
ends inside of `w`. -/
structure ProperWindows (len : Nat) (v : ByteVector) (zs : ZStream) (w : ByteVector) : Prop where
  input : zs.nextIn = 0 ∧ zs.availIn = len
  behind : zs.nextOut = v.size ∧ v.bytes <+: w.bytes
  inside : zs.nextOut + zs.availOut ≤ w.size

/-- deflate gets proper windows, unless the vector cannot be made larger. -/
def OpensProperly (memory : Nat → Bool) (len : Nat) (result : ByteVector) : Prop :=
  wp (openStream memory len result.size) (ProperWindows len result) (fun e _ => e = .throws) result

/-- The windows are proper, and whatever deflate does with them, no access is outside of the buffer
and the vector. -/
def HandsProperWindows (memory : Nat → Bool) (buffer : List UInt8) (result : ByteVector) : Prop :=
  (buffer.length ≠ 0 → OpensProperly memory buffer.length result) ∧
    ∀ z, wp (gzip z memory buffer) (fun _ _ => True) (fun e _ => e ≠ .outOfBounds) result

/-- There is something to zip, and the vector can be made larger. -/
def ReachesZlib (memory : Nat → Bool) (buffer : List UInt8) (result : ByteVector) : Prop :=
  buffer.length ≠ 0 ∧
    Granted memory (sizeT (result.size + buffer.length + buffer.length / 2 + 256)) result

/-- The input is shorter than 2^32 bytes; modulo 2^32 the number of bytes already there is zero, or
so large that the new size wraps around. -/
def WindowsFit (len initialLen : Nat) : Prop :=
  len < 2 ^ 32 ∧ (2 ^ 32 ∣ initialLen ∨ 2 ^ 32 ≤ initialLen % 2 ^ 32 + len + len / 2 + 256)

theorem wp_openStream {Q : ZStream → ByteVector → Prop} {E : Failure → ByteVector → Prop}
    {n : Nat} (hn : sizeT (v.size + len + len / 2 + 256) = n) :
    wp (openStream memory len v.size) Q E v ↔
      (∀ w : ByteVector, Granted memory n v → w.bytes = resized n v →
        Q ⟨0, uInt len, v.size, uInt n⟩ w) ∧
      (¬Granted memory n v → E .throws v) := by
  simp only [openStream, wp_bind, wp_resize, wp_get, wp_pure, hn]
  refine and_congr_left fun _ => forall_congr' fun w => imp_congr_right fun _ =>
    imp_congr_right fun hw => ?_
  rw [size_of_resized hw]

theorem sizeT_sum (h : len < 2 ^ 32) :
    sizeT (v.size + len + len / 2 + 256) = v.size + len + len / 2 + 256 := by
  have hsize : v.size ≤ 2 ^ 63 - 1 := v.length_le
  rw [sizeT_of_lt (by omega) (by omega)]
  omega

theorem inside_iff (initialLen len : Nat) :
    initialLen + uInt (initialLen + len + len / 2 + 256) ≤ initialLen + len + len / 2 + 256 ↔
      2 ^ 32 ∣ initialLen ∨ 2 ^ 32 ≤ initialLen % 2 ^ 32 + len + len / 2 + 256 := by
  rw [uInt]
  omega

theorem opensProperly_iff (memory : Nat → Bool) (len : Nat) (v : ByteVector) :
    OpensProperly memory len v ↔
      (Granted memory (sizeT (v.size + len + len / 2 + 256)) v → WindowsFit len v.size) := by
  rw [OpensProperly, wp_openStream rfl]
  constructor
  · rintro ⟨hproper, -⟩ hgranted
    obtain ⟨w, hw⟩ : ∃ w : ByteVector, w.bytes = resized _ v :=
      ⟨⟨resized _ v, (length_resized _ v).le.trans hgranted.le⟩, rfl⟩
    obtain ⟨⟨-, hin⟩, -, hinside⟩ := hproper w hgranted hw
    have hshort : len < 2 ^ 32 := by
      rw [← hin]
      exact Nat.mod_lt _ (by decide)
    rw [size_of_resized hw, sizeT_sum hshort] at hinside
    exact ⟨hshort, (inside_iff _ _).1 hinside⟩
  · intro hfits
    refine ⟨fun w hgranted hw => ?_, fun _ => rfl⟩
    obtain ⟨hshort, hfit⟩ := hfits hgranted
    refine ⟨⟨rfl, Nat.mod_eq_of_lt hshort⟩, ⟨rfl, ?_⟩, ?_⟩
    · rw [hw, resized, sizeT_sum hshort, List.take_of_length_le (by rw [size]; omega)]
      exact List.prefix_append _ _
    · rw [size_of_resized hw, sizeT_sum hshort]
      exact (inside_iff _ _).2 hfit

/-- What deflate does within proper windows stays inside of the buffer and of the vector. -/
theorem wp_gzip_of_proper (z : Zlib)
    (h : buffer.length ≠ 0 → OpensProperly memory buffer.length result) :
    wp (gzip z memory buffer) (fun _ _ => True) (fun e _ => e ≠ .outOfBounds) result := by
  rw [gzip]
  by_cases hlen : buffer.length = 0
  · rw [if_pos hlen]
    trivial
  · rw [if_neg hlen, wp_bind, wp_get, wp_bind]
    refine (h hlen).mono ?_ ?_
    · rintro zs w ⟨⟨hnext, havail⟩, -, hinside⟩
      have hwithin := z.deflate_within zs ((buffer.drop zs.nextIn).take zs.availIn)
      simp only [wp_ite, wp_throw, wp_bind, wp_require, wp_store, wp_resize]
      refine ⟨fun _ => by decide, fun _ => ⟨fun _ => ⟨fun u _ _ => ?_, fun hlt => by omega⟩,
        fun hnot => by omega⟩⟩
      exact ⟨fun _ => by decide, fun _ => ⟨fun _ _ _ => trivial, fun _ => by decide⟩⟩
    · rintro e w rfl
      decide

theorem hands_proper_windows_iff (memory : Nat → Bool) (buffer : List UInt8)
    (result : ByteVector) :
    HandsProperWindows memory buffer result ↔
      (ReachesZlib memory buffer result → WindowsFit buffer.length result.size) := by
  have hopens := opensProperly_iff memory buffer.length result
  constructor
  · rintro ⟨hproper, -⟩ ⟨hlen, hgranted⟩
    exact hopens.1 (hproper hlen) hgranted
  · intro h
    have hproper : buffer.length ≠ 0 → OpensProperly memory buffer.length result :=
      fun hlen => hopens.2 fun hgranted => h ⟨hlen, hgranted⟩
    exact ⟨hproper, fun z => wp_gzip_of_proper z hproper⟩

/-- With one byte already in the vector the output window ends behind the vector. -/
theorem not_hands_proper_windows_behind_one_byte :
    ¬HandsProperWindows (fun _ => true) [1] ⟨[7], by decide⟩ := by
  rintro ⟨hproper, -⟩
  have hfits := (opensProperly_iff _ _ _).1 (hproper (by decide)) (.inr ⟨?_, rfl⟩)
  · exact absurd hfits.2 (by decide)
  · rw [sizeT_sum (by decide)]
    decide

end Windows

end Utlib.Compressible
