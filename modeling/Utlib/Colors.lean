import Mathlib.Algebra.Order.Ring.Nat
import Utlib.Layout

/-! `GpuColor` (gfx/Colors.h): colours as texels in one of three formats. -/

namespace Utlib

inductive TexelFormat
  | ABGR
  | ARGB
  | RGBA
  deriving DecidableEq

/-- A texel of format `F` -/
structure GpuColor (F : TexelFormat) where
  rawValue : UInt32
  deriving DecidableEq

namespace GpuColor

/-- Four bytes, the most significant one first -/
def word (x₃ x₂ x₁ x₀ : UInt8) : UInt32 :=
  x₃.toUInt32 <<< 24 ||| x₂.toUInt32 <<< 16 ||| x₁.toUInt32 <<< 8 ||| x₀.toUInt32

def pack (F : TexelFormat) (r g b a : UInt8) : UInt32 :=
  match F with
  | .ABGR => word a b g r
  | .ARGB => word a r g b
  | .RGBA => word r g b a

def ofChannels {F : TexelFormat} (r g b a : UInt8) : GpuColor F := ⟨pack F r g b a⟩

variable {F : TexelFormat} (c : GpuColor F)

def r : UInt8 :=
  match F with
  | .ABGR => c.rawValue.toUInt8
  | .ARGB => (c.rawValue >>> 16).toUInt8
  | .RGBA => (c.rawValue >>> 24).toUInt8

def g : UInt8 :=
  match F with
  | .RGBA => (c.rawValue >>> 16).toUInt8
  | _ => (c.rawValue >>> 8).toUInt8

def b : UInt8 :=
  match F with
  | .ABGR => (c.rawValue >>> 16).toUInt8
  | .ARGB => c.rawValue.toUInt8
  | .RGBA => (c.rawValue >>> 8).toUInt8

def a : UInt8 :=
  match F with
  | .RGBA => c.rawValue.toUInt8
  | _ => (c.rawValue >>> 24).toUInt8

section Bytes

variable (x₃ x₂ x₁ x₀ : UInt8)

theorem toNat_word :
    (word x₃ x₂ x₁ x₀).toNat =
      x₃.toNat * 2 ^ 24 + (x₂.toNat * 2 ^ 16 + (x₁.toNat * 2 ^ 8 + x₀.toNat)) := by
  have h₃ := x₃.toNat_lt
  have h₂ := x₂.toNat_lt
  have h₁ := x₁.toNat_lt
  have h₀ := x₀.toNat_lt
  have hshift (x : UInt8) (k : UInt32) (hk : k.toNat ≤ 24) :
      (x.toUInt32 <<< k).toNat = x.toNat <<< k.toNat := by
    have hlt := x.toNat_lt
    have hpow : 2 ^ k.toNat ≤ 2 ^ 24 := Nat.pow_le_pow_right (by decide) hk
    have hmul := Nat.mul_le_mul (Nat.le_of_lt_succ hlt) hpow
    rw [UInt32.toNat_shiftLeft, UInt8.toNat_toUInt32, Nat.mod_eq_of_lt (by omega : k.toNat < 32),
      Nat.mod_eq_of_lt]
    rw [Nat.shiftLeft_eq]
    omega
  have hor (m n k : Nat) (hlt : n < 2 ^ k) : m <<< k ||| n = m * 2 ^ k + n := by
    rw [← Nat.shiftLeft_add_eq_or_of_lt hlt, Nat.shiftLeft_eq]
  rw [word, UInt32.toNat_or, UInt32.toNat_or, UInt32.toNat_or, hshift x₃ 24 (by decide),
    hshift x₂ 16 (by decide), hshift x₁ 8 (by decide), UInt8.toNat_toUInt32, Nat.or_assoc,
    Nat.or_assoc]
  change x₃.toNat <<< 24 ||| (x₂.toNat <<< 16 ||| (x₁.toNat <<< 8 ||| x₀.toNat)) = _
  rw [hor _ _ 8 (by omega), hor _ _ 16 (by omega), hor _ _ 24 (by omega)]

theorem toUInt8_word : (word x₃ x₂ x₁ x₀).toUInt8 = x₀ := by
  have h₀ := x₀.toNat_lt
  apply UInt8.toNat_inj.1
  rw [UInt32.toNat_toUInt8, toNat_word]
  omega

/-- The byte of a word that a shift by `k` brings down -/
theorem toNat_byte (v k : UInt32) (hk : k.toNat < 32) :
    (v >>> k).toUInt8.toNat = v.toNat / 2 ^ k.toNat % 2 ^ 8 := by
  rw [UInt32.toNat_toUInt8, UInt32.toNat_shiftRight, Nat.mod_eq_of_lt hk,
    Nat.shiftRight_eq_div_pow]

theorem byte_word (k : UInt32) (x : UInt8) (hk : k.toNat < 32)
    (h : (word x₃ x₂ x₁ x₀).toNat / 2 ^ k.toNat % 2 ^ 8 = x.toNat) :
    (word x₃ x₂ x₁ x₀ >>> k).toUInt8 = x := by
  apply UInt8.toNat_inj.1
  rw [toNat_byte _ k hk, h]

theorem byte_word_8 : (word x₃ x₂ x₁ x₀ >>> 8).toUInt8 = x₁ := by
  have h₁ := x₁.toNat_lt
  have h₀ := x₀.toNat_lt
  refine byte_word _ _ _ _ 8 x₁ (by decide) ?_
  rw [toNat_word]
  change _ / 2 ^ 8 % 2 ^ 8 = _
  omega

theorem byte_word_16 : (word x₃ x₂ x₁ x₀ >>> 16).toUInt8 = x₂ := by
  have h₂ := x₂.toNat_lt
  have h₁ := x₁.toNat_lt
  have h₀ := x₀.toNat_lt
  refine byte_word _ _ _ _ 16 x₂ (by decide) ?_
  rw [toNat_word]
  change _ / 2 ^ 16 % 2 ^ 8 = _
  omega

theorem byte_word_24 : (word x₃ x₂ x₁ x₀ >>> 24).toUInt8 = x₃ := by
  have h₃ := x₃.toNat_lt
  have h₂ := x₂.toNat_lt
  have h₁ := x₁.toNat_lt
  have h₀ := x₀.toNat_lt
  refine byte_word _ _ _ _ 24 x₃ (by decide) ?_
  rw [toNat_word]
  change _ / 2 ^ 24 % 2 ^ 8 = _
  omega

/-- A word is made of its bytes. -/
theorem word_bytes (v : UInt32) :
    word (v >>> 24).toUInt8 (v >>> 16).toUInt8 (v >>> 8).toUInt8 v.toUInt8 = v := by
  have hlt := v.toNat_lt
  apply UInt32.toNat_inj.1
  rw [toNat_word, toNat_byte v 24 (by decide), toNat_byte v 16 (by decide),
    toNat_byte v 8 (by decide), UInt32.toNat_toUInt8]
  change v.toNat / 2 ^ 24 % 2 ^ 8 * 2 ^ 24 + (v.toNat / 2 ^ 16 % 2 ^ 8 * 2 ^ 16 +
    (v.toNat / 2 ^ 8 % 2 ^ 8 * 2 ^ 8 + v.toNat % 2 ^ 8)) = v.toNat
  omega

end Bytes

section Channels

variable (r g b a : UInt8)

@[simp] theorem r_ofChannels : (ofChannels r g b a : GpuColor F).r = r := by
  cases F with
  | ABGR => exact toUInt8_word _ _ _ _
  | ARGB => exact byte_word_16 _ _ _ _
  | RGBA => exact byte_word_24 _ _ _ _

@[simp] theorem g_ofChannels : (ofChannels r g b a : GpuColor F).g = g := by
  cases F with
  | ABGR => exact byte_word_8 _ _ _ _
  | ARGB => exact byte_word_8 _ _ _ _
  | RGBA => exact byte_word_16 _ _ _ _

@[simp] theorem b_ofChannels : (ofChannels r g b a : GpuColor F).b = b := by
  cases F with
  | ABGR => exact byte_word_16 _ _ _ _
  | ARGB => exact toUInt8_word _ _ _ _
  | RGBA => exact byte_word_8 _ _ _ _

@[simp] theorem a_ofChannels : (ofChannels r g b a : GpuColor F).a = a := by
  cases F with
  | ABGR => exact byte_word_24 _ _ _ _
  | ARGB => exact byte_word_24 _ _ _ _
  | RGBA => exact toUInt8_word _ _ _ _

/-- A texel has nothing but its channels. -/
theorem ofChannels_channels : ofChannels c.r c.g c.b c.a = c := by
  obtain ⟨v⟩ := c
  cases F with
  | ABGR => exact congrArg GpuColor.mk (word_bytes v)
  | ARGB => exact congrArg GpuColor.mk (word_bytes v)
  | RGBA => exact congrArg GpuColor.mk (word_bytes v)

end Channels

end GpuColor

end Utlib
