import Mathlib.Data.List.GetD
import Utlib.Colors
import Utlib.Integral
import Utlib.MapM
import Utlib.Program

/-! `encodePNG` (gfx/Images.cpp): the image that the PNG encoder is given. -/

namespace Utlib.Images

open Program GpuColor

inductive Endian
  | little
  | big
  deriving DecidableEq

/-- The texel format whose bytes appear as R,G,B,A in memory -/
def nativeFormat : Endian → TexelFormat
  | .little => .ABGR
  | .big => .RGBA

/-- The bytes of a word, by address -/
def Endian.bytes : Endian → UInt32 → List UInt8
  | .little, v => Layout.encode v
  | .big, v => (Layout.encode v).reverse

inductive Failure
  | message (text : String)
  | badAlloc
  | outOfBounds
  deriving DecidableEq

/-- What can be read behind a pointer to texels -/
abbrev Texels := Nat → Option UInt32

/-- A program that fills an array of texels -/
abbrev Fill (α : Type) := EStateM Failure (List UInt32) α

def load (src : Texels) (i : Nat) : Fill UInt32 :=
  match src i with
  | some v => pure v
  | none => throw .outOfBounds

def store (i : Nat) (v : UInt32) : Fill Unit := do
  let dst ← get
  require (i < dst.length) .outOfBounds
  set (dst.set i v)

def repack (e : Endian) (F : TexelFormat) (v : UInt32) : UInt32 :=
  let c : GpuColor F := ⟨v⟩
  (ofChannels c.r c.g c.b c.a : GpuColor (nativeFormat e)).rawValue

/-- Repacks `count` texels at `s` and writes them at `d`. -/
def convert (e : Endian) (F : TexelFormat) (src : Texels) (s d count : Nat) : Fill Unit :=
  forRange (fun i => do
    let v ← load src (s + i)
    store (d + i) (repack e F v)) count 0

/-- `std::copy(dst + s, dst + s + count, dst + d)` -/
def copy (s d count : Nat) : Fill Unit :=
  forRange (fun i => do
    let dst ← get
    let v ← load (fun j => dst[j]?) (s + i)
    store (d + i) v) count 0

def copyRows (e : Endian) (F : TexelFormat) (src : Texels) (w h stride vscale : Nat) : Fill Unit :=
  forRange (fun y => do
    let d := y * vscale * w
    convert e F src (y * stride) d w
    forRange (fun i => copy d (d + i * w) w) (vscale - 1) 1) h 0

def loadAll (src : Texels) (n : Nat) : Except Failure (List UInt32) :=
  (List.range n).mapM fun i =>
    match src i with
    | some v => .ok v
    | none => .error .outOfBounds

/-- The rows are passed as they are when they are packed, each is needed once, and their texels
have the byte layout that the encoder expects. -/
def Direct (e : Endian) (F : TexelFormat) (w stride vscale : Nat) : Prop :=
  stride = w ∧ vscale = 1 ∧ F = nativeFormat e

instance (e F w stride vscale) : Decidable (Direct e F w stride vscale) :=
  inferInstanceAs (Decidable (_ ∧ _))

/-- The array that is passed to the encoder; `room` says for how many texels there is memory. -/
def contiguous (e : Endian) (room : Nat → Bool) (src : Texels) (w h stride vscale : Nat)
    (F : TexelFormat) : Except Failure (List UInt32) :=
  if Direct e F w stride vscale then loadAll src (w * (h * vscale))
  else if room (w * (h * vscale)) then
    match copyRows e F src w h stride vscale (List.replicate (w * (h * vscale)) 0) with
    | .ok _ tmp => .ok tmp
    | .error err _ => .error err
  else .error .badAlloc

abbrev Encoder := List UInt32 → Int → Int → Option (List UInt8)

def encoded : Option (List UInt8) → Except Failure (List UInt8)
  | some png => .ok png
  | none => .error (.message "encodePNG: image encoding failed")

def encodePNG (e : Endian) (room : Nat → Bool) (encoder : Encoder) (data : Option Texels)
    (w h stride vscale : Int) (F : TexelFormat) : Except Failure (List UInt8) :=
  match data with
  | none => .error (.message "encodePNG: invalid image data or dimensions")
  | some src =>
    if w ≤ 0 ∨ h ≤ 0 ∨ stride < w ∨ vscale < 1 then
      .error (.message "encodePNG: invalid image data or dimensions")
    else do
      let image ← contiguous e room src w.toNat h.toNat stride.toNat vscale.toNat F
      encoded (encoder image (Integral.i32.wrap w).toInt (Integral.i32.wrap (h * vscale)).toInt)

/-- Two texels of the same colour, in any formats -/
structure SameChannels {F G : TexelFormat} (c : GpuColor F) (d : GpuColor G) : Prop where
  r : c.r = d.r
  g : c.g = d.g
  b : c.b = d.b
  a : c.a = d.a

section Repack

variable (e : Endian)

theorem sameChannels_repack (F : TexelFormat) (v : UInt32) :
    SameChannels (⟨repack e F v⟩ : GpuColor (nativeFormat e)) (⟨v⟩ : GpuColor F) where
  r := r_ofChannels _ _ _ _
  g := g_ofChannels _ _ _ _
  b := b_ofChannels _ _ _ _
  a := a_ofChannels _ _ _ _

theorem repack_native (v : UInt32) : repack e (nativeFormat e) v = v :=
  congrArg GpuColor.rawValue (ofChannels_channels (⟨v⟩ : GpuColor (nativeFormat e)))

theorem encode_eq (v : UInt32) :
    Layout.encode v =
      [v.toUInt8, (v >>> 8).toUInt8, (v >>> 16).toUInt8, (v >>> 24).toUInt8] := by
  have hbyte (k : UInt32) (n : Nat) (hk : k.toNat < 32)
      (h : n % 2 ^ 8 = v.toNat / 2 ^ k.toNat % 2 ^ 8) :
      UInt8.ofNat n = (v >>> k).toUInt8 := by
    apply UInt8.toNat_inj.1
    rw [UInt8.toNat_ofNat', toNat_byte v k hk, h]
  have h₀ : UInt8.ofNat v.toNat = v.toUInt8 := by
    apply UInt8.toNat_inj.1
    rw [UInt8.toNat_ofNat', UInt32.toNat_toUInt8]
  have h₁ := hbyte 8 (v.toNat / 2 ^ 8) (by decide) rfl
  have h₂ := hbyte 16 (v.toNat / 2 ^ 8 / 2 ^ 8) (by decide) (by rw [Nat.div_div_eq_div_mul]; rfl)
  have h₃ := hbyte 24 (v.toNat / 2 ^ 8 / 2 ^ 8 / 2 ^ 8) (by decide)
    (by rw [Nat.div_div_eq_div_mul, Nat.div_div_eq_div_mul]; rfl)
  change [UInt8.ofNat v.toNat, _, _, _] = _
  rw [h₀, h₁, h₂, h₃]

/-- Native texels are what the encoder expects: four bytes, in the order of the channels. -/
theorem bytes_native (c : GpuColor (nativeFormat e)) :
    e.bytes c.rawValue = [c.r, c.g, c.b, c.a] := by
  obtain ⟨v⟩ := c
  cases e with
  | little => exact encode_eq v
  | big => exact congrArg List.reverse (encode_eq v)

theorem bytes_repack (F : TexelFormat) (v : UInt32) :
    e.bytes (repack e F v) =
      [(⟨v⟩ : GpuColor F).r, (⟨v⟩ : GpuColor F).g, (⟨v⟩ : GpuColor F).b, (⟨v⟩ : GpuColor F).a] := by
  have hsame := sameChannels_repack e F v
  rw [← hsame.r, ← hsame.g, ← hsame.b, ← hsame.a]
  exact bytes_native e ⟨repack e F v⟩

end Repack

section Rows

variable {E : Failure → List UInt32 → Prop} {dst : List UInt32} {target : Nat → UInt32} {n k : Nat}

/-- An array of `N` texels, the first `n` of which have their final value -/
structure Filled (target : Nat → UInt32) (N n : Nat) (dst : List UInt32) : Prop where
  length : dst.length = N
  done : ∀ j, j < n → dst[j]? = some (target j)

theorem Filled.eq {N : Nat} (h : Filled target N N dst) : dst = (List.range N).map target := by
  apply List.ext_getElem?
  intro j
  by_cases hj : j < N
  · rw [h.done j hj, List.getElem?_map, List.getElem?_range hj, Option.map_some]
  · rw [List.getElem?_eq_none (by rw [h.length]; omega), List.getElem?_eq_none (by
      rw [List.length_map, List.length_range]; omega)]

theorem wp_load {src : Texels} {i : Nat} {v : UInt32} {Q : UInt32 → List UInt32 → Prop}
    (h : src i = some v) : wp (load src i) Q E dst ↔ Q v dst := by
  rw [load, h, wp_pure]

/-- The texel behind the finished ones is written. -/
theorem wp_store {N : Nat} (h : Filled target N n dst) (hn : n < N) :
    wp (store n (target n)) (fun _ => Filled target N (n + 1)) E dst := by
  have hlt : n < dst.length := by rwa [h.length]
  simp only [store, wp_bind, wp_get, wp_require, wp_set]
  refine ⟨fun _ => ⟨?_, fun j hj => ?_⟩, fun hnot => absurd hlt hnot⟩
  · rw [List.length_set, h.length]
  · rcases Nat.lt_succ_iff_lt_or_eq.1 hj with hj | rfl
    · rw [List.getElem?_set_ne (by omega), h.done j hj]
    · rw [List.getElem?_set_self hlt]

theorem wp_convert {e : Endian} {F : TexelFormat} {src : Texels} {N s d : Nat}
    (texel : Nat → UInt32) (hN : d + k ≤ N) (hsrc : ∀ i, i < k → src (s + i) = some (texel i))
    (htarget : ∀ i, i < k → target (d + i) = repack e F (texel i)) (h : Filled target N d dst) :
    wp (convert e F src s d k) (fun _ => Filled target N (d + k)) E dst := by
  have hloop : wp (convert e F src s d k) (fun _ => Filled target N (d + (0 + k))) E dst := by
    refine wp_forRange (fun i => Filled target N (d + i)) k 0 dst h fun i t _ hi ht => ?_
    rw [wp_bind, wp_load (hsrc i (by omega)), ← htarget i (by omega)]
    exact wp_store ht (by omega)
  rwa [Nat.zero_add] at hloop

/-- What is copied lies before what it is copied to, so it is already there. -/
theorem wp_copy {N s d : Nat} (hs : s < d) (hN : d + k ≤ N)
    (htarget : ∀ i, i < k → target (d + i) = target (s + i)) (h : Filled target N d dst) :
    wp (copy s d k) (fun _ => Filled target N (d + k)) E dst := by
  have hloop : wp (copy s d k) (fun _ => Filled target N (d + (0 + k))) E dst := by
    refine wp_forRange (fun i => Filled target N (d + i)) k 0 dst h fun i t _ hi ht => ?_
    rw [wp_bind, wp_get, wp_bind, wp_load (ht.done (s + i) (by omega)), ← htarget i (by omega)]
    exact wp_store ht (by omega)
  rwa [Nat.zero_add] at hloop

/-- A row is converted once, then copied below itself. -/
theorem wp_row {e : Endian} {F : TexelFormat} {src : Texels} {N s d w vscale : Nat}
    (texel : Nat → UInt32) (hw : 1 ≤ w) (hv : 1 ≤ vscale) (hN : d + vscale * w ≤ N)
    (hsrc : ∀ x, x < w → src (s + x) = some (texel x))
    (htarget : ∀ i x, i < vscale → x < w → target (d + i * w + x) = repack e F (texel x))
    (h : Filled target N d dst) :
    wp (do
      convert e F src s d w
      forRange (fun i => copy d (d + i * w) w) (vscale - 1) 1)
      (fun _ => Filled target N (d + vscale * w)) E dst := by
  have hfit (i : Nat) (hi : i < vscale) : d + i * w + w ≤ N := by
    have hmul := Nat.mul_le_mul_right w (Nat.succ_le_of_lt hi)
    rw [Nat.succ_mul] at hmul
    omega
  have hfirst (x : Nat) (hx : x < w) : target (d + x) = repack e F (texel x) := by
    have := htarget 0 x hv hx
    rwa [Nat.zero_mul, Nat.add_zero] at this
  rw [wp_bind]
  refine (wp_convert texel ?_ hsrc hfirst h).mono (fun _ t ht => ?_) fun _ _ he => he
  · have := hfit 0 hv
    omega
  have hrepeat : wp (forRange (fun i => copy d (d + i * w) w) (vscale - 1) 1)
      (fun _ => Filled target N (d + (1 + (vscale - 1)) * w)) E t := by
    refine wp_forRange (fun i => Filled target N (d + i * w)) (vscale - 1) 1 t
      (by rwa [Nat.one_mul]) fun i u hi hi' hu => ?_
    rw [Nat.add_mul, Nat.one_mul, ← Nat.add_assoc]
    refine wp_copy ?_ (hfit i (by omega)) (fun x hx => ?_) hu
    · have := Nat.mul_le_mul hi hw
      omega
    · rw [htarget i x (by omega) hx, hfirst x hx]
  rwa [Nat.add_sub_cancel' hv] at hrepeat

end Rows

section Image

variable (e : Endian) (F : TexelFormat) {w h stride vscale : Nat}

/-- What is to stand at index `j`, for the source texel `texel x y` in column `x` of row `y` -/
def target (w vscale : Nat) (texel : Nat → Nat → UInt32) (j : Nat) : UInt32 :=
  repack e F (texel (j % w) (j / w / vscale))

theorem target_row {e : Endian} {F : TexelFormat} (texel : Nat → Nat → UInt32) {x y i : Nat}
    (hx : x < w) (hi : i < vscale) :
    target e F w vscale texel (y * vscale * w + i * w + x) = repack e F (texel x y) := by
  have hcol : (y * vscale * w + i * w + x) % w = x := by
    rw [← Nat.add_mul, Nat.mul_add_mod_self_right, Nat.mod_eq_of_lt hx]
  have hrow : (y * vscale * w + i * w + x) / w = y * vscale + i := by
    rw [← Nat.add_mul, Nat.mul_comm, Nat.mul_add_div (by omega), Nat.div_eq_of_lt hx, Nat.add_zero]
  have hline : (y * vscale + i) / vscale = y := by
    rw [Nat.mul_comm, Nat.mul_add_div (by omega), Nat.div_eq_of_lt hi, Nat.add_zero]
  rw [target, hcol, hrow, hline]

theorem wp_copyRows {E : Failure → List UInt32 → Prop} {src : Texels} {dst : List UInt32}
    {texel : Nat → Nat → UInt32} (hv : 1 ≤ vscale) (hw : 1 ≤ w)
    (hsrc : ∀ x y, x < w → y < h → src (y * stride + x) = some (texel x y))
    (hdst : dst.length = w * (h * vscale)) :
    wp (copyRows e F src w h stride vscale)
      (fun _ t => t = (List.range (w * (h * vscale))).map (target e F w vscale texel)) E dst := by
  have hrows : wp (copyRows e F src w h stride vscale)
      (fun _ => Filled (target e F w vscale texel) (w * (h * vscale)) ((0 + h) * vscale * w))
      E dst := by
    refine wp_forRange (fun y => Filled _ _ (y * vscale * w)) h 0 dst
      ⟨hdst, fun j hj => by rw [Nat.zero_mul, Nat.zero_mul] at hj; omega⟩ fun y t _ hy ht => ?_
    have hfit : y * vscale * w + vscale * w ≤ w * (h * vscale) := by
      have hmul := Nat.mul_le_mul_right (vscale * w) (by omega : y + 1 ≤ h)
      rwa [Nat.succ_mul, ← Nat.mul_assoc, ← Nat.mul_assoc, Nat.mul_comm (h * vscale)] at hmul
    have hrow := wp_row (fun x => texel x y) hw hv hfit (fun x hx => hsrc x y hx (by omega))
      (fun i x hi hx => target_row texel hx hi) ht (E := E)
    rwa [← Nat.add_mul, ← Nat.succ_mul] at hrow
  refine hrows.mono (fun _ t ht => ?_) fun _ _ he => he
  rw [Nat.zero_add, Nat.mul_comm (h * vscale)] at ht
  exact ht.eq

theorem copyRows_eq {src : Texels} {dst : List UInt32}
    {texel : Nat → Nat → UInt32} (hv : 1 ≤ vscale) (hw : 1 ≤ w)
    (hsrc : ∀ x y, x < w → y < h → src (y * stride + x) = some (texel x y))
    (hdst : dst.length = w * (h * vscale)) :
    copyRows e F src w h stride vscale dst =
      .ok () ((List.range (w * (h * vscale))).map (target e F w vscale texel)) := by
  obtain ⟨_, t, hrun, rfl⟩ := (wp_copyRows (E := fun _ _ => False) e F hv hw hsrc hdst).exists_ok
    fun _ _ h => h
  exact hrun

theorem loadAll_eq {src : Texels} {n : Nat} {f : Nat → UInt32}
    (h : ∀ i, i < n → src i = some (f i)) : loadAll src n = .ok ((List.range n).map f) := by
  refine MapM.mapM_eq_pure_map fun i hi => ?_
  rw [h i (List.mem_range.1 hi)]
  rfl

/-- Rows that are passed as they are give what copying them would give. -/
theorem loadAll_direct {src : Texels} {texel : Nat → Nat → UInt32} (hw : 1 ≤ w)
    (hdirect : Direct e F w stride vscale)
    (hsrc : ∀ x y, x < w → y < h → src (y * stride + x) = some (texel x y)) :
    loadAll src (w * (h * vscale)) =
      .ok ((List.range (w * (h * vscale))).map (target e F w vscale texel)) := by
  obtain ⟨rfl, rfl, rfl⟩ := hdirect
  refine loadAll_eq fun j hj => ?_
  rw [target, repack_native, Nat.div_one]
  have hrow : j / stride < h := by
    rw [Nat.div_lt_iff_lt_mul hw, Nat.mul_comm]
    rwa [Nat.mul_one] at hj
  have hread := hsrc (j % stride) (j / stride) (Nat.mod_lt _ hw) hrow
  rwa [Nat.mul_comm, Nat.div_add_mod] at hread

theorem contiguous_eq (room : Nat → Bool) {src : Texels} {texel : Nat → Nat → UInt32}
    (hw : 1 ≤ w) (hv : 1 ≤ vscale)
    (hsrc : ∀ x y, x < w → y < h → src (y * stride + x) = some (texel x y)) :
    contiguous e room src w h stride vscale F =
      if Direct e F w stride vscale ∨ room (w * (h * vscale)) then
        .ok ((List.range (w * (h * vscale))).map (target e F w vscale texel))
      else .error .badAlloc := by
  rw [contiguous]
  by_cases hdirect : Direct e F w stride vscale
  · rw [if_pos hdirect, if_pos (Or.inl hdirect), loadAll_direct e F hw hdirect hsrc]
  · rw [if_neg hdirect]
    by_cases hroom : room (w * (h * vscale))
    · rw [if_pos hroom, if_pos (Or.inr hroom),
        copyRows_eq e F hv hw hsrc (List.length_replicate ..)]
    · rw [if_neg hroom, if_neg (by simp [hdirect, hroom])]

/-- `image` is the cutout of `pixels` with each row repeated, in the native format: in memory there
are R, G, B and A of each texel. -/
structure Shows (pixels : List UInt32) (w h stride vscale : Nat) (image : List UInt32) :
    Prop where
  length : image.length = w * (h * vscale)
  texels : ∀ x y, x < w → y < h * vscale → ∃ s t,
    pixels[y / vscale * stride + x]? = some s ∧ image[y * w + x]? = some t ∧
      SameChannels (⟨t⟩ : GpuColor (nativeFormat e)) (⟨s⟩ : GpuColor F) ∧
      e.bytes t =
        [(⟨s⟩ : GpuColor F).r, (⟨s⟩ : GpuColor F).g, (⟨s⟩ : GpuColor F).b, (⟨s⟩ : GpuColor F).a]

/-- The offset of a texel inside the rows -/
theorem offset_lt {x y : Nat} (hx : x < w) (hy : y < h) :
    y * stride + x < (h - 1) * stride + w := by
  have hmul := Nat.mul_le_mul_right stride (Nat.le_sub_one_of_lt hy)
  omega

theorem shows_target {pixels : List UInt32} {texel : Nat → Nat → UInt32}
    (hpixels : ∀ x y, x < w → y < h → pixels[y * stride + x]? = some (texel x y)) :
    Shows e F pixels w h stride vscale
      ((List.range (w * (h * vscale))).map (target e F w vscale texel)) where
  length := by rw [List.length_map, List.length_range]
  texels x y hx hy := by
    have hv : 0 < vscale := Nat.pos_of_mul_pos_left (Nat.zero_lt_of_lt hy)
    have hrow : y / vscale < h := by rwa [Nat.div_lt_iff_lt_mul hv]
    have hlt : y * w + x < w * (h * vscale) := by
      have hmul := Nat.mul_le_mul_right w (Nat.succ_le_of_lt hy)
      rw [Nat.succ_mul, Nat.mul_comm (h * vscale)] at hmul
      omega
    have hcol : (y * w + x) % w = x := by
      rw [Nat.mul_add_mod_self_right, Nat.mod_eq_of_lt hx]
    have hline : (y * w + x) / w = y := by
      rw [Nat.mul_comm, Nat.mul_add_div (by omega), Nat.div_eq_of_lt hx, Nat.add_zero]
    refine ⟨texel x (y / vscale), repack e F (texel x (y / vscale)), hpixels x _ hx hrow, ?_,
      sameChannels_repack e F _, bytes_repack e F _⟩
    rw [List.getElem?_map, List.getElem?_range hlt, Option.map_some, target, hcol, hline]

end Image

/-- The arguments are accepted, and they are passed on as they are. -/
theorem encodePNG_eq (e : Endian) (room : Nat → Bool) (encoder : Encoder) (F : TexelFormat)
    (src : Texels) {w h stride vscale : Nat} (hw : 1 ≤ w) (hh : 1 ≤ h) (hs : w ≤ stride)
    (hv : 1 ≤ vscale) (hw' : w < 2 ^ 31) (hh' : h * vscale < 2 ^ 31) :
    encodePNG e room encoder (some src) w h stride vscale F =
      contiguous e room src w h stride vscale F >>= fun image =>
        encoded (encoder image w (h * vscale : Nat)) := by
  have hguard : ¬((w : Int) ≤ 0 ∨ (h : Int) ≤ 0 ∨ (stride : Int) < w ∨ (vscale : Int) < 1) := by
    omega
  have hwrap (n : Nat) (hn : n < 2 ^ 31) : (Integral.i32.wrap n).toInt = n := by
    refine Integral.toInt_wrap ?_ ?_
    · change (-2 ^ 31 : Int) ≤ n
      omega
    · change (n : Int) ≤ -2 ^ 31 + 2 ^ 32 - 1
      omega
  rw [encodePNG]
  simp only [if_neg hguard, Int.toNat_natCast]
  rw [hwrap w hw', ← Int.natCast_mul, hwrap _ hh']

/-- What memory holds outside the rows, and what the fresh array holds before it is filled, has no
influence: no other texel is read, and every texel of the array is written. -/
theorem encodePNG_shows (e : Endian) (room : Nat → Bool) (encoder : Encoder) (F : TexelFormat)
    (pixels : List UInt32) {w h stride vscale : Nat} (hw : 1 ≤ w) (hh : 1 ≤ h) (hs : w ≤ stride)
    (hv : 1 ≤ vscale) (hw' : w < 2 ^ 31) (hh' : h * vscale < 2 ^ 31)
    (hsize : (h - 1) * stride + w ≤ pixels.length) :
    ∃ image, Shows e F pixels w h stride vscale image ∧
      ∀ src : Texels,
        (∀ x y, x < w → y < h → src (y * stride + x) = pixels[y * stride + x]?) →
        (∀ tmp, tmp.length = w * (h * vscale) →
          copyRows e F src w h stride vscale tmp = .ok () image) ∧
        encodePNG e room encoder (some src) w h stride vscale F =
          if Direct e F w stride vscale ∨ room (w * (h * vscale)) then
            encoded (encoder image w (h * vscale : Nat))
          else .error .badAlloc := by
  let texel (x y : Nat) : UInt32 := pixels.getD (y * stride + x) 0
  have hpixels (x y : Nat) (hx : x < w) (hy : y < h) :
      pixels[y * stride + x]? = some (texel x y) := by
    have hlt : y * stride + x < pixels.length := (offset_lt hx hy).trans_le hsize
    rw [List.getElem?_eq_getElem hlt, ← List.getD_eq_getElem pixels 0 hlt]
  refine ⟨_, shows_target e F hpixels, fun src hagree => ?_⟩
  have hsrc (x y : Nat) (hx : x < w) (hy : y < h) : src (y * stride + x) = some (texel x y) :=
    (hagree x y hx hy).trans (hpixels x y hx hy)
  refine ⟨fun tmp htmp => copyRows_eq e F hv hw hsrc htmp, ?_⟩
  rw [encodePNG_eq e room encoder F src hw hh hs hv hw' hh', contiguous_eq e F room hw hv hsrc]
  split <;> rfl

/-- A cutout of two columns and two rows, each row written twice -/
theorem encodePNG_shows_cutout :
    ∃ image, Shows .little .ARGB [0x01020304, 0x05060708, 0, 0x090a0b0c, 0x0d0e0f10] 2 2 3 2 image ∧
      ∀ src : Texels,
        (∀ x y, x < 2 → y < 2 → src (y * 3 + x) =
          [0x01020304, 0x05060708, 0, 0x090a0b0c, 0x0d0e0f10][y * 3 + x]?) →
        (∀ tmp, tmp.length = 2 * (2 * 2) →
          copyRows .little .ARGB src 2 2 3 2 tmp = .ok () image) ∧
        encodePNG .little (fun _ => true)
            (fun image _ _ => some (image.flatMap Endian.little.bytes)) (some src)
            (2 : Nat) (2 : Nat) (3 : Nat) (2 : Nat) .ARGB =
          if Direct .little .ARGB 2 3 2 ∨ (fun _ => true) (2 * (2 * 2)) then
            encoded (some (image.flatMap Endian.little.bytes))
          else .error .badAlloc :=
  encodePNG_shows .little (fun _ => true)
    (fun image _ _ => some (image.flatMap Endian.little.bytes)) .ARGB
    [0x01020304, 0x05060708, 0, 0x090a0b0c, 0x0d0e0f10] (by decide) (by decide) (by decide)
    (by decide) (by decide) (by decide) (by decide)

end Utlib.Images
