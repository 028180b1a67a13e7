import Utlib.Rounding
import Mathlib.Tactic.NormNum

/-! The vendored functions behind `Float80::scale`: packing with rounding, conversion to i32. -/

namespace Utlib.SoftFloat

inductive RoundMode
  | nearEven
  | minMag
  | min
  | max
  | nearMaxMag
  | odd
deriving DecidableEq

inductive Tininess
  | beforeRounding
  | afterRounding
deriving DecidableEq

/-- The variable keeps its initial value: nothing assigns to it. -/
def detectTininess : Tininess := .afterRounding

structure State where
  roundingMode : RoundMode
  exceptionFlags : UInt8
  roundingPrecision : UInt8

def flagInexact : UInt8 := 1
def flagUnderflow : UInt8 := 2
def flagOverflow : UInt8 := 4
def flagInvalid : UInt8 := 16

def raiseFlags (flags : UInt8) (s : State) : State :=
  { s with exceptionFlags := s.exceptionFlags ||| flags }

structure ExtFloat80 where
  signExp : UInt16
  signif : UInt64
deriving DecidableEq

def signExtF80UI64 (a64 : UInt16) : Bool := a64 >>> 15 ≠ 0

def expExtF80UI64 (a64 : UInt16) : ℤ := (a64 &&& 0x7FFF).toNat

def packToExtF80UI64 (sign : Bool) (exp : ℤ) : UInt16 :=
  (if sign then 1 else 0 : UInt16) <<< 15 ||| UInt16.ofInt exp

def shiftRightJam64 (a : UInt64) (dist : ℕ) : UInt64 :=
  if dist < 63 then
    a >>> UInt64.ofNat dist ||| if a <<< UInt64.ofNat (64 - dist) ≠ 0 then 1 else 0
  else
    if a ≠ 0 then 1 else 0

structure Extra where
  v : UInt64
  extra : UInt64

def shiftRightJam64Extra (a extra : UInt64) (dist : ℕ) : Extra :=
  let jammed := if extra ≠ 0 then 1 else 0
  if dist < 64 then
    ⟨a >>> UInt64.ofNat dist, a <<< UInt64.ofNat (64 - dist) ||| jammed⟩
  else
    ⟨0, (if dist = 64 then a else if a ≠ 0 then 1 else 0) ||| jammed⟩

section RoundPack

/-- What is left to pack. -/
structure Parts where
  exp : ℤ
  sig : UInt64
  exceptionFlags : UInt8

variable (roundingMode : RoundMode) (sign : Bool)

def roundsToNearest : Bool := roundingMode = .nearEven || roundingMode = .nearMaxMag

def roundsAway : Bool := roundingMode = if sign then .min else .max

def raiseInexact (inexact isTiny : Bool) (flags : UInt8) : UInt8 :=
  if inexact then (if isTiny then flags ||| flagUnderflow else flags) ||| flagInexact else flags

def overflow (roundMask : UInt64) (flags : UInt8) : Parts :=
  if roundsToNearest roundingMode || roundsAway roundingMode sign then
    ⟨0x7FFF, 0x8000000000000000, flags ||| (flagOverflow ||| flagInexact)⟩
  else
    ⟨0x7FFE, ~~~roundMask, flags ||| (flagOverflow ||| flagInexact)⟩

def selectIncrement (roundIncrement roundMask : UInt64) : UInt64 :=
  if roundsToNearest roundingMode then roundIncrement
  else if roundsAway roundingMode sign then roundMask
  else 0

def clearRoundBits (sig roundBits roundMask : UInt64) : UInt64 :=
  if roundingMode = .nearEven ∧ roundBits <<< 1 = roundMask + 1 then
    sig &&& ~~~(roundMask ||| (roundMask + 1))
  else
    sig &&& ~~~roundMask

def reducedSubnormal (exp : ℤ) (sig roundIncrement roundMask : UInt64) (flags : UInt8) : Parts :=
  let isTiny := detectTininess = .beforeRounding ∨ exp < 0 ∨ sig ≤ sig + roundIncrement
  let sig := shiftRightJam64 sig (1 - exp).toNat
  let roundBits := sig &&& roundMask
  let sig := if roundBits ≠ 0 ∧ roundingMode = .odd then sig ||| (roundMask + 1) else sig
  let sig := sig + roundIncrement
  ⟨if sig &&& 0x8000000000000000 ≠ 0 then 1 else 0,
    clearRoundBits roundingMode sig roundBits roundMask,
    raiseInexact (roundBits ≠ 0) isTiny flags⟩

def reducedNormal (exp : ℤ) (sig roundIncrement roundMask : UInt64) (flags : UInt8) : Parts :=
  let roundBits := sig &&& roundMask
  let flags := raiseInexact (roundBits ≠ 0) false flags
  if roundBits ≠ 0 ∧ roundingMode = .odd then
    ⟨exp, (sig &&& ~~~roundMask) ||| (roundMask + 1), flags⟩
  else if sig + roundIncrement < roundIncrement then
    ⟨exp + 1, clearRoundBits roundingMode 0x8000000000000000 roundBits roundMask, flags⟩
  else
    ⟨exp, clearRoundBits roundingMode (sig + roundIncrement) roundBits roundMask, flags⟩

/-- The test `0x7FFD <= (uint32_t) (exp - 1)`. -/
def nearBounds (exp : ℤ) : Bool := 0x7FFD ≤ (exp - 1) % 2 ^ 32

def roundReduced (exp : ℤ) (sig sigExtra roundIncrement roundMask : UInt64) (flags : UInt8) :
    Parts :=
  let sig := sig ||| if sigExtra ≠ 0 then 1 else 0
  let roundIncrement := selectIncrement roundingMode sign roundIncrement roundMask
  if nearBounds exp ∧ exp ≤ 0 then
    reducedSubnormal roundingMode exp sig roundIncrement roundMask flags
  else if nearBounds exp ∧ (0x7FFE < exp ∨ exp = 0x7FFE ∧ sig + roundIncrement < sig) then
    overflow roundingMode sign roundMask flags
  else
    reducedNormal roundingMode exp sig roundIncrement roundMask flags

def incrementsExtra (sigExtra : UInt64) : Bool :=
  if roundsToNearest roundingMode then 0x8000000000000000 ≤ sigExtra
  else roundsAway roundingMode sign && sigExtra ≠ 0

def clearTie (sig sigExtra : UInt64) : UInt64 :=
  sig &&& ~~~if sigExtra &&& 0x7FFFFFFFFFFFFFFF = 0 ∧ roundingMode = .nearEven then 1 else 0

def extendedSubnormal (exp : ℤ) (sig sigExtra : UInt64) (flags : UInt8) : Parts :=
  let isTiny := detectTininess = .beforeRounding ∨ exp < 0 ∨
    ¬incrementsExtra roundingMode sign sigExtra ∨ sig < 0xFFFFFFFFFFFFFFFF
  let z := shiftRightJam64Extra sig sigExtra (1 - exp).toNat
  let flags := raiseInexact (z.extra ≠ 0) isTiny flags
  if z.extra ≠ 0 ∧ roundingMode = .odd then
    ⟨0, z.v ||| 1, flags⟩
  else if incrementsExtra roundingMode sign z.extra then
    let sig := clearTie roundingMode (z.v + 1) z.extra
    ⟨if sig &&& 0x8000000000000000 ≠ 0 then 1 else 0, sig, flags⟩
  else
    ⟨0, z.v, flags⟩

def extendedNormal (exp : ℤ) (sig sigExtra : UInt64) (flags : UInt8) : Parts :=
  let flags := raiseInexact (sigExtra ≠ 0) false flags
  if sigExtra ≠ 0 ∧ roundingMode = .odd then
    ⟨exp, sig ||| 1, flags⟩
  else if incrementsExtra roundingMode sign sigExtra then
    if sig + 1 = 0 then
      ⟨exp + 1, 0x8000000000000000, flags⟩
    else
      ⟨exp, clearTie roundingMode (sig + 1) sigExtra, flags⟩
  else
    ⟨exp, sig, flags⟩

def roundExtended (exp : ℤ) (sig sigExtra : UInt64) (flags : UInt8) : Parts :=
  if nearBounds exp ∧ exp ≤ 0 then
    extendedSubnormal roundingMode sign exp sig sigExtra flags
  else if nearBounds exp ∧ (0x7FFE < exp ∨ exp = 0x7FFE ∧ sig = 0xFFFFFFFFFFFFFFFF ∧
      incrementsExtra roundingMode sign sigExtra) then
    overflow roundingMode sign 0 flags
  else
    extendedNormal roundingMode sign exp sig sigExtra flags

def roundParts (exp : ℤ) (sig sigExtra : UInt64) (roundingPrecision flags : UInt8) : Parts :=
  if roundingPrecision = 64 then
    roundReduced roundingMode sign exp sig sigExtra 0x400 0x7FF flags
  else if roundingPrecision = 32 then
    roundReduced roundingMode sign exp sig sigExtra 0x8000000000 0xFFFFFFFFFF flags
  else
    roundExtended roundingMode sign exp sig sigExtra flags

end RoundPack

def roundPackToExtF80 (sign : Bool) (exp : ℤ) (sig sigExtra : UInt64) (roundingPrecision : UInt8)
    (s : State) : ExtFloat80 × State :=
  let z := roundParts s.roundingMode sign exp sig sigExtra roundingPrecision s.exceptionFlags
  (⟨packToExtF80UI64 sign z.exp, z.sig⟩, { s with exceptionFlags := z.exceptionFlags })

section ToI32

def i32FromOverflow : Int32 := -0x7FFFFFFF - 1

def roundToI32 (sign : Bool) (sig : UInt64) (roundingMode : RoundMode) (exact : Bool)
    (s : State) : Int32 × State :=
  let roundIncrement :=
    if roundsToNearest roundingMode then 0x800
    else if roundsAway roundingMode sign ∨ sign ∧ roundingMode = .odd then 0xFFF
    else 0
  let roundBits := sig &&& 0xFFF
  let sig := sig + roundIncrement
  if sig &&& 0xFFFFF00000000000 ≠ 0 then
    (i32FromOverflow, raiseFlags flagInvalid s)
  else
    let sig32 := (sig >>> 12).toUInt32
    let sig32 := if roundBits = 0x800 ∧ roundingMode = .nearEven then sig32 &&& ~~~1 else sig32
    let z := (if sign then -sig32 else sig32).toInt32
    if z ≠ 0 ∧ decide (z < 0) ≠ sign then
      (i32FromOverflow, raiseFlags flagInvalid s)
    else
      (if roundBits ≠ 0 ∧ roundingMode = .odd then z ||| 1 else z,
        if roundBits ≠ 0 ∧ exact then raiseFlags flagInexact s else s)

/-- The results for NaN and for the overflows are the same, so that NaN is not treated apart. -/
def extF80ToI32 (a : ExtFloat80) (roundingMode : RoundMode) (exact : Bool) (s : State) :
    Int32 × State :=
  let shiftDist := 0x4032 - expExtF80UI64 a.signExp
  let shiftDist := if shiftDist ≤ 0 then 1 else shiftDist
  roundToI32 (signExtF80UI64 a.signExp) (shiftRightJam64 a.signif shiftDist.toNat) roundingMode
    exact s

end ToI32

end Utlib.SoftFloat
