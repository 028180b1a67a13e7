import Utlib.SoftFloat.Wide
import Utlib.Float80.Scale

/-! Products, sums, differences and quotients of extended numbers. -/

namespace Utlib.SoftFloat

def flagInfinite : UInt8 := 8

section NaN

def isNaNExtF80UI (a : ExtFloat80) : Bool :=
  a.signExp &&& 0x7FFF = 0x7FFF && a.signif &&& 0x7FFFFFFFFFFFFFFF ≠ 0

def isSigNaNExtF80UI (a : ExtFloat80) : Bool :=
  a.signExp &&& 0x7FFF = 0x7FFF && a.signif &&& 0x4000000000000000 = 0 &&
    a.signif &&& 0x3FFFFFFFFFFFFFFF ≠ 0

def defaultNaN : ExtFloat80 := ⟨0xFFFF, 0xC000000000000000⟩

def nonsignaling (a : ExtFloat80) : ExtFloat80 := ⟨a.signExp, a.signif ||| 0xC000000000000000⟩

def largerMag (a b : ExtFloat80) : ExtFloat80 :=
  if a.signExp &&& 0x7FFF < b.signExp &&& 0x7FFF then nonsignaling b
  else if b.signExp &&& 0x7FFF < a.signExp &&& 0x7FFF then nonsignaling a
  else if a.signif < b.signif then nonsignaling b
  else if b.signif < a.signif then nonsignaling a
  else if a.signExp < b.signExp then nonsignaling a
  else nonsignaling b

def propagateNaNExtF80UI (a b : ExtFloat80) (s : State) : ExtFloat80 × State :=
  if isSigNaNExtF80UI a || isSigNaNExtF80UI b then
    (if isSigNaNExtF80UI a then
        if isSigNaNExtF80UI b then largerMag a b
        else if isNaNExtF80UI b then nonsignaling b else nonsignaling a
      else if isNaNExtF80UI a then nonsignaling a else nonsignaling b,
      raiseFlags flagInvalid s)
  else
    (largerMag a b, s)

def invalid (s : State) : ExtFloat80 × State := (defaultNaN, raiseFlags flagInvalid s)

end NaN

def packInfinity (sign : Bool) : ExtFloat80 := ⟨packToExtF80UI64 sign 0x7FFF, 0x8000000000000000⟩

def packZero (sign : Bool) : ExtFloat80 := ⟨packToExtF80UI64 sign 0, 0⟩

section Normalize

structure ExpSig where
  exp : ℤ
  sig : UInt64

/-- It is the built-in function, or the width for zero, as `std::countl_zero` has it. -/
def countLeadingZeros64 (a : UInt64) : ℕ := Float80.countlZero a

def normSubnormalExtF80Sig (sig : UInt64) : Option ExpSig := do
  let shifted ← Float80.shiftLeft sig (countLeadingZeros64 sig)
  some ⟨-countLeadingZeros64 sig, shifted⟩

/-- The preparation that products, quotients and remainders share. -/
def normalizeOperand (exp : ℤ) (sig : UInt64) : Option ExpSig :=
  let exp := if exp = 0 then 1 else exp
  if sig &&& 0x8000000000000000 ≠ 0 then
    some ⟨exp, sig⟩
  else do
    let z ← normSubnormalExtF80Sig sig
    some ⟨exp + z.exp, z.sig⟩

/-- A shift by the width is undefined. -/
def normRoundPackToExtF80 (sign : Bool) (exp : ℤ) (sig sigExtra : UInt64)
    (roundingPrecision : UInt8) (s : State) : Option (ExtFloat80 × State) :=
  let z : ℤ × Uint128 := if sig = 0 then (exp - 64, ⟨sigExtra, 0⟩) else (exp, ⟨sig, sigExtra⟩)
  let shiftDist := countLeadingZeros64 z.2.v64
  if shiftDist = 0 then
    some (roundPackToExtF80 sign z.1 z.2.v64 z.2.v0 roundingPrecision s)
  else if shiftDist < 64 then
    let sig128 := shortShiftLeft128 z.2.v64 z.2.v0 shiftDist
    some (roundPackToExtF80 sign (z.1 - shiftDist) sig128.v64 sig128.v0 roundingPrecision s)
  else
    none

end Normalize

section Mul

def mulSigs (signZ : Bool) (a b : ExpSig) (s : State) : ExtFloat80 × State :=
  let expZ := a.exp + b.exp - 0x3FFE
  let z := mul64To128 a.sig b.sig
  if z.v64 < 0x8000000000000000 then
    let z := add128 z.v64 z.v0 z.v64 z.v0
    roundPackToExtF80 signZ (expZ - 1) z.v64 z.v0 s.roundingPrecision s
  else
    roundPackToExtF80 signZ expZ z.v64 z.v0 s.roundingPrecision s

def mulInfinity (signZ isZero : Bool) (s : State) : ExtFloat80 × State :=
  if isZero then invalid s else (packInfinity signZ, s)

def extF80Mul (a b : ExtFloat80) (s : State) : Option (ExtFloat80 × State) :=
  let expA := expExtF80UI64 a.signExp
  let expB := expExtF80UI64 b.signExp
  let signZ := signExtF80UI64 a.signExp ^^ signExtF80UI64 b.signExp
  if expA = 0x7FFF then
    if a.signif &&& 0x7FFFFFFFFFFFFFFF ≠ 0 ∨
        expB = 0x7FFF ∧ b.signif &&& 0x7FFFFFFFFFFFFFFF ≠ 0 then
      some (propagateNaNExtF80UI a b s)
    else
      some (mulInfinity signZ (expB = 0 ∧ b.signif = 0) s)
  else if expB = 0x7FFF then
    if b.signif &&& 0x7FFFFFFFFFFFFFFF ≠ 0 then
      some (propagateNaNExtF80UI a b s)
    else
      some (mulInfinity signZ (expA = 0 ∧ a.signif = 0) s)
  else if a.signif = 0 ∨ b.signif = 0 then
    some (packZero signZ, s)
  else do
    let a ← normalizeOperand expA a.signif
    let b ← normalizeOperand expB b.signif
    some (mulSigs signZ a b s)

end Mul

section Add

/-- What reaches the label `roundAndPack`. -/
structure Sum where
  exp : ℤ
  sig : UInt64
  extra : UInt64

def Sum.pack (z : Sum) (signZ : Bool) (s : State) : ExtFloat80 × State :=
  roundPackToExtF80 signZ z.exp z.sig z.extra s.roundingPrecision s

def shortShiftRightJam64Extra (a extra : UInt64) (dist : ℕ) : Extra :=
  ⟨a >>> UInt64.ofNat dist, a <<< UInt64.ofNat (64 - dist) ||| if extra ≠ 0 then 1 else 0⟩

def shiftRight1 (expZ : ℤ) (sigZ sigZExtra : UInt64) : Sum :=
  let z := shortShiftRightJam64Extra sigZ sigZExtra 1
  ⟨expZ + 1, z.v ||| 0x8000000000000000, z.extra⟩

def newlyAligned (expZ : ℤ) (sigZ sigZExtra : UInt64) : Sum :=
  if sigZ &&& 0x8000000000000000 ≠ 0 then ⟨expZ, sigZ, sigZExtra⟩
  else shiftRight1 expZ sigZ sigZExtra

/-- Denormals have the exponent of the smallest normal numbers. -/
def alignDist (exp : ℤ) (expDiff : ℕ) : ℕ := if exp = 0 then expDiff - 1 else expDiff

def align64 (exp : ℤ) (sig : UInt64) (expDiff : ℕ) : Extra :=
  if alignDist exp expDiff = 0 then ⟨sig, 0⟩
  else shiftRightJam64Extra sig 0 (alignDist exp expDiff)

def addMagsExtF80 (a b : ExtFloat80) (signZ : Bool) (s : State) : Option (ExtFloat80 × State) :=
  let expA := expExtF80UI64 a.signExp
  let expB := expExtF80UI64 b.signExp
  let expDiff := expA - expB
  if expDiff = 0 then
    if expA = 0x7FFF then
      if (a.signif ||| b.signif) &&& 0x7FFFFFFFFFFFFFFF ≠ 0 then
        some (propagateNaNExtF80UI a b s)
      else
        some (a, s)
    else if expA = 0 then do
      let z ← normSubnormalExtF80Sig (a.signif + b.signif)
      some (Sum.pack ⟨z.exp + 1, z.sig, 0⟩ signZ s)
    else
      some ((shiftRight1 expA (a.signif + b.signif) 0).pack signZ s)
  else if expDiff < 0 then
    if expB = 0x7FFF then
      if b.signif &&& 0x7FFFFFFFFFFFFFFF ≠ 0 then
        some (propagateNaNExtF80UI a b s)
      else
        some (⟨packToExtF80UI64 signZ 0x7FFF, b.signif⟩, s)
    else
      let z := align64 expA a.signif (-expDiff).toNat
      some ((newlyAligned expB (z.v + b.signif) z.extra).pack signZ s)
  else
    if expA = 0x7FFF then
      if a.signif &&& 0x7FFFFFFFFFFFFFFF ≠ 0 then
        some (propagateNaNExtF80UI a b s)
      else
        some (a, s)
    else
      let z := align64 expB b.signif expDiff.toNat
      some ((newlyAligned expA (a.signif + z.v) z.extra).pack signZ s)

end Add

section Sub

def align128 (exp : ℤ) (sig : UInt64) (expDiff : ℕ) : Uint128 :=
  if alignDist exp expDiff = 0 then ⟨sig, 0⟩
  else shiftRightJam128 sig 0 (alignDist exp expDiff)

/-- What is behind the labels `aBigger` and `bBigger`. -/
def subAligned (signZ : Bool) (expZ : ℤ) (sig : UInt64) (z : Uint128) (s : State) :
    Option (ExtFloat80 × State) :=
  let sig128 := sub128 sig 0 z.v64 z.v0
  normRoundPackToExtF80 signZ expZ sig128.v64 sig128.v0 s.roundingPrecision s

def subMagsExtF80 (a b : ExtFloat80) (signZ : Bool) (s : State) : Option (ExtFloat80 × State) :=
  let expA := expExtF80UI64 a.signExp
  let expB := expExtF80UI64 b.signExp
  let expDiff := expA - expB
  if 0 < expDiff then
    if expA = 0x7FFF then
      if a.signif &&& 0x7FFFFFFFFFFFFFFF ≠ 0 then
        some (propagateNaNExtF80UI a b s)
      else
        some (a, s)
    else
      subAligned signZ expA a.signif (align128 expB b.signif expDiff.toNat) s
  else if expDiff < 0 then
    if expB = 0x7FFF then
      if b.signif &&& 0x7FFFFFFFFFFFFFFF ≠ 0 then
        some (propagateNaNExtF80UI a b s)
      else
        some (packInfinity !signZ, s)
    else
      subAligned (!signZ) expB b.signif (align128 expA a.signif (-expDiff).toNat) s
  else if expA = 0x7FFF then
    if (a.signif ||| b.signif) &&& 0x7FFFFFFFFFFFFFFF ≠ 0 then
      some (propagateNaNExtF80UI a b s)
    else
      some (invalid s)
  else
    let expZ := if expA = 0 then 1 else expA
    if b.signif < a.signif then
      subAligned signZ expZ a.signif ⟨b.signif, 0⟩ s
    else if a.signif < b.signif then
      subAligned (!signZ) expZ b.signif ⟨a.signif, 0⟩ s
    else
      some (packZero (s.roundingMode = .min), s)

def extF80Add (a b : ExtFloat80) (s : State) : Option (ExtFloat80 × State) :=
  let signA := signExtF80UI64 a.signExp
  let signB := signExtF80UI64 b.signExp
  if signA = signB then addMagsExtF80 a b signA s else subMagsExtF80 a b signA s

def extF80Sub (a b : ExtFloat80) (s : State) : Option (ExtFloat80 × State) :=
  let signA := signExtF80UI64 a.signExp
  let signB := signExtF80UI64 b.signExp
  if signA = signB then subMagsExtF80 a b signA s else addMagsExtF80 a b signA s

end Sub

section Div

def approxRecip32 (a : UInt32) : UInt32 := (0x7FFFFFFFFFFFFFFF / a.toUInt64).toUInt32

def estimate64 (rem : Uint128) (recip32 : UInt32) : UInt64 :=
  (rem.v64 >>> 2).toUInt32.toUInt64 * recip32.toUInt64

/-- The next 29 bits of a quotient, one more or less. -/
def estimate (rem : Uint128) (recip32 : UInt32) : UInt32 :=
  ((estimate64 rem recip32 + 0x80000000) >>> 32).toUInt32

structure Division where
  sigZ : UInt64
  rem : Uint128

/-- Multiplied by `2 ^ dist`, less `q` times the divisor. -/
def reduce (sigB : UInt64) (rem : Uint128) (dist : ℕ) (q : UInt32) : Uint128 :=
  let rem := shortShiftLeft128 rem.v64 rem.v0 dist
  let term := mul64ByShifted32To128 sigB q
  sub128 rem.v64 rem.v0 term.v64 term.v0

def divRound (sigB : UInt64) (recip32 : UInt32) (z : Division) : Division :=
  let q := estimate z.rem recip32
  let rem := reduce sigB z.rem 29 q
  if rem.v64 &&& 0x8000000000000000 ≠ 0 then
    ⟨z.sigZ <<< 29 + (q - 1).toUInt64, add128 rem.v64 rem.v0 (sigB >>> 32) (sigB <<< 32)⟩
  else
    ⟨z.sigZ <<< 29 + q.toUInt64, rem⟩

/-- The exact digit, with its remainder. -/
def correct (sigB : UInt64) (rem : Uint128) (q : UInt32) : UInt32 × Uint128 :=
  let rem := reduce sigB rem 29 q
  let term := shortShiftLeft128 0 sigB 32
  if rem.v64 &&& 0x8000000000000000 ≠ 0 then
    (q - 1, add128 rem.v64 rem.v0 term.v64 term.v0)
  else if le128 term.v64 term.v0 rem.v64 rem.v0 then
    (q + 1, sub128 rem.v64 rem.v0 term.v64 term.v0)
  else
    (q, rem)

/-- The last bits are made exact only where an error could be seen. -/
def sharpen (sigB : UInt64) (rem : Uint128) (q : UInt32) : UInt32 :=
  if (q + 1) &&& 0x3FFFFF < 2 then
    let z := correct sigB rem q
    if z.2.v64 ||| z.2.v0 ≠ 0 then z.1 ||| 1 else z.1
  else
    q

def divSigs (signZ : Bool) (a b : ExpSig) (s : State) : ExtFloat80 × State :=
  let expZ := a.exp - b.exp + 0x3FFF
  let expZ := if a.sig < b.sig then expZ - 1 else expZ
  let rem := shortShiftLeft128 0 a.sig (if a.sig < b.sig then 32 else 31)
  let recip32 := approxRecip32 (b.sig >>> 32).toUInt32
  let z := (divRound b.sig recip32)^[2] ⟨0, rem⟩
  let q := sharpen b.sig z.rem (estimate z.rem recip32)
  roundPackToExtF80 signZ expZ (z.sigZ <<< 6 + (q >>> 23).toUInt64) (q.toUInt64 <<< 41)
    s.roundingPrecision s

def extF80Div (a b : ExtFloat80) (s : State) : Option (ExtFloat80 × State) :=
  let expA := expExtF80UI64 a.signExp
  let expB := expExtF80UI64 b.signExp
  let signZ := signExtF80UI64 a.signExp ^^ signExtF80UI64 b.signExp
  if expA = 0x7FFF then
    if a.signif &&& 0x7FFFFFFFFFFFFFFF ≠ 0 then
      some (propagateNaNExtF80UI a b s)
    else if expB = 0x7FFF then
      if b.signif &&& 0x7FFFFFFFFFFFFFFF ≠ 0 then
        some (propagateNaNExtF80UI a b s)
      else
        some (invalid s)
    else
      some (packInfinity signZ, s)
  else if expB = 0x7FFF then
    if b.signif &&& 0x7FFFFFFFFFFFFFFF ≠ 0 then
      some (propagateNaNExtF80UI a b s)
    else
      some (packZero signZ, s)
  else if b.signif = 0 then
    if a.signif = 0 then some (invalid s)
    else some (packInfinity signZ, raiseFlags flagInfinite s)
  else do
    let b ← normalizeOperand expB b.signif
    if a.signif = 0 then
      some (packZero signZ, s)
    else do
      let a ← normalizeOperand expA a.signif
      some (divSigs signZ a b s)

end Div

section Rem

def isNegative (rem : Uint128) : Bool := rem.v64 &&& 0x8000000000000000 ≠ 0

/-- The dividend itself, in its canonical encoding. -/
def copyA (signA : Bool) (a : ExpSig) : ExtFloat80 :=
  if a.exp < 1 then ⟨packToExtF80UI64 signA 0, a.sig >>> UInt64.ofNat (1 - a.exp).toNat⟩
  else ⟨packToExtF80UI64 signA a.exp, a.sig⟩

def remRound (sigB : UInt64) (recip32 : UInt32) (rem : Uint128) : Uint128 :=
  let shiftedSigB := shortShiftLeft128 0 sigB 32
  let rem := reduce sigB rem 29 (estimate rem recip32)
  if isNegative rem then add128 rem.v64 rem.v0 shiftedSigB.v64 shiftedSigB.v0 else rem

def remLoop (sigB : UInt64) (recip32 : UInt32) (expDiff : ℤ) (rem : Uint128) : ℤ × Uint128 :=
  if expDiff < 0 then (expDiff, rem)
  else remLoop sigB recip32 (expDiff - 29) (remRound sigB recip32 rem)
termination_by (expDiff + 29).toNat

/-- What reaches the label `selectRem`. -/
structure Selection where
  q : UInt32
  rem : Uint128
  altRem : Uint128

/-- The divisor is subtracted until the remainder is negative. -/
def subtractLoop (shiftedSigB : Uint128) : ℕ → UInt32 → Uint128 → Option Selection
  | 0, _, _ => none
  | fuel + 1, q, altRem =>
    let q := q + 1
    let rem := sub128 altRem.v64 altRem.v0 shiftedSigB.v64 shiftedSigB.v0
    if isNegative rem then some ⟨q, rem, altRem⟩ else subtractLoop shiftedSigB fuel q rem

def Selection.select (z : Selection) : Uint128 :=
  let meanRem := add128 z.rem.v64 z.rem.v0 z.altRem.v64 z.altRem.v0
  if isNegative meanRem ∨ meanRem.v64 ||| meanRem.v0 = 0 ∧ z.q &&& 1 ≠ 0 then z.altRem else z.rem

/-- The bits of the quotient that the loop leaves. -/
def remLast (fuel : ℕ) (sigB : UInt64) (recip32 : UInt32) (z : ℤ × Uint128) : Option Selection :=
  let shiftedSigB := shortShiftLeft128 0 sigB 32
  let q := (estimate64 z.2 recip32 >>> 32).toUInt32 >>> UInt32.ofNat ((-z.1 - 1) % 32).toNat
  let rem := reduce sigB z.2 (z.1 + 30).toNat q
  if isNegative rem then
    some ⟨q, rem, add128 rem.v64 rem.v0 shiftedSigB.v64 shiftedSigB.v0⟩
  else
    subtractLoop shiftedSigB fuel q rem

/-- The exponent of the divisor, and the selection. -/
def remSigs (fuel : ℕ) (a b : ExpSig) : Option (ℤ × Selection) :=
  let expDiff := a.exp - b.exp
  let rem := shortShiftLeft128 0 a.sig 32
  let shiftedSigB := shortShiftLeft128 0 b.sig 32
  if expDiff < 1 then
    if expDiff ≠ 0 then
      (subtractLoop (shortShiftLeft128 0 b.sig 33) fuel 0 rem).map (b.exp - 1, ·)
    else if b.sig ≤ a.sig then
      (subtractLoop shiftedSigB fuel 1
        (sub128 rem.v64 rem.v0 shiftedSigB.v64 shiftedSigB.v0)).map (b.exp, ·)
    else
      (subtractLoop shiftedSigB fuel 0 rem).map (b.exp, ·)
  else
    let recip32 := approxRecip32 (b.sig >>> 32).toUInt32
    (remLast fuel b.sig recip32 (remLoop b.sig recip32 (expDiff - 30) rem)).map (b.exp, ·)

def packRem (signA : Bool) (expB : ℤ) (rem : Uint128) (s : State) :
    Option (ExtFloat80 × State) :=
  let z := if isNegative rem then (!signA, sub128 0 0 rem.v64 rem.v0) else (signA, rem)
  normRoundPackToExtF80 z.1 (if z.2.v64 ||| z.2.v0 ≠ 0 then expB + 32 else 0) z.2.v64 z.2.v0 80 s

/-- Why nothing comes out of a remainder: the loop has not ended yet, or a shift is undefined. -/
inductive Fault
  | fuel
  | shift

def Fault.unless {α : Type} (e : Fault) : Option α → Except Fault α
  | some z => .ok z
  | none => .error e

@[simp]
theorem Fault.unless_bind {α β : Type} (e : Fault) (z : α) (f : α → Except Fault β) :
    (e.unless (some z) >>= f) = f z := rfl

@[simp]
theorem Fault.toOption_unless {α : Type} (e : Fault) (o : Option α) :
    (e.unless o).toOption = o := by
  cases o <;> rfl

/-- The fuel bounds how often the divisor is subtracted at the end. -/
def extF80Rem (fuel : ℕ) (a b : ExtFloat80) (s : State) : Except Fault (ExtFloat80 × State) :=
  let expA := expExtF80UI64 a.signExp
  let expB := expExtF80UI64 b.signExp
  let signA := signExtF80UI64 a.signExp
  if expA = 0x7FFF then
    if a.signif &&& 0x7FFFFFFFFFFFFFFF ≠ 0 ∨
        expB = 0x7FFF ∧ b.signif &&& 0x7FFFFFFFFFFFFFFF ≠ 0 then
      .ok (propagateNaNExtF80UI a b s)
    else
      .ok (invalid s)
  else if expB = 0x7FFF ∧ b.signif &&& 0x7FFFFFFFFFFFFFFF ≠ 0 then
    .ok (propagateNaNExtF80UI a b s)
  else if b.signif = 0 then
    .ok (invalid s)
  else do
    -- an infinite divisor is so large that nothing is subtracted
    let b ← Fault.shift.unless
      (normalizeOperand (if expB = 0x7FFF then expB + expB else expB) b.signif)
    if a.signif = 0 then
      .ok (copyA signA ⟨0, 0⟩, s)
    else do
      let a ← Fault.shift.unless (normalizeOperand expA a.signif)
      if a.exp - b.exp < -1 then
        .ok (copyA signA a, s)
      else do
        let z ← Fault.fuel.unless (remSigs fuel a b)
        Fault.shift.unless (packRem signA z.1 z.2.select s)

end Rem

section Compare

variable (a b : ExtFloat80) (s : State)

def extF80Eq : Bool × State :=
  if isNaNExtF80UI a || isNaNExtF80UI b then
    (false, if isSigNaNExtF80UI a || isSigNaNExtF80UI b then raiseFlags flagInvalid s else s)
  else
    (a.signif = b.signif &&
      (a.signExp = b.signExp || a.signif = 0 && (a.signExp ||| b.signExp) &&& 0x7FFF = 0), s)

def bothZero : Bool :=
  ((a.signExp ||| b.signExp) &&& 0x7FFF).toUInt64 ||| a.signif ||| b.signif = 0

def magLess : Bool := lt128 a.signExp.toUInt64 a.signif b.signExp.toUInt64 b.signif

def extF80Le : Bool × State :=
  if isNaNExtF80UI a || isNaNExtF80UI b then
    (false, raiseFlags flagInvalid s)
  else
    let signA := signExtF80UI64 a.signExp
    let signB := signExtF80UI64 b.signExp
    (if signA ≠ signB then signA || bothZero a b
      else (a.signExp = b.signExp && a.signif = b.signif) || (signA ^^ magLess a b), s)

def extF80Lt : Bool × State :=
  if isNaNExtF80UI a || isNaNExtF80UI b then
    (false, raiseFlags flagInvalid s)
  else
    let signA := signExtF80UI64 a.signExp
    let signB := signExtF80UI64 b.signExp
    (if signA ≠ signB then signA && !bothZero a b
      else (a.signExp ≠ b.signExp || a.signif ≠ b.signif) && (signA ^^ magLess a b), s)

end Compare

section Integers

def i64ToExtF80 (a : Int64) : ExtFloat80 :=
  if a ≠ 0 then
    let sign := decide (a < 0)
    let absA := if sign then -a.toUInt64 else a.toUInt64
    let shiftDist := countLeadingZeros64 absA
    ⟨packToExtF80UI64 sign (0x403E - shiftDist), absA <<< UInt64.ofNat shiftDist⟩
  else
    ⟨0, 0⟩

/-- The same for NaN and for both overflows. -/
def i64FromOverflow : Int64 := -0x7FFFFFFFFFFFFFFF - 1

def signToI64 (sign : Bool) (sig sigExtra : UInt64) (roundingMode : RoundMode) (exact : Bool)
    (s : State) : Int64 × State :=
  let z := (if sign then -sig else sig).toInt64
  if z ≠ 0 ∧ decide (z < 0) ≠ sign then
    (i64FromOverflow, raiseFlags flagInvalid s)
  else
    (if sigExtra ≠ 0 ∧ roundingMode = .odd then z ||| 1 else z,
      if sigExtra ≠ 0 ∧ exact then raiseFlags flagInexact s else s)

def roundToI64 (sign : Bool) (sig sigExtra : UInt64) (roundingMode : RoundMode) (exact : Bool)
    (s : State) : Int64 × State :=
  let increment :=
    if roundsToNearest roundingMode then decide (0x8000000000000000 ≤ sigExtra)
    else sigExtra ≠ 0 && (roundsAway roundingMode sign || sign && roundingMode = .odd)
  if increment then
    if sig + 1 = 0 then
      (i64FromOverflow, raiseFlags flagInvalid s)
    else
      let sig := if sigExtra = 0x8000000000000000 ∧ roundingMode = .nearEven then
        (sig + 1) &&& ~~~1 else sig + 1
      signToI64 sign sig sigExtra roundingMode exact s
  else
    signToI64 sign sig sigExtra roundingMode exact s

def extF80ToI64 (a : ExtFloat80) (roundingMode : RoundMode) (exact : Bool) (s : State) :
    Int64 × State :=
  let sign := signExtF80UI64 a.signExp
  let shiftDist := 0x403E - expExtF80UI64 a.signExp
  if shiftDist ≤ 0 then
    if shiftDist ≠ 0 then (i64FromOverflow, raiseFlags flagInvalid s)
    else roundToI64 sign a.signif 0 roundingMode exact s
  else
    let z := shiftRightJam64Extra a.signif 0 shiftDist.toNat
    roundToI64 sign z.v z.extra roundingMode exact s

/-- Whether a number below one is rounded to one. -/
def mag1 (sign : Bool) (exp : ℤ) (sigA : UInt64) : RoundMode → Bool
  | .nearEven => sigA &&& 0x7FFFFFFFFFFFFFFF ≠ 0 && exp = 0x3FFE
  | .nearMaxMag => exp = 0x3FFE
  | .min => sign
  | .max => !sign
  | .odd => true
  | .minMag => false

/-- The bits behind the point are rounded away. -/
def roundBits (sign : Bool) (sigA lastBitMask : UInt64) (roundingMode : RoundMode) : UInt64 :=
  let roundBitsMask := lastBitMask - 1
  let sigZ :=
    if roundingMode = .nearMaxMag then sigA + lastBitMask >>> 1
    else if roundingMode = .nearEven then
      let sigZ := sigA + lastBitMask >>> 1
      if sigZ &&& roundBitsMask = 0 then sigZ &&& ~~~lastBitMask else sigZ
    else if roundingMode = if sign then .min else .max then sigA + roundBitsMask
    else sigA
  sigZ &&& ~~~roundBitsMask

def roundSigToInt (signUI64 : UInt16) (exp : ℤ) (sigA : UInt64) (roundingMode : RoundMode)
    (exact : Bool) (s : State) : ExtFloat80 × State :=
  let sign : Bool := signUI64 ≠ 0
  if exp ≤ 0x3FFE then
    (if mag1 sign exp sigA roundingMode then ⟨signUI64 ||| 0x3FFF, 0x8000000000000000⟩
      else ⟨signUI64, 0⟩, if exact then raiseFlags flagInexact s else s)
  else
    let lastBitMask := (1 : UInt64) <<< UInt64.ofNat (0x403E - exp).toNat
    let uiZ64 := signUI64 ||| UInt16.ofInt exp
    let sigZ := roundBits sign sigA lastBitMask roundingMode
    let z : ExtFloat80 := if sigZ = 0 then ⟨uiZ64 + 1, 0x8000000000000000⟩ else ⟨uiZ64, sigZ⟩
    if z.signif ≠ sigA then
      (⟨z.signExp, if roundingMode = .odd then z.signif ||| lastBitMask else z.signif⟩,
        if exact then raiseFlags flagInexact s else s)
    else
      (z, s)

/-- What happens after the highest bit of the significand has been set. -/
def roundNormalized (uiA64 : UInt16) (exp : ℤ) (sigA : UInt64) (roundingMode : RoundMode)
    (exact : Bool) (s : State) : ExtFloat80 × State :=
  let signUI64 := uiA64 &&& 0x8000
  if 0x403E ≤ exp then
    if exp = 0x7FFF then
      if sigA &&& 0x7FFFFFFFFFFFFFFF ≠ 0 then
        propagateNaNExtF80UI ⟨uiA64, sigA⟩ ⟨0, 0⟩ s
      else
        (⟨signUI64 ||| UInt16.ofInt exp, 0x8000000000000000⟩, s)
    else
      (⟨signUI64 ||| UInt16.ofInt exp, sigA⟩, s)
  else
    roundSigToInt signUI64 exp sigA roundingMode exact s

def extF80RoundToInt (a : ExtFloat80) (roundingMode : RoundMode) (exact : Bool) (s : State) :
    Option (ExtFloat80 × State) :=
  let exp := expExtF80UI64 a.signExp
  if a.signif &&& 0x8000000000000000 = 0 ∧ exp ≠ 0x7FFF then
    if a.signif = 0 then
      some (⟨a.signExp &&& 0x8000, 0⟩, s)
    else do
      let norm ← normSubnormalExtF80Sig a.signif
      some (roundNormalized a.signExp (exp + norm.exp) norm.sig roundingMode exact s)
  else
    some (roundNormalized a.signExp exp a.signif roundingMode exact s)

end Integers

end Utlib.SoftFloat
