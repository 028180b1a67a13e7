import Utlib.Bits
import Utlib.Crc

/-! `utl::Hashable` (abilities/Hashable.h, abilities/Hashable.cpp). -/

namespace Utlib.Hashable

open Utlib.Bits Register

inductive HashAlgorithm
  | crc16
  | crc32
  | fnv32
  | fnv64

def fnvInit32 : UInt32 := 0x811c9dc5

def fnvInit64 : UInt64 := 0xcbf29ce484222325

def fnvIt32 (prv val : UInt32) : UInt32 := (prv ^^^ val) * 0x1000193

def fnvIt64 (prv val : UInt64) : UInt64 := (prv ^^^ val) * 0x100000001b3

def fnv32 (data : List UInt8) : UInt32 :=
  if data = [] then 0 else data.foldl (fun hash x => fnvIt32 hash x.toUInt32) fnvInit32

def fnv64 (data : List UInt8) : UInt64 :=
  if data = [] then 0 else data.foldl (fun hash x => fnvIt64 hash x.toUInt64) fnvInit64

def crc16Byte (crc : UInt16) (byte : UInt8) : UInt16 :=
  let x := (crc >>> 8).toUInt8 ^^^ byte
  let x := x ^^^ (x >>> 4)
  (crc <<< 8) ^^^ (x.toUInt16 <<< 12) ^^^ (x.toUInt16 <<< 5) ^^^ x.toUInt16

def crc16 (data : List UInt8) : UInt16 :=
  if data = [] then 0 else data.foldl crc16Byte 0xFFFF

def tableStep (r : UInt32) : UInt32 :=
  (if r &&& 1 ≠ 0 then 0 else (0xEDB88320 : UInt32)) ^^^ (r >>> 1)

def table : Vector UInt32 256 := .ofFn fun i => tableStep^[8] (.ofNat i) ^^^ 0xFF000000

def crc32Byte (result : UInt32) (byte : UInt8) : UInt32 :=
  table.get (result.toUInt8 ^^^ byte).toFin ^^^ (result >>> 8)

def crc32 (data : List UInt8) : UInt32 :=
  if data = [] then 0 else data.foldl crc32Byte 0

def hash (data : List UInt8) : HashAlgorithm → UInt64
  | .fnv32 => (fnv32 data).toUInt64
  | .fnv64 => fnv64 data
  | .crc16 => (crc16 data).toUInt64
  | .crc32 => (crc32 data).toUInt64

/-- The bits of a byte, the least significant first. -/
def bitsUp (x : UInt8) : List Bool := (List.range 8).map fun k => bit x (7 - k)

/-- The bits of a byte, the most significant first. -/
def bitsDown (x : UInt8) : List Bool := (List.range 8).map fun k => bit x k

def crc32Register : Register 32 := right 0xEDB88320#32

def crc16Register : Register 16 := left 0x1021#16

/-- CRC-32/ISO-HDLC, bit by bit -/
def crc32Bitwise (data : List UInt8) : BitVec 32 :=
  ~~~(data.flatMap bitsUp).foldl crc32Register.feed 0xFFFFFFFF#32

/-- The CRC with the polynomial 0x1021, bit by bit -/
def crc16Bitwise (data : List UInt8) : BitVec 16 :=
  (data.flatMap bitsDown).foldl crc16Register.feed 0xFFFF#16

section Crc32

def lower (x : UInt8) : BitVec 32 := x.toBitVec.setWidth 32

theorem lined_lower (x : UInt8) : crc32Register.Lined (lower x) (bitsUp x) := by
  apply right_lined
  intro k
  by_cases hk : k < 8
  · have hget : (bitsUp x).getD k false = bit x (7 - k) := by
      simp [bitsUp, List.getD_eq_getElem?_getD, hk]
    rw [hget, lower, bit, BitVec.getLsbD_setWidth, BitVec.getMsbD_eq_getLsbD]
    simp [show 7 - (7 - k) = k by omega, show k < 32 by omega, show 7 - k < 8 by omega]
  · have hget : (bitsUp x).getD k false = false := by
      simp [bitsUp, List.getD_eq_getElem?_getD, hk]
    rw [hget, lower, BitVec.getLsbD_setWidth, BitVec.getLsbD_of_ge _ _ (by omega), Bool.and_false]

theorem foldl_bitsUp (reg : BitVec 32) (x : UInt8) :
    (bitsUp x).foldl crc32Register.feed reg = crc32Register.step^[8] (reg ^^^ lower x) :=
  foldl_feed (lined_lower x) reg

/-- The table, with inverted feedback, belongs to the complemented register. -/
theorem table_get (x : UInt8) :
    (table.get (~~~x).toFin).toBitVec = crc32Register.step^[8] (lower x) ^^^ 0xFF000000#32 := by
  have hall : ∀ x : BitVec 8,
      (tableStep^[8] (.ofNat (~~~UInt8.ofBitVec x).toNat) ^^^ 0xFF000000).toBitVec =
        crc32Register.step^[8] (lower (.ofBitVec x)) ^^^ 0xFF000000#32 := by decide +kernel
  have hentry : table.get (~~~x).toFin = tableStep^[8] (.ofNat (~~~x).toNat) ^^^ 0xFF000000 :=
    Vector.getElem_ofFn _
  rw [hentry]
  exact hall x.toBitVec

/-- What the low byte does not reach of a register. -/
def upper (reg : BitVec 32) : BitVec 32 := reg ^^^ lower (.ofBitVec (reg.setWidth 8))

theorem quiet_upper (reg : BitVec 32) : crc32Register.Quiet 8 (upper reg) := by
  apply right_quiet
  intro k hk
  simp [upper, lower, hk, show k < 32 by omega]

theorem shift_upper (reg : BitVec 32) : crc32Register.shift^[8] (upper reg) = reg >>> 8 := by
  rw [crc32Register, right_shift_iterate, upper, BitVec.ushiftRight_xor_distrib]
  have hlower : lower (.ofBitVec (reg.setWidth 8)) >>> 8 = 0#32 := by
    apply BitVec.eq_of_getLsbD_eq
    intro k _
    simp [lower]
  rw [hlower, BitVec.xor_zero]

theorem xor_lower (reg : BitVec 32) (x : UInt8) :
    reg ^^^ lower x = upper reg ^^^ lower (.ofBitVec (reg.setWidth 8) ^^^ x) := by
  rw [upper, BitVec.xor_assoc]
  simp only [lower, UInt8.toBitVec_xor, BitVec.setWidth_xor]
  rw [← BitVec.xor_assoc (BitVec.setWidth 32 _), BitVec.xor_self, BitVec.zero_xor]

theorem toBitVec_crc32Byte {c : UInt32} {reg : BitVec 32} (h : c.toBitVec = ~~~reg) (x : UInt8) :
    (crc32Byte c x).toBitVec = ~~~(bitsUp x).foldl crc32Register.feed reg := by
  have hindex : c.toUInt8 ^^^ x = ~~~(.ofBitVec (reg.setWidth 8) ^^^ x) := by
    rw [← UInt8.toBitVec_inj]
    simp [h, BitVec.not_xor_left]
  have hones : BitVec.allOnes 32 >>> 8 = BitVec.allOnes 32 ^^^ 0xFF000000#32 := by decide
  have hshift : (c >>> 8).toBitVec = ~~~(reg >>> 8) ^^^ 0xFF000000#32 := by
    rw [UInt32.toBitVec_shiftRight, h, BitVec.not_def, BitVec.not_def]
    calc
      (BitVec.allOnes 32 ^^^ reg) >>> 8 = BitVec.allOnes 32 >>> 8 ^^^ reg >>> 8 :=
        BitVec.ushiftRight_xor_distrib _ _ 8
      _ = BitVec.allOnes 32 ^^^ reg >>> 8 ^^^ 0xFF000000#32 := by
        rw [hones, BitVec.xor_assoc, BitVec.xor_comm 0xFF000000#32, ← BitVec.xor_assoc]
  rw [crc32Byte, UInt32.toBitVec_xor, hindex, table_get, hshift, foldl_bitsUp, xor_lower,
    step_iterate_split (quiet_upper reg), shift_upper, BitVec.xor_comm (~~~_), BitVec.xor_assoc,
    ← BitVec.xor_assoc 0xFF000000#32, BitVec.xor_self, BitVec.zero_xor,
    BitVec.xor_comm (reg >>> 8), BitVec.not_xor_right]

/-- The register of the code is the complement of the register of the definition. -/
theorem toBitVec_foldl_crc32Byte {c : UInt32} {reg : BitVec 32} (h : c.toBitVec = ~~~reg)
    (data : List UInt8) :
    (data.foldl crc32Byte c).toBitVec = ~~~(data.flatMap bitsUp).foldl crc32Register.feed reg := by
  induction data generalizing c reg with
  | nil => exact h
  | cons x data ih =>
    rw [List.foldl_cons, List.flatMap_cons, List.foldl_append]
    exact ih (toBitVec_crc32Byte h x)

theorem crc32_eq_crc32Bitwise (data : List UInt8) : (crc32 data).toBitVec = crc32Bitwise data := by
  rw [crc32]
  split
  · next hnil =>
    rw [hnil]
    rfl
  · have hinit : (0 : UInt32).toBitVec = ~~~0xFFFFFFFF#32 := rfl
    exact toBitVec_foldl_crc32Byte hinit data

end Crc32

section Crc16

def upmost (x : UInt8) : BitVec 16 := x.toBitVec.setWidth 16 <<< 8

theorem lined_upmost (x : UInt8) : crc16Register.Lined (upmost x) (bitsDown x) := by
  apply left_lined
  intro k
  by_cases hk : k < 8
  · have hget : (bitsDown x).getD k false = bit x k := by
      simp [bitsDown, List.getD_eq_getElem?_getD, hk]
    rw [hget, upmost, bit, BitVec.getMsbD_shiftLeft, BitVec.getMsbD_setWidth]
    simp
  · have hget : (bitsDown x).getD k false = false := by
      simp [bitsDown, List.getD_eq_getElem?_getD, hk]
    rw [hget, upmost, BitVec.getMsbD_shiftLeft, BitVec.getMsbD_of_ge _ _ (by omega)]

theorem foldl_bitsDown (reg : BitVec 16) (x : UInt8) :
    (bitsDown x).foldl crc16Register.feed reg = crc16Register.step^[8] (reg ^^^ upmost x) :=
  foldl_feed (lined_upmost x) reg

/-- Four shifts take the place of a table. -/
def spread (x : UInt8) : UInt16 :=
  let x := x ^^^ (x >>> 4)
  (x.toUInt16 <<< 12) ^^^ (x.toUInt16 <<< 5) ^^^ x.toUInt16

theorem crc16Byte_eq (crc : UInt16) (x : UInt8) :
    crc16Byte crc x = (crc <<< 8) ^^^ spread ((crc >>> 8).toUInt8 ^^^ x) := by
  simp only [crc16Byte, spread, UInt16.xor_assoc]

theorem toBitVec_spread (x : UInt8) : (spread x).toBitVec = crc16Register.step^[8] (upmost x) := by
  have hall : ∀ x : BitVec 8, (spread (.ofBitVec x)).toBitVec =
      crc16Register.step^[8] (upmost (.ofBitVec x)) := by decide +kernel
  exact hall x.toBitVec

/-- What the high byte does not reach of a register. -/
def lowest (reg : BitVec 16) : BitVec 16 := reg ^^^ upmost (.ofBitVec ((reg >>> 8).setWidth 8))

theorem quiet_lowest (reg : BitVec 16) : crc16Register.Quiet 8 (lowest reg) := by
  apply left_quiet
  intro k hk
  have hupmost : (upmost (.ofBitVec ((reg >>> 8).setWidth 8))).getMsbD k = reg.getMsbD k := by
    rw [upmost, BitVec.getMsbD_shiftLeft]
    simp [BitVec.getMsbD_setWidth, BitVec.getMsbD_ushiftRight]
    omega
  rw [lowest, BitVec.getMsbD_xor, hupmost, Bool.xor_self]

theorem shift_lowest (reg : BitVec 16) : crc16Register.shift^[8] (lowest reg) = reg <<< 8 := by
  rw [crc16Register, left_shift_iterate, lowest, BitVec.shiftLeft_xor_distrib]
  have hupmost : upmost (.ofBitVec ((reg >>> 8).setWidth 8)) <<< 8 = 0#16 := by
    rw [upmost, ← BitVec.shiftLeft_add]
    exact BitVec.shiftLeft_eq_zero (le_refl _)
  rw [hupmost, BitVec.xor_zero]

theorem xor_upmost (reg : BitVec 16) (x : UInt8) :
    reg ^^^ upmost x = lowest reg ^^^ upmost (.ofBitVec ((reg >>> 8).setWidth 8) ^^^ x) := by
  rw [lowest, BitVec.xor_assoc]
  simp only [upmost, UInt8.toBitVec_xor, BitVec.setWidth_xor, BitVec.shiftLeft_xor_distrib]
  rw [← BitVec.xor_assoc (BitVec.setWidth 16 _ <<< 8), BitVec.xor_self, BitVec.zero_xor]

theorem toBitVec_crc16Byte (crc : UInt16) (x : UInt8) :
    (crc16Byte crc x).toBitVec = (bitsDown x).foldl crc16Register.feed crc.toBitVec := by
  have hindex : (crc >>> 8).toUInt8 ^^^ x = .ofBitVec ((crc.toBitVec >>> 8).setWidth 8) ^^^ x := by
    rw [← UInt8.toBitVec_inj]
    simp
  rw [crc16Byte_eq, UInt16.toBitVec_xor, toBitVec_spread, hindex, foldl_bitsDown, xor_upmost,
    step_iterate_split (quiet_lowest _), shift_lowest]
  rfl

theorem toBitVec_foldl_crc16Byte (crc : UInt16) (data : List UInt8) :
    (data.foldl crc16Byte crc).toBitVec =
      (data.flatMap bitsDown).foldl crc16Register.feed crc.toBitVec := by
  induction data generalizing crc with
  | nil => rfl
  | cons x data ih =>
    rw [List.foldl_cons, List.flatMap_cons, List.foldl_append, ih, toBitVec_crc16Byte]

theorem crc16_eq_crc16Bitwise (data : List UInt8) (hne : data ≠ []) :
    (crc16 data).toBitVec = crc16Bitwise data := by
  rw [crc16, if_neg hne]
  exact toBitVec_foldl_crc16Byte 0xFFFF data

theorem crc16_eq_crc16Bitwise_check :
    (crc16 [0x31, 0x32, 0x33]).toBitVec = crc16Bitwise [0x31, 0x32, 0x33] :=
  crc16_eq_crc16Bitwise _ (List.cons_ne_nil _ _)

end Crc16

section SingleChange

variable {α β : Type}

/-- A fold whose step loses neither what it has gathered nor what it is given. -/
structure Faithful (f : β → α → β) : Prop where
  left : ∀ x, Function.Injective fun acc => f acc x
  right : ∀ acc, Function.Injective (f acc)

theorem Faithful.foldl_injective {f : β → α → β} (h : Faithful f) (xs : List α) :
    Function.Injective fun acc => xs.foldl f acc := by
  induction xs with
  | nil => exact Function.injective_id
  | cons x xs ih => exact ih.comp (h.left x)

/-- One of the elements is changed, and nothing else. -/
def OneChange (xs ys : List α) : Prop :=
  xs.length = ys.length ∧ ∃ i : Nat, xs[i]? ≠ ys[i]? ∧ ∀ j, j ≠ i → xs[j]? = ys[j]?

theorem Faithful.foldl_ne {f : β → α → β} (h : Faithful f) {xs ys : List α}
    (hchange : OneChange xs ys) (acc : β) : xs.foldl f acc ≠ ys.foldl f acc := by
  obtain ⟨hlen, i, hne, hrest⟩ := hchange
  induction xs generalizing ys i acc with
  | nil =>
    cases ys with
    | nil => exact absurd rfl hne
    | cons y ys => cases hlen
  | cons x xs ih =>
    cases ys with
    | nil => cases hlen
    | cons y ys =>
      cases i with
      | zero =>
        have hxs : xs = ys := List.ext_getElem? fun j => hrest (j + 1) (Nat.succ_ne_zero j)
        subst hxs
        intro hfold
        have hacc := h.foldl_injective xs hfold
        exact hne (congrArg some (h.right acc hacc))
      | succ i =>
        have hxy : x = y := Option.some.inj (hrest 0 (Nat.succ_ne_zero i).symm)
        subst hxy
        exact ih _ (Nat.succ.inj hlen) i hne fun j hj => hrest (j + 1) (by omega)

theorem faithful_fnvIt32 :
    Faithful fun (hash : UInt32) (x : UInt8) => fnvIt32 hash x.toUInt32 := by
  have hinv : (0x1000193 : UInt32) * 0x359c449b = 1 := by decide
  have hinj : ∀ {a b : UInt32}, a * 0x1000193 = b * 0x1000193 → a = b := by
    intro a b h
    rw [← UInt32.mul_one a, ← UInt32.mul_one b, ← hinv, ← UInt32.mul_assoc, h, UInt32.mul_assoc]
  constructor
  case left =>
    intro x a b h
    exact (UInt32.xor_left_inj _).1 (hinj h)
  case right =>
    intro acc x y h
    exact UInt8.toUInt32_inj.1 ((UInt32.xor_right_inj _).1 (hinj h))

theorem faithful_fnvIt64 :
    Faithful fun (hash : UInt64) (x : UInt8) => fnvIt64 hash x.toUInt64 := by
  have hinv : (0x100000001b3 : UInt64) * 0xce965057aff6957b = 1 := by decide
  have hinj : ∀ {a b : UInt64}, a * 0x100000001b3 = b * 0x100000001b3 → a = b := by
    intro a b h
    rw [← UInt64.mul_one a, ← UInt64.mul_one b, ← hinv, ← UInt64.mul_assoc, h, UInt64.mul_assoc]
  constructor
  case left =>
    intro x a b h
    exact (UInt64.xor_left_inj _).1 (hinj h)
  case right =>
    intro acc x y h
    exact UInt8.toUInt64_inj.1 ((UInt64.xor_right_inj _).1 (hinj h))

theorem lower_injective : Function.Injective lower := by
  intro x y h
  rw [← UInt8.toBitVec_inj]
  have hbits := congrArg (BitVec.setWidth 8) h
  simpa [lower] using hbits

theorem upmost_injective : Function.Injective upmost := by
  intro x y h
  rw [← UInt8.toBitVec_inj]
  have hback : ∀ x : BitVec 8, (upmost (.ofBitVec x) >>> 8).setWidth 8 = x := by decide
  rw [← hback x.toBitVec, ← hback y.toBitVec]
  exact congrArg (fun reg : BitVec 16 => (reg >>> 8).setWidth 8) h

theorem faithful_crc32Byte : Faithful crc32Byte := by
  have hstep : Function.Injective crc32Register.step^[8] :=
    (right_reversible (by decide)).step_injective.iterate 8
  have hbyte : ∀ c x, (crc32Byte c x).toBitVec =
      ~~~crc32Register.step^[8] (~~~c.toBitVec ^^^ lower x) := by
    intro c x
    rw [toBitVec_crc32Byte (BitVec.not_not.symm) x, foldl_bitsUp]
  constructor
  case left =>
    intro x a b h
    rw [← UInt32.toBitVec_inj] at h ⊢
    simp only [hbyte, BitVec.not_inj] at h
    exact BitVec.not_inj.1 ((BitVec.xor_left_inj _).1 (hstep h))
  case right =>
    intro acc x y h
    rw [← UInt32.toBitVec_inj, hbyte, hbyte, BitVec.not_inj] at h
    exact lower_injective ((BitVec.xor_right_inj _).1 (hstep h))

theorem faithful_crc16Byte : Faithful crc16Byte := by
  have hstep : Function.Injective crc16Register.step^[8] :=
    (left_reversible (by decide)).step_injective.iterate 8
  have hbyte : ∀ c x, (crc16Byte c x).toBitVec =
      crc16Register.step^[8] (c.toBitVec ^^^ upmost x) := by
    intro c x
    rw [toBitVec_crc16Byte, foldl_bitsDown]
  constructor
  case left =>
    intro x a b h
    rw [← UInt16.toBitVec_inj] at h ⊢
    simp only [hbyte] at h
    exact (BitVec.xor_left_inj _).1 (hstep h)
  case right =>
    intro acc x y h
    rw [← UInt16.toBitVec_inj, hbyte, hbyte] at h
    exact upmost_injective ((BitVec.xor_right_inj _).1 (hstep h))

theorem OneChange.ne_nil {xs ys : List UInt8} (h : OneChange xs ys) : xs ≠ [] ∧ ys ≠ [] := by
  obtain ⟨hlen, i, hne, _⟩ := h
  constructor
  · rintro rfl
    rw [List.length_eq_zero_iff.1 hlen.symm] at hne
    exact hne rfl
  · rintro rfl
    rw [List.length_eq_zero_iff.1 hlen] at hne
    exact hne rfl

theorem hash_ne_of_oneChange {xs ys : List UInt8} (h : OneChange xs ys)
    (algorithm : HashAlgorithm) : hash xs algorithm ≠ hash ys algorithm := by
  obtain ⟨hxs, hys⟩ := h.ne_nil
  cases algorithm with
  | crc16 =>
    simp only [hash, crc16, if_neg hxs, if_neg hys, ne_eq, UInt16.toUInt64_inj]
    exact faithful_crc16Byte.foldl_ne h 0xFFFF
  | crc32 =>
    simp only [hash, crc32, if_neg hxs, if_neg hys, ne_eq, UInt32.toUInt64_inj]
    exact faithful_crc32Byte.foldl_ne h 0
  | fnv32 =>
    simp only [hash, fnv32, if_neg hxs, if_neg hys, ne_eq, UInt32.toUInt64_inj]
    exact faithful_fnvIt32.foldl_ne h fnvInit32
  | fnv64 =>
    simp only [hash, fnv64, if_neg hxs, if_neg hys]
    exact faithful_fnvIt64.foldl_ne h fnvInit64

theorem hash_ne_of_oneChange_last : hash [1, 2, 3] .crc32 ≠ hash [1, 2, 4] .crc32 := by
  apply hash_ne_of_oneChange
  refine ⟨rfl, 2, by decide, ?_⟩
  intro j hj
  rcases j with _ | _ | _ | j
  · rfl
  · rfl
  · exact absurd rfl hj
  · rfl

end SingleChange

end Utlib.Hashable
