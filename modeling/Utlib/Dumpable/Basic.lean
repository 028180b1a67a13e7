import Mathlib.Data.List.Induction
import Utlib.BigEndian
import Utlib.Sequence

/-! `utl::Dumpable` (abilities/Dumpable.h, abilities/Dumpable.cpp). -/

namespace Utlib

structure DumpOpt where
  base : Int
  uppercase : Bool := false
  missing : Char := ' '
  pad : Char := ' '
  printable : Option (Int → Bool) := none

structure DumpFmt where
  size : Char := 'b'
  columns : Nat := 16
  groups : Int := 1
  nr : Option Int64 := none
  offset : Option Int64 := none
  ascii : Bool := false

/-- `repeat` of the string helpers -/
def repeated (s : List Char) (times : Nat) : List Char := (List.replicate times s).flatten

namespace DumpFmt

/-- The number of data columns in group `i` of `g`. -/
def count (f : DumpFmt) (g i : Nat) : Nat :=
  f.columns / g + if i < f.columns % g then 1 else 0

def groupCount (f : DumpFmt) : Nat := (max 1 f.groups).toNat

def fmt (f : DumpFmt) : List Char :=
  let s1 :=
    if f.size = 'l' then ['%', 'l', ' '] else if f.size = 'w' then ['%', 'w', ' ']
    else ['%', 'b', ' ']
  let s2 :=
    if f.size = 'l' then ['%', 'c', '%', 'c', '%', 'c', '%', 'c']
    else if f.size = 'w' then ['%', 'c', '%', 'c']
    else ['%', 'c']
  (if f.nr.isSome then ['%', 'n', ':', ' '] else []) ++
  (if f.offset.isSome then ['%', 'p', ':', ' '] else []) ++
  (if f.size ≠ '\x00' then
    let g := f.groupCount
    ((List.range g).flatMap fun i =>
      repeated s1 (f.count g i) ++ if i + 1 < g then [' '] else []) ++ [' ']
  else []) ++
  (if f.ascii then '|' :: repeated s2 f.columns ++ ['|'] else []) ++ ['\n']

end DumpFmt

namespace Dumpable

abbrev DataProvider := Nat → Nat → Option Int

/-- `while (bytes-- > 0) { if (offset >= len) return {}; value = value << 8 | buf[offset++]; }` -/
def readBytes (buf : List UInt8) : Nat → Nat → Int64 → Option Int64
  | 0, _, value => some value
  | bytes + 1, offset, value =>
    match buf[offset]? with
    | none => none
    | some x => readBytes buf bytes (offset + 1) (value <<< 8 ||| x.toUInt64.toInt64)

def dataProvider (buf : List UInt8) : DataProvider := fun offset bytes =>
  (readBytes buf bytes offset 0).map Int64.toInt

inductive Failure
  | fatalError
  | overflow
  deriving DecidableEq

/-- Which numbers an `int` and an `isize` can hold. -/
structure Widths where
  int : Int → Bool
  isize : Int → Bool

def Widths.lp64 : Widths where
  int n := -2 ^ 31 ≤ n ∧ n < 2 ^ 31
  isize n := -2 ^ 63 ≤ n ∧ n < 2 ^ 63

def Widths.unbounded : Widths where
  int _ := true
  isize _ := true

def checked (holds : Int → Bool) (n : Int) : Except Failure Int :=
  if holds n then .ok n else .error .overflow

def counted (holds : Int → Bool) (n : Nat) : Except Failure Nat :=
  if holds n then .ok n else .error .overflow

/-- The local variables of `dump`, and what has gone to the stream. -/
structure State where
  ctrl : Bool := false
  ccnt : Nat := 0
  bcnt : Nat := 0
  lcnt : Nat := 0
  wcnt : Nat := 0
  os : List Char := []

/-- `isprint` in the C locale, unless the options have another predicate -/
def isPrint (opt : DumpOpt) (ch : Int) : Bool :=
  match opt.printable with
  | some p => p ch
  | none => 0x20 ≤ ch ∧ ch ≤ 0x7E

/-- What `std::oct`, `std::hex` and `std::dec` make of an `isize`. -/
def numeral (base : Nat) (value : Int) : List Char := Nat.toDigits base (value % 2 ^ 64).toNat

def decimal (value : Int) : List Char :=
  if value < 0 then '-' :: Nat.toDigits 10 value.natAbs else Nat.toDigits 10 value.natAbs

def defaultWidth (base : Int) (size : Nat) : Nat :=
  if base = 8 then if size = 1 then 3 else if size = 2 then 6 else 11
  else if base = 10 then if size = 1 then 3 else if size = 2 then 5 else 10
  else if base = 16 then if size = 1 then 2 else if size = 2 then 4 else 8
  else 0

def out (opt : DumpOpt) (wcnt : Nat) (value : Option Int) (size : Nat) (base : Int) : List Char :=
  let base := if base ≠ 0 then base else opt.base
  let w := if wcnt = 0 then defaultWidth base size else wcnt
  match value with
  | some v =>
    if base = 8 then (numeral 8 v).leftpad w opt.pad
    else if base = 10 then (decimal v).leftpad w opt.pad
    else if base = 16 then
      ((numeral 16 v).map fun c => if opt.uppercase then c.toUpper else c).leftpad w '0'
    else []
  | none => List.replicate w opt.missing

def toChar (value : Int) : Char := Char.ofNat (value % 2 ^ 8).toNat

section Dump

variable (w : Widths) (opt : DumpOpt) (reader : DataProvider) (nrStart offsetStart : Int)

/-- `out(reader(bcnt, size), size); bcnt += size;` -/
def dumpData (size : Nat) (s : State) : Except Failure State := do
  let bcnt ← counted w.int (s.bcnt + size)
  return { s with os := s.os ++ out opt s.wcnt (reader s.bcnt size) size 0, bcnt }

/-- `%a` and `%c` differ in how they show an unprintable character. -/
def dumpChar (shown : Int → Char) (s : State) : Except Failure State :=
  match reader s.ccnt 1 with
  | some val => do
    let ccnt ← counted w.int (s.ccnt + 1)
    return { s with os := s.os ++ [shown val], ccnt }
  | none => return { s with os := s.os ++ [' '] }

def directive (c : Char) (s : State) : Except Failure State :=
  match c with
  | 'n' => do
    let nr ← checked w.isize (nrStart + s.lcnt)
    return { s with os := s.os ++ (decimal nr).leftpad s.wcnt ' ' }
  | 'p' => do
    let offset ← checked w.isize (offsetStart + max s.bcnt s.ccnt)
    return { s with os := s.os ++ out opt s.wcnt (some offset) 4 16 }
  | 'a' => dumpChar w reader
    (fun val => if val = 10 ∨ isPrint opt val then toChar val else ' ') s
  | 'c' => dumpChar w reader (fun val => if isPrint opt val then toChar val else '.') s
  | 'b' => dumpData w opt reader 1 s
  | '1' => dumpData w opt reader 1 s
  | 'w' => dumpData w opt reader 2 s
  | '2' => dumpData w opt reader 2 s
  | 'l' => dumpData w opt reader 4 s
  | '4' => dumpData w opt reader 4 s
  | _ => .error .fatalError

/-- What one character of the format string does. -/
def step (s : State) (c : Char) : Except Failure State :=
  if ¬s.ctrl then
    if c = '%' then return { s with ctrl := true, wcnt := 0 }
    else if c = '\n' then do
      let lcnt ← counted w.int (s.lcnt + 1)
      return { s with os := s.os ++ ['\n'], lcnt }
    else return { s with os := s.os ++ [c] }
  else if '0' ≤ c ∧ c ≤ '9' then do
    let wcnt ← counted w.int (10 * s.wcnt + (c.toNat - '0'.toNat))
    return { s with wcnt }
  else do
    let t ← directive w opt reader nrStart offsetStart c s
    return { t with ctrl := false }

def scan (fmt : List Char) (s : State) : Except Failure State :=
  fmt.foldlM (step w opt reader nrStart offsetStart) s

/-- One pass over the format string, and whether it consumed anything. -/
def pass (fmt : List Char) (s : State) : Except Failure (State × Bool) := do
  let before ← counted w.int (s.bcnt + s.ccnt)
  let t ← scan w opt reader nrStart offsetStart (fmt.takeWhile (· ≠ '\x00')) s
  let after ← counted w.int (t.bcnt + t.ccnt)
  return (t, after ≠ before)

inductive Outcome
  | stopped (s : State)
  | failed (e : Failure)
  | running (s : State)

/-- The loop of `dump`, as far as it gets in so many passes. -/
def loop (fmt : List Char) : Nat → State → Outcome
  | 0, s =>
    if (reader s.bcnt 1).isSome ∧ (reader s.ccnt 1).isSome then .running s else .stopped s
  | passes + 1, s =>
    if (reader s.bcnt 1).isSome ∧ (reader s.ccnt 1).isSome then
      match pass w opt reader nrStart offsetStart fmt s with
      | .ok (t, consumed) => if consumed then loop fmt passes t else .stopped t
      | .error e => .failed e
    else .stopped s

def dump (fmt : List Char) (passes : Nat) : Outcome :=
  loop w opt reader nrStart offsetStart fmt passes {}

/-- The overload that takes a `DumpFmt` -/
def dumpFmt (f : DumpFmt) (passes : Nat) : Outcome :=
  dump w opt reader ((f.nr.map Int64.toInt).getD 0) ((f.offset.map Int64.toInt).getD 0) f.fmt passes

end Dump

section Reader

open Sequence

/-- A number by its bytes, the most significant one first. -/
def ofBytes (xs : List UInt8) : Nat := xs.foldl (fun n x => 2 ^ 8 * n + x.toNat) 0

def shiftIn (value : Int64) (x : UInt8) : Int64 := value <<< 8 ||| x.toUInt64.toInt64

theorem toNat_shiftIn (value : Int64) (x : UInt8) :
    (shiftIn value x).toUInt64.toNat = (2 ^ 8 * value.toUInt64.toNat + x.toNat) % 2 ^ 64 := by
  have hbits : (shiftIn value x).toUInt64 = value.toUInt64 <<< UInt64.ofNat 8 ||| x.toUInt64 := rfl
  have hlt : x.toUInt64.toNat < 2 ^ 8 := x.toNat_lt
  rw [hbits, BigEndian.toNat_shiftIn _ (by decide) hlt, Nat.mul_comm]
  rfl

theorem ofBytes_concat (xs : List UInt8) (x : UInt8) :
    ofBytes (xs ++ [x]) = 2 ^ 8 * ofBytes xs + x.toNat := by
  rw [ofBytes, List.foldl_append]
  rfl

theorem ofBytes_lt (xs : List UInt8) : ofBytes xs < 2 ^ (8 * xs.length) := by
  induction xs using List.reverseRecOn with
  | nil => exact Nat.one_pos
  | append_singleton xs x ih =>
    have hx := x.toNat_lt
    rw [ofBytes_concat, List.length_append, List.length_singleton, Nat.mul_add, pow_add]
    omega

theorem toNat_foldl_shiftIn {xs : List UInt8} (h : xs.length ≤ 8) :
    (xs.foldl shiftIn 0).toUInt64.toNat = ofBytes xs := by
  induction xs using List.reverseRecOn with
  | nil => rfl
  | append_singleton xs x ih =>
    have hlt := ofBytes_lt (xs ++ [x])
    have hpow : 2 ^ (8 * (xs ++ [x]).length) ≤ 2 ^ 64 := Nat.pow_le_pow_right two_pos (by omega)
    rw [List.length_append, List.length_singleton] at h
    rw [List.foldl_append, List.foldl_cons, List.foldl_nil, toNat_shiftIn, ih (by omega),
      ← ofBytes_concat, Nat.mod_eq_of_lt (hlt.trans_le hpow)]

theorem readBytes_eq (buf : List UInt8) (bytes offset : Nat) (value : Int64) :
    readBytes buf (bytes + 1) offset value =
      if offset + bytes < buf.length then
        some ((slice buf offset (bytes + 1)).foldl shiftIn value)
      else none := by
  induction bytes generalizing offset value with
  | zero =>
    rw [readBytes]
    split
    · next hnone =>
      rw [if_neg (by simpa using hnone)]
    · next x hx =>
      obtain ⟨hlt, rfl⟩ := List.getElem?_eq_some_iff.1 hx
      rw [if_pos (show offset + 0 < buf.length from hlt), slice, List.drop_eq_getElem_cons hlt]
      rfl
  | succ bytes ih =>
    rw [readBytes]
    split
    · next hnone =>
      have hle : buf.length ≤ offset := by simpa using hnone
      rw [if_neg (by omega)]
    · next x hx =>
      obtain ⟨hlt, rfl⟩ := List.getElem?_eq_some_iff.1 hx
      rw [ih, show offset + 1 + bytes = offset + (bytes + 1) by omega]
      congr 2
      rw [slice, slice, List.drop_eq_getElem_cons hlt]
      rfl

/-- A read that stays inside delivers the number that the bytes make up. -/
theorem dataProvider_eq (buf : List UInt8) (offset : Nat) {bytes : Nat} (hpos : 0 < bytes)
    (hlt : bytes < 8) :
    dataProvider buf offset bytes =
      if offset + bytes ≤ buf.length then some (ofBytes (slice buf offset bytes) : Int)
      else none := by
  obtain ⟨n, rfl⟩ := Nat.exists_eq_add_one.2 hpos
  rw [dataProvider, readBytes_eq]
  by_cases hinside : offset + n < buf.length
  · have hlen : (slice buf offset (n + 1)).length = n + 1 := by
      rw [length_slice]
      omega
    have hvalue : ((slice buf offset (n + 1)).foldl shiftIn 0).toUInt64.toNat =
        ofBytes (slice buf offset (n + 1)) := toNat_foldl_shiftIn (by omega)
    have hbound := ofBytes_lt (slice buf offset (n + 1))
    have hpow : 2 ^ (8 * (n + 1)) ≤ 2 ^ 56 := Nat.pow_le_pow_right two_pos (by omega)
    rw [hlen] at hbound
    rw [if_pos hinside, if_pos (by omega), Option.map_some, ← hvalue]
    rw [← hvalue] at hbound
    congr 1
    exact BitVec.toInt_eq_toNat_of_lt (by change 2 * UInt64.toNat _ < 2 ^ 64; omega)
  · rw [if_neg hinside, if_neg (by omega)]
    rfl

theorem dataProvider_one (buf : List UInt8) (offset : Nat) :
    dataProvider buf offset 1 = buf[offset]?.map fun x => (x.toNat : Int) := by
  rw [dataProvider_eq buf offset (by decide) (by decide)]
  by_cases hlt : offset < buf.length
  · have hbyte : ofBytes [buf[offset]] = buf[offset].toNat := Nat.zero_add _
    rw [if_pos (by omega), slice, List.drop_eq_getElem_cons hlt, List.getElem?_eq_getElem hlt,
      List.take_succ_cons, List.take_zero, hbyte, Option.map_some]
  · rw [if_neg (by omega), List.getElem?_eq_none (by omega)]
    rfl

end Reader

end Dumpable

end Utlib
