import Mathlib.Data.List.Sort
import Utlib.Integral

/-! `utl::Range` and `utl::ClosedRange` (primitives/Range.h) over integral types. -/

namespace Utlib

open Integral

/-- `Error` (types/Exception.h) -/
structure Error where
  payload : i64.Value
  msg : String

/-- Bounds in `[lower; upper)` format -/
structure Range (T : Integral) where
  lower : T.Value
  upper : T.Value
  deriving DecidableEq

/-- Bounds in `[lower; upper]` format -/
structure ClosedRange (T : Integral) where
  lower : T.Value
  upper : T.Value

/-- `std::unordered_set`, with the order in which it is iterated -/
structure UnorderedSet (α : Type) where
  order : List α
  nodup : order.Nodup

instance {α : Type} : Membership α (UnorderedSet α) := ⟨fun s x => x ∈ s.order⟩

namespace Range

variable {T : Integral}

def valid (r : Range T) : Bool := r.lower ≤ r.upper

def contains (r : Range T) (value : T.Value) : Bool := r.lower ≤ value ∧ value < r.upper

def size (r : Range T) : T.Value := r.upper - r.lower

def translate (r : Range T) (offset : T.Value) : Except Error T.Value :=
  if 0 ≤ offset ∧ offset < r.size then .ok (r.lower + offset)
  else .error ⟨i64.wrap offset.toInt, "Range offset out of bounds"⟩

/-- The ranges emitted by `coalesce` so far and the one it is collecting. -/
structure Runs (T : Integral) where
  result : List (Range T)
  start : T.Value
  prev : T.Value

def Runs.push (s : Runs T) (x : T.Value) : Runs T :=
  if x = s.prev + 1 then { s with prev := x }
  else { result := s.result ++ [⟨s.start, s.prev + 1⟩], start := x, prev := x }

def Runs.ranges (s : Runs T) : List (Range T) := s.result ++ [⟨s.start, s.prev + 1⟩]

def coalesce (values : List T.Value) : List (Range T) :=
  let copy := values.insertionSort (· ≤ ·)
  copy.head?.elim [] fun first => (copy.tail.foldl Runs.push ⟨[], first, first⟩).ranges

/-- `coalesce(const std::unordered_set<T> &)` -/
def coalesceSet (values : UnorderedSet T.Value) : List (Range T) :=
  coalesce (values.order.foldl (fun vec val => vec ++ [val]) [])

end Range

namespace ClosedRange

variable {T : Integral}

def valid (r : ClosedRange T) : Bool := r.lower ≤ r.upper

def contains (r : ClosedRange T) (value : T.Value) : Bool := r.lower ≤ value ∧ value ≤ r.upper

def size (r : ClosedRange T) : T.Value := r.upper - r.lower + 1

def translate (r : ClosedRange T) (offset : T.Value) : Except Error T.Value :=
  if 0 ≤ offset ∧ offset ≤ r.size then .ok (r.lower + offset)
  else .error ⟨i64.wrap offset.toInt, "Range offset out of bounds"⟩

end ClosedRange

end Utlib
