import Utlib.Integral

/-! `utl::Time` (chrono/Time.h): points in time and durations, in nanoseconds. Signed overflow,
which is undefined, is taken to wrap. -/

namespace Utlib

open Integral

@[ext] structure Time where
  ticks : i64.Value
  deriving DecidableEq

namespace Time

instance : Zero Time := ⟨⟨0⟩⟩

instance : Add Time := ⟨fun t u => ⟨t.ticks + u.ticks⟩⟩

instance : Sub Time := ⟨fun t u => ⟨t.ticks - u.ticks⟩⟩

def nanoseconds (value : Int) : Time := ⟨i64.wrap value⟩

structure Timespec where
  tv_sec : Int
  tv_nsec : Int
  deriving DecidableEq

/-- What `nanosleep` is called with, if it is called (Unix) -/
def sleep (t : Time) : Option Timespec :=
  if t.ticks.toInt > 0 then some ⟨0, t.ticks.toInt⟩ else none

def sleepUntil (t now : Time) : Option Timespec := (t - now).sleep

/-- The requests that `nanosleep` does not reject -/
def Timespec.Valid (ts : Timespec) : Prop := 0 ≤ ts.tv_nsec ∧ ts.tv_nsec < 10 ^ 9

instance (ts : Timespec) : Decidable ts.Valid := inferInstanceAs (Decidable (_ ∧ _))

def Timespec.duration (ts : Timespec) : Int := ts.tv_sec * 10 ^ 9 + ts.tv_nsec

/-- A sleep of `d` nanoseconds: nothing is requested if that is none, else `d` itself. -/
def Requests (d : Int) : Option Timespec → Prop
  | none => d ≤ 0
  | some ts => 0 < d ∧ ts.Valid ∧ ts.duration = d

/-- The request for `n` nanoseconds, as a sleep of `d` -/
theorem requests_iff (d n : Int) :
    Requests d (if n > 0 then some ⟨0, n⟩ else none) ↔
      if n > 0 then n = d ∧ n < 10 ^ 9 else d ≤ 0 := by
  split
  · simp only [Requests, Timespec.Valid, Timespec.duration]
    omega
  · rfl

theorem requests_sleep_iff (t : Time) :
    Requests t.ticks.toInt t.sleep ↔ t.ticks.toInt < 10 ^ 9 := by
  rw [sleep, requests_iff]
  split <;> omega

/-- The difference of two times, with what is left of it after an overflow -/
theorem toInt_sub_eq (t u : Time) :
    (t - u).ticks.toInt = -2 ^ 63 + (t.ticks.toInt - u.ticks.toInt + 2 ^ 63) % 2 ^ 64 := by
  have hmin : i64.min = -2 ^ 63 := rfl
  change (i64.wrap (t.ticks.toInt - u.ticks.toInt)).toInt = _
  rw [toInt_wrap_eq, hmin, sub_neg_eq_add]
  rfl

theorem bounded (t : Time) : -2 ^ 63 ≤ t.ticks.toInt ∧ t.ticks.toInt < 2 ^ 63 := by
  have hmax : i64.max = 2 ^ 63 - 1 := rfl
  have hle := t.ticks.bounded.2
  rw [hmax] at hle
  exact ⟨t.ticks.bounded.1, by omega⟩

theorem requests_sleepUntil_iff (t now : Time) :
    Requests (t.ticks.toInt - now.ticks.toInt) (t.sleepUntil now) ↔
      -2 ^ 63 ≤ t.ticks.toInt - now.ticks.toInt ∧ t.ticks.toInt - now.ticks.toInt < 10 ^ 9 := by
  have hdeadline := t.bounded
  have hnow := now.bounded
  rw [sleepUntil, sleep, requests_iff, toInt_sub_eq]
  generalize t.ticks.toInt = a at *
  generalize now.ticks.toInt = b at *
  split <;> omega

/-- Durations from one second on do not fit into `tv_nsec`, and `tv_sec` is not used. -/
theorem requests_iff_lt_second (t now : Time) :
    (Requests t.ticks.toInt t.sleep ↔ t.ticks.toInt < 10 ^ 9) ∧
      (Requests (t.ticks.toInt - now.ticks.toInt) (t.sleepUntil now) ↔
        -2 ^ 63 ≤ t.ticks.toInt - now.ticks.toInt ∧ t.ticks.toInt - now.ticks.toInt < 10 ^ 9) :=
  ⟨requests_sleep_iff t, requests_sleepUntil_iff t now⟩

/-- `Time::seconds(1).sleep()` -/
theorem not_requests_second : ¬Requests (10 ^ 9) (nanoseconds (10 ^ 9)).sleep := by
  rintro ⟨_, ⟨_, hlt⟩, _⟩
  exact absurd hlt (by decide)

end Time

end Utlib
