import Mathlib.Algebra.BigOperators.Group.List.Basic
import Utlib.Chrono.Time

/-! `utl::Clock` (chrono/Clock.cpp) and the intervals in which it has run. Each call reads the time
once. -/

namespace Utlib

open Integral

structure Clock where
  start : Time
  elapsed : Time
  paused : Bool

namespace Clock

/-- `Clock()` -/
def make (now : Time) : Clock := ⟨now, 0, false⟩

def updateElapsed (now : Time) (c : Clock) : Clock :=
  { c with
    elapsed := if ¬c.paused then c.elapsed + (now - c.start) else c.elapsed
    start := now }

def getElapsedTime (now : Time) (c : Clock) : Time × Clock :=
  let c := c.updateElapsed now
  (c.elapsed, c)

def stop (now : Time) (c : Clock) : Time × Clock :=
  let c := { c.updateElapsed now with paused := true }
  (c.elapsed, c)

def go (now : Time) (c : Clock) : Time × Clock :=
  let c := { c.updateElapsed now with paused := false }
  (c.elapsed, c)

def restart (now : Time) (c : Clock) : Time × Clock :=
  let result := (c.updateElapsed now).elapsed
  (result, { start := now, elapsed := 0, paused := false })

inductive Call
  | getElapsedTime
  | stop
  | go
  | restart
  deriving DecidableEq

def Call.run (now : Time) : Call → Clock → Time × Clock
  | .getElapsedTime => Clock.getElapsedTime now
  | .stop => Clock.stop now
  | .go => Clock.go now
  | .restart => Clock.restart now

/-- The clock after calls that read the given times, the first time read when it was made -/
def after (first : Time) (calls : List (Call × Time)) : Clock :=
  calls.foldl (fun c e => (e.1.run e.2 c).2) (make first)

/-- What a call returns when it comes after `calls` -/
def returned (first : Time) (calls : List (Call × Time)) (call : Call) (now : Time) : Time :=
  (call.run now (after first calls)).1

/-- When a clock has run since it was made or last restarted: from when to when, and since when
without an end -/
structure Running where
  closed : List (Int × Int)
  since : Option Int

namespace Running

def call (now : Int) (r : Running) : Call → Running
  | .getElapsedTime => r
  | .stop =>
    match r.since with
    | some a => ⟨r.closed ++ [(a, now)], none⟩
    | none => r
  | .go =>
    match r.since with
    | some _ => r
    | none => ⟨r.closed, some now⟩
  | .restart => ⟨[], some now⟩

def intervals (now : Int) (r : Running) : List (Int × Int) :=
  r.closed ++ r.since.toList.map (·, now)

def total (now : Int) (r : Running) : Int := ((r.intervals now).map fun i => i.2 - i.1).sum

def after (first : Time) (calls : List (Call × Time)) : Running :=
  calls.foldl (fun r e => r.call e.2.ticks.toInt e.1) ⟨[], some first.ticks.toInt⟩

theorem total_eq (now : Int) (r : Running) :
    r.total now = (r.closed.map fun i => i.2 - i.1).sum + r.since.elim 0 (now - ·) := by
  rw [total, intervals, List.map_append, List.sum_append]
  cases r.since with
  | none => rfl
  | some a => simp

theorem total_stop (now later : Int) (r : Running) :
    (r.call now .stop).total later = r.total now := by
  obtain ⟨closed, since⟩ := r
  cases since with
  | none => simp [call, total_eq]
  | some a => simp [call, total_eq]

theorem total_go (now later : Int) (r : Running) :
    (r.call now .go).total later = r.total now + (later - now) := by
  obtain ⟨closed, since⟩ := r
  cases since with
  | none => simp [call, total_eq]
  | some a =>
    simp only [call, total_eq, Option.elim_some]
    omega

/-- A running clock goes on; a stopped one does not. -/
theorem total_later (now later : Int) (r : Running) :
    r.total later = r.total now + r.since.elim 0 fun _ => later - now := by
  rw [total_eq, total_eq]
  cases r.since with
  | none => simp
  | some a =>
    simp only [Option.elim_some]
    omega

theorem total_restart (now later : Int) (r : Running) :
    (r.call now .restart).total later = later - now := by
  simp [call, total_eq]

end Running

/-- What the clock would return at any time is what it has run until then. -/
structure Measures (c : Clock) (r : Running) : Prop where
  paused : c.paused = r.since.isNone
  elapsed : ∀ now : Time, (c.updateElapsed now).elapsed.ticks = i64.wrap (r.total now.ticks.toInt)

section Measures

variable {c : Clock} {r : Running}

theorem elapsed_of_paused (h : c.paused = true) (now : Time) :
    (c.updateElapsed now).elapsed = c.elapsed := by
  simp [updateElapsed, h]

theorem elapsed_of_running (h : c.paused = false) (now : Time) :
    (c.updateElapsed now).elapsed.ticks =
      c.elapsed.ticks + i64.wrap (now.ticks.toInt - c.start.ticks.toInt) := by
  simp only [updateElapsed, h, Bool.false_eq_true, not_false_eq_true, if_true]
  rfl

theorem measures_fresh (now : Time) (r : Running) :
    Measures (make now) (r.call now.ticks.toInt .restart) where
  paused := rfl
  elapsed later := by
    rw [elapsed_of_running rfl, Running.total_restart]
    change i64.wrap 0 + _ = _
    rw [wrap_add, zero_add]
    rfl

theorem Measures.updateElapsed (h : Measures c r) (now : Time) :
    Measures (c.updateElapsed now) r where
  paused := h.paused
  elapsed later := by
    have hnow := h.elapsed now
    have hpaused := h.paused
    rw [Running.total_later now.ticks.toInt]
    cases hsince : r.since with
    | none =>
      rw [hsince] at hpaused
      have hstopped : (c.updateElapsed now).paused = true := hpaused
      rw [elapsed_of_paused hstopped, hnow, Option.elim_none, add_zero]
    | some a =>
      rw [hsince] at hpaused
      have hrunning : (c.updateElapsed now).paused = false := hpaused
      rw [elapsed_of_running hrunning, hnow, wrap_add]
      rfl

theorem Measures.stop (h : Measures c r) (now : Time) :
    Measures (c.stop now).2 (r.call now.ticks.toInt .stop) where
  paused := by
    rw [Running.call]
    cases hsince : r.since with
    | none => rw [hsince]; rfl
    | some a => rfl
  elapsed later := by
    rw [elapsed_of_paused rfl, Running.total_stop]
    exact h.elapsed now

theorem Measures.go (h : Measures c r) (now : Time) :
    Measures (c.go now).2 (r.call now.ticks.toInt .go) where
  paused := by
    rw [Running.call]
    cases hsince : r.since with
    | none => rfl
    | some a => rw [hsince]; rfl
  elapsed later := by
    rw [elapsed_of_running rfl, Running.total_go, ← wrap_add, ← h.elapsed now]
    rfl

theorem Measures.run (h : Measures c r) (now : Time) (call : Call) :
    Measures (call.run now c).2 (r.call now.ticks.toInt call) := by
  cases call with
  | getElapsedTime => exact h.updateElapsed now
  | stop => exact h.stop now
  | go => exact h.go now
  | restart => exact measures_fresh now r

theorem Measures.foldl (h : Measures c r) (calls : List (Call × Time)) :
    Measures (calls.foldl (fun c e => (e.1.run e.2 c).2) c)
      (calls.foldl (fun r e => r.call e.2.ticks.toInt e.1) r) := by
  induction calls generalizing c r with
  | nil => exact h
  | cons e calls ih => exact ih (h.run e.2 e.1)

theorem measures_after (first : Time) (calls : List (Call × Time)) :
    Measures (after first calls) (Running.after first calls) :=
  (measures_fresh first ⟨[], none⟩).foldl calls

/-- Each call returns what the clock has measured when it is made. -/
theorem run_fst (call : Call) (now : Time) (c : Clock) :
    (call.run now c).1 = (c.updateElapsed now).elapsed := by
  cases call <;> rfl

/-- A call that finds the clock as it leaves it -/
def Redundant (c : Clock) : Call → Prop
  | .getElapsedTime => True
  | .stop => c.paused = true
  | .go => c.paused = false
  | .restart => False

theorem Measures.redundant (h : Measures c r) {call : Call} (hcall : c.Redundant call) (now : Int) :
    r.call now call = r := by
  have hpaused := h.paused
  cases call with
  | getElapsedTime => rfl
  | stop =>
    rw [hcall] at hpaused
    rw [Running.call, Option.isNone_iff_eq_none.1 hpaused.symm]
  | go =>
    rw [hcall] at hpaused
    rw [Running.call]
    cases hsince : r.since with
    | none => rw [hsince] at hpaused; cases hpaused
    | some a => rfl
  | restart => exact hcall.elim

end Measures

/-- Calls that find the clock as they leave it do not change when it has run. -/
theorem running_redundant (first : Time) {calls inserted : List (Call × Time)}
    (h : ∀ e ∈ inserted, (after first calls).Redundant e.1) (later : List (Call × Time)) :
    Running.after first (calls ++ inserted ++ later) = Running.after first (calls ++ later) := by
  have hskip (l : List (Call × Time)) (hl : ∀ e ∈ l, (after first calls).Redundant e.1) :
      l.foldl (fun r e => r.call e.2.ticks.toInt e.1) (Running.after first calls) =
        Running.after first calls := by
    induction l with
    | nil => rfl
    | cons e l ih =>
      rw [List.foldl_cons, (measures_after first calls).redundant (hl e List.mem_cons_self)]
      exact ih fun f hf => hl f (List.mem_cons_of_mem e hf)
  rw [Running.after, Running.after, List.foldl_append, List.foldl_append, List.foldl_append]
  exact congrArg (later.foldl _) (hskip inserted h)

theorem returned_ticks (first : Time) (calls : List (Call × Time)) (call : Call) (now : Time) :
    (returned first calls call now).ticks =
      i64.wrap ((Running.after first calls).total now.ticks.toInt) := by
  rw [returned, run_fst]
  exact (measures_after first calls).elapsed now

/-- Each call returns the total of the intervals in which the clock has run, exactly unless that
total is no 64 bit number. Then it is the total modulo `2 ^ 64`, since signed overflow, which is
undefined, is taken to wrap. Calls that find the clock as they leave it have no influence. -/
theorem returned_total (first : Time) :
    (∀ calls call now,
      (returned first calls call now).ticks =
          i64.wrap ((Running.after first calls).total now.ticks.toInt) ∧
        (i64.min ≤ (Running.after first calls).total now.ticks.toInt →
          (Running.after first calls).total now.ticks.toInt ≤ i64.max →
          (returned first calls call now).ticks.toInt =
            (Running.after first calls).total now.ticks.toInt)) ∧
      ∀ calls inserted later call now,
        (∀ e ∈ inserted, (after first calls).Redundant e.1) →
        returned first (calls ++ inserted ++ later) call now =
          returned first (calls ++ later) call now := by
  refine ⟨fun calls call now => ⟨returned_ticks first calls call now, fun hmin hmax => ?_⟩,
    fun calls inserted later call now h => Time.ext ?_⟩
  · rw [returned_ticks, toInt_wrap hmin hmax]
  · rw [returned_ticks, returned_ticks, running_redundant first h]

/-- Made at 10, stopped at 25, stopped again at 40, started at 50 and asked at 57 -/
theorem returned_total_stopped_twice :
    (returned (.nanoseconds 10)
      [(.stop, .nanoseconds 25), (.stop, .nanoseconds 40), (.go, .nanoseconds 50)]
      .getElapsedTime (.nanoseconds 57)).ticks.toInt = 22 ∧
      returned (.nanoseconds 10)
          ([(.stop, .nanoseconds 25)] ++ [(.stop, .nanoseconds 40)] ++ [(.go, .nanoseconds 50)])
          .getElapsedTime (.nanoseconds 57) =
        returned (.nanoseconds 10) ([(.stop, .nanoseconds 25)] ++ [(.go, .nanoseconds 50)])
          .getElapsedTime (.nanoseconds 57) :=
  ⟨((returned_total (.nanoseconds 10)).1 _ _ _).2 (by decide) (by decide),
    (returned_total (.nanoseconds 10)).2 [(.stop, .nanoseconds 25)] [(.stop, .nanoseconds 40)]
      [(.go, .nanoseconds 50)] _ _ (by
        intro e he
        rw [List.mem_singleton.1 he]
        rfl)⟩

end Clock

end Utlib
