import Mathlib.Logic.Function.Basic
import Utlib.Transitions

/-! `utl::Wakeable` (abilities/Wakeable.cpp): one thread that waits, any number of threads that wake
it, and a condition variable that may wake it at any time. The end of a wait, `now + delay`, is
assumed not to overflow the clock. -/

namespace Utlib.Wakeable

open Transitions

/-- Where the waiting thread is in `waitForWakeUp` -/
inductive Waiter
  | idle
  | locking
  | testing (timedOut : Bool)
  | blocking
  | blocked
  | relocking
  | clearing
  | unlocking
  deriving DecidableEq

/-- Where a thread is in `wakeUp` -/
inductive Waker
  | idle
  | locking
  | setting
  | unlocking
  | notifying
  deriving DecidableEq

inductive Party (T : Type)
  | waiter
  | waker (t : T)

inductive WaitEvent
  | call
  | lock
  | test (ready : Bool)
  | block
  | wake
  | relock (timedOut : Bool)
  | clear (ready : Bool)
  | unlock
  deriving DecidableEq

inductive WakeEvent
  | call
  | lock
  | set
  | unlock
  | notify
  deriving DecidableEq

/-- `expire` is the moment at which the time-out of the current wait is over. It comes at any time
after the call, as nothing is said about the clock. -/
inductive Event (T : Type)
  | waiter (e : WaitEvent)
  | waker (t : T) (e : WakeEvent)
  | expire

structure State (T : Type) where
  condMutex : Option (Party T)
  ready : Bool
  waiter : Waiter
  waker : T → Waker
  expired : Bool

def start {T : Type} : State T := ⟨none, false, .idle, fun _ => .idle, false⟩

variable {T : Type}

/-- `condVar.notify_one()` -/
def notified : Waiter → Waiter
  | .blocked => .relocking
  | w => w

section Step

variable [DecidableEq T]

def State.setWaker (s : State T) (t : T) (w : Waker) : State T :=
  { s with waker := Function.update s.waker t w }

/-- `wait_until` tests the flag under the lock. It gives the lock up to block, takes it again, and
gives up if the time is over then. -/
inductive Step : State T → Event T → State T → Prop
  | call {s : State T} : s.waiter = .idle →
      Step s (.waiter .call) { s with waiter := .locking, expired := false }
  | lock {s : State T} : s.waiter = .locking → s.condMutex = none →
      Step s (.waiter .lock) { s with waiter := .testing false, condMutex := some .waiter }
  | testReady {s : State T} {timedOut : Bool} : s.waiter = .testing timedOut → s.ready = true →
      Step s (.waiter (.test true)) { s with waiter := .clearing }
  | testTimedOut {s : State T} : s.waiter = .testing true → s.ready = false →
      Step s (.waiter (.test false)) { s with waiter := .clearing }
  | testAgain {s : State T} : s.waiter = .testing false → s.ready = false →
      Step s (.waiter (.test false)) { s with waiter := .blocking }
  | block {s : State T} : s.waiter = .blocking →
      Step s (.waiter .block) { s with waiter := .blocked, condMutex := none }
  | wake {s : State T} : s.waiter = .blocked →
      Step s (.waiter .wake) { s with waiter := .relocking }
  | relock {s : State T} {timedOut : Bool} : s.waiter = .relocking → s.condMutex = none →
      (timedOut = true → s.expired = true) →
      Step s (.waiter (.relock timedOut))
        { s with waiter := .testing timedOut, condMutex := some .waiter }
  | clear {s : State T} {ready : Bool} : s.waiter = .clearing → s.ready = ready →
      Step s (.waiter (.clear ready)) { s with waiter := .unlocking, ready := false }
  | unlock {s : State T} : s.waiter = .unlocking →
      Step s (.waiter .unlock) { s with waiter := .idle, condMutex := none }
  | wakerCall {s : State T} {t : T} : s.waker t = .idle →
      Step s (.waker t .call) (s.setWaker t .locking)
  | wakerLock {s : State T} {t : T} : s.waker t = .locking → s.condMutex = none →
      Step s (.waker t .lock) { s.setWaker t .setting with condMutex := some (.waker t) }
  | wakerSet {s : State T} {t : T} : s.waker t = .setting →
      Step s (.waker t .set) { s.setWaker t .unlocking with ready := true }
  | wakerUnlock {s : State T} {t : T} : s.waker t = .unlocking →
      Step s (.waker t .unlock) { s.setWaker t .notifying with condMutex := none }
  | wakerNotify {s : State T} {t : T} : s.waker t = .notifying →
      Step s (.waker t .notify) { s.setWaker t .idle with waiter := notified s.waiter }
  | expire {s : State T} : s.waiter ≠ .idle → Step s .expire { s with expired := true }

end Step

/-- The events for which no lock is needed -/
def Event.Free : Event T → Prop
  | .waiter _ => False
  | .waker _ .call => True
  | .waker _ .notify => True
  | .waker _ _ => False
  | .expire => True

def Event.ofWaiter : Event T → Option WaitEvent
  | .waiter e => some e
  | _ => none

def Event.count (n : Nat) : Event T → Nat
  | .waker _ .set => n + 1
  | .waiter (.clear true) => 0
  | _ => n

/-- How many times the flag has been set since it was last consumed -/
def pending (es : List (Event T)) : Nat := es.foldl Event.count 0

def Waiter.holds : Waiter → Bool
  | .testing _ => true
  | .blocking => true
  | .clearing => true
  | .unlocking => true
  | _ => false

def Waker.holds : Waker → Bool
  | .setting => true
  | .unlocking => true
  | _ => false

def State.holds (s : State T) : Party T → Bool
  | .waiter => s.waiter.holds
  | .waker t => (s.waker t).holds

/-- The last of the events that need the lock -/
def Last (e : WaitEvent) (es : List (Event T)) : Prop :=
  ∃ before after, es = before ++ .waiter e :: after ∧ ∀ f ∈ after, f.Free

theorem Last.intro (e : WaitEvent) (es : List (Event T)) : Last e (es ++ [.waiter e]) :=
  ⟨es, [], rfl, by simp⟩

theorem Last.concat {e : WaitEvent} {es : List (Event T)} {f : Event T} (h : Last e es)
    (hf : f.Free) : Last e (es ++ [f]) := by
  obtain ⟨before, after, rfl, hfree⟩ := h
  refine ⟨before, after ++ [f], by simp, fun g hg => ?_⟩
  rcases List.mem_append.1 hg with hg | hg
  · exact hfree g hg
  · rwa [List.mem_singleton.1 hg]

section Lock

variable {s t : State T}

theorem holds_of_waiter (hwaiter : t.waiter.holds = s.waiter.holds) (hwaker : t.waker = s.waker) :
    ∀ q, t.holds q = s.holds q
  | .waiter => hwaiter
  | .waker i => congrArg (fun f => (f i).holds) hwaker

theorem holds_ne_waiter (hwaker : t.waker = s.waker) : ∀ q, q ≠ .waiter → t.holds q = s.holds q
  | .waiter, hq => absurd rfl hq
  | .waker i, _ => congrArg (fun f => (f i).holds) hwaker

variable [DecidableEq T]

theorem holds_ne_waker {i : T} {w : Waker} (hwaiter : t.waiter.holds = s.waiter.holds)
    (hwaker : t.waker = Function.update s.waker i w) : ∀ q, q ≠ .waker i → t.holds q = s.holds q
  | .waiter, _ => hwaiter
  | .waker j, hq => by
    have hne : j ≠ i := fun hj => hq (congrArg Party.waker hj)
    rw [State.holds, State.holds, hwaker, Function.update_of_ne hne]

theorem holds_waker {i : T} {w : Waker} (hwaker : t.waker = Function.update s.waker i w) :
    t.holds (.waker i) = w.holds := by
  rw [State.holds, hwaker, Function.update_self]

theorem holds_of_waker {i : T} {w : Waker} (hwaiter : t.waiter.holds = s.waiter.holds)
    (hwaker : t.waker = Function.update s.waker i w) (hw : (s.waker i).holds = w.holds) (q) :
    t.holds q = s.holds q := by
  by_cases hq : q = .waker i
  · subst hq
    rw [holds_waker hwaker]
    exact hw.symm
  · exact holds_ne_waker hwaiter hwaker q hq

theorem holds_notified (w : Waiter) : (notified w).holds = w.holds := by cases w <;> rfl

theorem guards_step {e : Event T} (h : Guards s.condMutex s.holds) (hstep : Step s e t) :
    Guards t.condMutex t.holds := by
  cases hstep with
  | call hat => exact h.congr (holds_of_waiter (by rw [hat]; rfl) rfl)
  | lock hat hfree =>
    rw [hfree] at h
    exact h.acquire rfl (holds_ne_waiter rfl)
  | testReady hat _ => exact h.congr (holds_of_waiter (by rw [hat]; rfl) rfl)
  | testTimedOut hat _ => exact h.congr (holds_of_waiter (by rw [hat]; rfl) rfl)
  | testAgain hat _ => exact h.congr (holds_of_waiter (by rw [hat]; rfl) rfl)
  | block hat =>
    have hheld : s.holds .waiter = true := congrArg Waiter.holds hat
    exact h.release hheld rfl (holds_ne_waiter rfl)
  | wake hat => exact h.congr (holds_of_waiter (by rw [hat]; rfl) rfl)
  | relock hat hfree _ =>
    rw [hfree] at h
    exact h.acquire rfl (holds_ne_waiter rfl)
  | clear hat _ => exact h.congr (holds_of_waiter (by rw [hat]; rfl) rfl)
  | unlock hat =>
    have hheld : s.holds .waiter = true := congrArg Waiter.holds hat
    exact h.release hheld rfl (holds_ne_waiter rfl)
  | wakerCall hat => exact h.congr (holds_of_waker rfl rfl (by rw [hat]; rfl))
  | @wakerLock i hat hfree =>
    rw [hfree] at h
    have hheld := holds_waker (s := s) (t := s.setWaker i .setting) rfl
    exact h.acquire hheld (holds_ne_waker rfl rfl)
  | wakerSet hat => exact h.congr (holds_of_waker rfl rfl (by rw [hat]; rfl))
  | @wakerUnlock i hat =>
    have hheld : s.holds (.waker i) = true := congrArg Waker.holds hat
    have hfree := holds_waker (s := s) (t := s.setWaker i .notifying) rfl
    exact h.release hheld hfree (holds_ne_waker rfl rfl)
  | wakerNotify hat =>
    exact h.congr (holds_of_waker (holds_notified s.waiter) rfl (by rw [hat]; rfl))
  | expire _ => exact h.congr (holds_of_waiter rfl rfl)

end Lock

section History

variable {es : List (Event T)} {s t : State T} {e : Event T}

/-- What an event does to the flag -/
def Event.flag : Event T → Bool → Bool
  | .waker _ .set, _ => true
  | .waiter (.clear _), _ => false
  | _, ready => ready

theorem pending_concat (es : List (Event T)) (e : Event T) :
    pending (es ++ [e]) = e.count (pending es) := by
  rw [pending, List.foldl_append]
  rfl

/-- What the waiting thread knows from what it did last -/
structure Knows (es : List (Event T)) (s : State T) : Prop where
  timedOut : s.waiter = .testing true → s.expired = true
  clearing : s.waiter = .clearing →
    Last (.test s.ready) es ∧ (s.ready = false → s.expired = true)
  unlocking : s.waiter = .unlocking → ∃ ready before after,
    es = before ++ .waiter (.clear ready) :: after ∧ (∀ f ∈ after, f.Free) ∧
      (if ready then 0 < pending before else s.expired = true)

theorem Knows.of_at {w : Waiter} (hat : t.waiter = w)
    (hw : w ≠ .testing true ∧ w ≠ .clearing ∧ w ≠ .unlocking) : Knows es t where
  timedOut h := absurd (hat.symm.trans h) hw.1
  clearing h := absurd (hat.symm.trans h) hw.2.1
  unlocking h := absurd (hat.symm.trans h) hw.2.2

theorem Knows.of_not_holds (h : t.waiter.holds = false) : Knows es t := by
  refine .of_at rfl ⟨?_, ?_, ?_⟩ <;>
    · intro hat
      rw [hat] at h
      cases h

theorem Knows.concat (h : Knows es s) (hfree : e.Free) (hready : t.ready = s.ready)
    (hwaiter : t.waiter = s.waiter) (hexpired : s.expired = true → t.expired = true) :
    Knows (es ++ [e]) t where
  timedOut hat := hexpired (h.timedOut (hwaiter ▸ hat))
  clearing hat := by
    obtain ⟨hlast, htime⟩ := h.clearing (hwaiter ▸ hat)
    rw [hready]
    exact ⟨hlast.concat hfree, fun hnot => hexpired (htime hnot)⟩
  unlocking hat := by
    obtain ⟨ready, before, after, rfl, hafter, hknown⟩ := h.unlocking (hwaiter ▸ hat)
    refine ⟨ready, before, after ++ [e], by simp, fun f hf => ?_, ?_⟩
    · rcases List.mem_append.1 hf with hf | hf
      · exact hafter f hf
      · rwa [List.mem_singleton.1 hf]
    · cases ready with
      | true => exact hknown
      | false => exact hexpired hknown

structure Inv (es : List (Event T)) (s : State T) : Prop where
  guards : Guards s.condMutex s.holds
  ready : s.ready = true ↔ 0 < pending es
  knows : Knows es s

theorem inv_start : Inv [] (start : State T) where
  guards
    | .waiter => ⟨fun h => (by cases h), fun h => (by cases h)⟩
    | .waker _ => ⟨fun h => (by cases h), fun h => (by cases h)⟩
  ready := ⟨fun h => (by cases h), fun h => absurd h (Nat.lt_irrefl 0)⟩
  knows := .of_at (w := .idle) rfl (by decide)

variable [DecidableEq T]

theorem ready_step (hstep : Step s e t) : t.ready = e.flag s.ready := by
  cases hstep <;> rfl

/-- Only the waiting thread clears the flag. -/
theorem clears (hstep : Step s e t) (hs : s.ready = true) (ht : t.ready = false) :
    e = .waiter (.clear true) := by
  cases hstep with
  | clear _ hready =>
    rw [hs] at hready
    rw [hready]
  | wakerSet _ => cases ht
  | _ => exact absurd (hs.symm.trans ht) (by decide)

/-- The flag says whether it has been set since it was last consumed. -/
theorem ready_iff_step (h : s.ready = true ↔ 0 < pending es) (hstep : Step s e t) :
    t.ready = true ↔ 0 < pending (es ++ [e]) := by
  rw [ready_step hstep, pending_concat]
  cases hstep with
  | @clear ready _ hready =>
    cases ready with
    | true => exact ⟨fun hflag => (by cases hflag), fun hpos => absurd hpos (Nat.lt_irrefl 0)⟩
    | false =>
      rw [hready] at h
      exact h
  | wakerSet _ => exact ⟨fun _ => Nat.succ_pos _, fun _ => rfl⟩
  | _ => exact h

/-- While the waiting thread holds the lock, the others do nothing that needs it. -/
theorem free_of_holds (hguards : Guards s.condMutex s.holds) (hstep : Step s e t)
    (he : e.ofWaiter = none) (hheld : t.waiter.holds = true) :
    e.Free ∧ t.ready = s.ready ∧ t.waiter = s.waiter ∧ (s.expired = true → t.expired = true) := by
  have howner (hs : s.waiter.holds = true) : s.condMutex = some .waiter := (hguards .waiter).2 hs
  have hother (i : T) (hs : s.waiter.holds = true) (hi : (s.waker i).holds = true) : False := by
    have hi := (hguards (.waker i)).2 hi
    rw [howner hs] at hi
    cases hi
  cases hstep with
  | wakerCall _ => exact ⟨trivial, rfl, rfl, id⟩
  | wakerLock _ hfree =>
    rw [howner hheld] at hfree
    cases hfree
  | wakerSet hat => exact (hother _ hheld (congrArg Waker.holds hat)).elim
  | wakerUnlock hat => exact (hother _ hheld (congrArg Waker.holds hat)).elim
  | wakerNotify _ =>
    refine ⟨trivial, rfl, ?_, id⟩
    change (notified s.waiter).holds = true at hheld
    change notified s.waiter = s.waiter
    cases hw : s.waiter with
    | blocked => rw [hw] at hheld; cases hheld
    | _ => rfl
  | expire _ => exact ⟨trivial, rfl, rfl, fun _ => rfl⟩
  | _ => cases he

theorem Knows.step (h : Knows es s) (hguards : Guards s.condMutex s.holds)
    (hready : s.ready = true ↔ 0 < pending es) (hstep : Step s e t) : Knows (es ++ [e]) t := by
  by_cases hheld : t.waiter.holds = true
  case neg => exact .of_not_holds (Bool.eq_false_iff.2 hheld)
  by_cases he : e.ofWaiter = none
  · obtain ⟨hfree, hflag, hwaiter, hexpired⟩ := free_of_holds hguards hstep he hheld
    exact h.concat hfree hflag hwaiter hexpired
  cases hstep with
  | lock _ _ => exact .of_at (w := .testing false) rfl (by decide)
  | testReady _ hset =>
    refine ⟨nofun, fun _ => ⟨?_, fun hnot => ?_⟩, nofun⟩
    · change Last (.test s.ready) _
      rw [hset]
      exact Last.intro _ es
    · exact absurd (hset.symm.trans hnot) (by decide)
  | testTimedOut hat hset =>
    refine ⟨nofun, fun _ => ⟨?_, fun _ => h.timedOut hat⟩, nofun⟩
    change Last (.test s.ready) _
    rw [hset]
    exact Last.intro _ es
  | testAgain _ _ => exact .of_at (w := .blocking) rfl (by decide)
  | relock _ _ htime =>
    refine ⟨fun hat => ?_, nofun, nofun⟩
    cases hat
    exact htime rfl
  | @clear ready hat hset =>
    refine ⟨nofun, nofun, fun _ => ⟨ready, es, [], rfl, by simp, ?_⟩⟩
    cases ready with
    | true => exact hready.1 hset
    | false => exact (h.clearing hat).2 hset
  | call _ => cases hheld
  | block _ => cases hheld
  | wake _ => cases hheld
  | unlock _ => cases hheld
  | _ => exact absurd rfl he

end History

section Awaited

variable {es : List (Event T)} {s t : State T} {e : Event T}

/-- A thread that has seen the flag reset blocks, and it does not stay blocked once the flag is set:
a notification is on its way. -/
structure Awaited (s : State T) : Prop where
  blocking : s.waiter = .blocking → s.ready = false
  blocked : s.waiter = .blocked → s.ready = true →
    ∃ i, s.waker i = .unlocking ∨ s.waker i = .notifying

theorem Awaited.of_at {w : Waiter} (hat : s.waiter = w) (hw : w ≠ .blocking ∧ w ≠ .blocked) :
    Awaited s where
  blocking h := absurd (hat.symm.trans h) hw.1
  blocked h := absurd (hat.symm.trans h) hw.2

variable [DecidableEq T]

theorem Awaited.step (h : Awaited s) (hguards : Guards s.condMutex s.holds) (hstep : Step s e t) :
    Awaited t := by
  have hkeep (i : T) (w : Waker) (hat : s.waker i ≠ .unlocking ∧ s.waker i ≠ .notifying)
      (hpending : ∃ j, s.waker j = .unlocking ∨ s.waker j = .notifying) :
      ∃ j, (s.setWaker i w).waker j = .unlocking ∨ (s.setWaker i w).waker j = .notifying := by
    obtain ⟨j, hj⟩ := hpending
    have hne : j ≠ i := by
      rintro rfl
      exact hj.elim hat.1 hat.2
    refine ⟨j, ?_⟩
    change Function.update s.waker i w j = _ ∨ Function.update s.waker i w j = _
    rwa [Function.update_of_ne hne]
  cases hstep with
  | call _ => exact .of_at (w := .locking) rfl (by decide)
  | @lock _ _ => exact .of_at (w := .testing false) rfl (by decide)
  | testReady _ _ => exact .of_at (w := .clearing) rfl (by decide)
  | testTimedOut _ _ => exact .of_at (w := .clearing) rfl (by decide)
  | testAgain _ hset => exact ⟨fun _ => hset, fun hat => by cases hat⟩
  | block hat =>
    refine ⟨fun hat' => (by cases hat'), fun _ hset => ?_⟩
    exact absurd ((h.blocking hat).symm.trans hset) (by decide)
  | wake _ => exact .of_at (w := .relocking) rfl (by decide)
  | @relock timedOut _ _ _ => exact .of_at (w := .testing timedOut) rfl (by simp)
  | clear _ _ => exact .of_at (w := .unlocking) rfl (by decide)
  | unlock _ => exact .of_at (w := .idle) rfl (by decide)
  | @wakerCall i hat =>
    exact ⟨h.blocking, fun hw hset => hkeep i _ (by simp [hat]) (h.blocked hw hset)⟩
  | @wakerLock i hat _ =>
    exact ⟨h.blocking, fun hw hset => hkeep i _ (by simp [hat]) (h.blocked hw hset)⟩
  | @wakerSet i hat =>
    refine ⟨fun hw => ?_, fun _ _ => ⟨i, .inl (Function.update_self ..)⟩⟩
    have howner := (hguards .waiter).2 (congrArg Waiter.holds hw)
    rw [(hguards (.waker i)).2 (congrArg Waker.holds hat)] at howner
    cases howner
  | @wakerUnlock i hat => exact ⟨h.blocking, fun _ _ => ⟨i, .inr (Function.update_self ..)⟩⟩
  | wakerNotify _ =>
    have hne : notified s.waiter ≠ .blocked := by cases s.waiter <;> simp [notified]
    refine ⟨fun hw => ?_, fun hw => absurd hw hne⟩
    change notified s.waiter = .blocking at hw
    cases hat : s.waiter with
    | blocking => exact h.blocking hat
    | _ => rw [hat] at hw; cases hw
  | expire _ => exact ⟨h.blocking, h.blocked⟩

/-- No wake-up is lost on a thread that is about to block. -/
theorem awaited (hrun : Runs Step start es s) : Awaited s := by
  have hstep (_ : List (Event T)) (s : State T) (e : Event T) (t : State T)
      (h : Guards s.condMutex s.holds ∧ Awaited s) (hst : Step s e t) :
      Guards t.condMutex t.holds ∧ Awaited t :=
    ⟨guards_step h.1 hst, h.2.step h.1 hst⟩
  have hstart : Guards (start : State T).condMutex start.holds ∧ Awaited (start : State T) :=
    ⟨inv_start.guards, .of_at (w := .idle) rfl (by decide)⟩
  exact (@Runs.invariant _ _ _ _ _ (fun _ s => Guards s.condMutex s.holds ∧ Awaited s) [] _
    hstep hrun hstart).2

end Awaited

section Next

variable {es : List (Event T)} {s t : State T} {e : Event T}

/-- What the waiting thread does -/
def waits (es : List (Event T)) : List WaitEvent := es.filterMap Event.ofWaiter

/-- A whole `waitForWakeUp` that does not block -/
def atOnce : List WaitEvent := [.call, .lock, .test true, .clear true, .unlock]

/-- Where the waiting thread is after it has done the first part of `atOnce` -/
inductive Phase : List WaitEvent → State T → Prop
  | idle {s : State T} : s.waiter = .idle → s.ready = true → Phase [] s
  | locking {s : State T} : s.waiter = .locking → s.ready = true → Phase [.call] s
  | testing {s : State T} : s.waiter = .testing false → s.ready = true → Phase [.call, .lock] s
  | clearing {s : State T} :
      s.waiter = .clearing → s.ready = true → Phase [.call, .lock, .test true] s
  | unlocking {s : State T} :
      s.waiter = .unlocking → Phase [.call, .lock, .test true, .clear true] s
  | returned {s : State T} (rest : List WaitEvent) : Phase (atOnce ++ rest) s

theorem Phase.other {ws : List WaitEvent} (h : Phase ws s)
    (hwaiter : s.waiter ≠ .blocked → t.waiter = s.waiter)
    (hready : s.ready = true → t.ready = true) : Phase ws t := by
  have hat (w : Waiter) (hw : s.waiter = w) (hne : w ≠ .blocked) : t.waiter = w := by
    rw [hwaiter (by rwa [hw]), hw]
  cases h with
  | idle hw hset => exact .idle (hat _ hw (by decide)) (hready hset)
  | locking hw hset => exact .locking (hat _ hw (by decide)) (hready hset)
  | testing hw hset => exact .testing (hat _ hw (by decide)) (hready hset)
  | clearing hw hset => exact .clearing (hat _ hw (by decide)) (hready hset)
  | unlocking hw => exact .unlocking (hat _ hw (by decide))
  | returned rest => exact .returned rest

variable [DecidableEq T]

theorem other_step (hstep : Step s e t) (he : e.ofWaiter = none) :
    (s.waiter ≠ .blocked → t.waiter = s.waiter) ∧ (s.ready = true → t.ready = true) := by
  cases hstep with
  | wakerCall _ => exact ⟨fun _ => rfl, id⟩
  | wakerLock _ _ => exact ⟨fun _ => rfl, id⟩
  | wakerSet _ => exact ⟨fun _ => rfl, fun _ => rfl⟩
  | wakerUnlock _ => exact ⟨fun _ => rfl, id⟩
  | wakerNotify _ =>
    refine ⟨fun hne => ?_, id⟩
    change notified s.waiter = s.waiter
    cases hw : s.waiter with
    | blocked => exact absurd hw hne
    | _ => rfl
  | expire _ => exact ⟨fun _ => rfl, id⟩
  | _ => cases he

/-- When it finds the flag set, the waiting thread has only one way to go on. -/
theorem Phase.waiter {ws : List WaitEvent} {w : WaitEvent} (h : Phase ws s)
    (hstep : Step s (.waiter w) t) : Phase (ws ++ [w]) t := by
  cases h with
  | idle hw hset =>
    cases hstep with
    | call _ => exact .locking rfl hset
    | _ => simp_all
  | locking hw hset =>
    cases hstep with
    | lock _ _ => exact .testing rfl hset
    | _ => simp_all
  | testing hw hset =>
    cases hstep with
    | testReady _ _ => exact .clearing rfl hset
    | _ => simp_all
  | clearing hw hset =>
    cases hstep with
    | clear _ hready =>
      rw [hset] at hready
      subst hready
      exact .unlocking rfl
    | _ => simp_all
  | unlocking hw =>
    cases hstep with
    | unlock _ => exact .returned []
    | _ => simp_all
  | returned rest =>
    rw [List.append_assoc]
    exact .returned (rest ++ [w])

theorem Phase.step {ws : List WaitEvent} (h : Phase ws s) (hstep : Step s e t) :
    Phase (ws ++ e.ofWaiter.toList) t := by
  cases he : e.ofWaiter with
  | none =>
    rw [Option.toList_none, List.append_nil]
    exact h.other (other_step hstep he).1 (other_step hstep he).2
  | some w =>
    cases e with
    | waiter w' =>
      cases he
      exact h.waiter hstep
    | _ => cases he

/-- The waiting thread can go on to do `ws`, in at most `n` steps of all parties together. -/
def CanDo (s : State T) (n : Nat) (ws : List WaitEvent) : Prop :=
  ∃ es t, Runs Step s es t ∧ es.length ≤ n ∧ waits es = ws

theorem CanDo.nil (s : State T) : CanDo s 0 [] := ⟨[], s, .refl, Nat.le_refl 0, rfl⟩

theorem CanDo.head {n : Nat} {ws : List WaitEvent} (h : CanDo t n ws) (hstep : Step s e t) :
    CanDo s (n + 1) (e.ofWaiter.toList ++ ws) := by
  obtain ⟨es, u, hrun, hlen, rfl⟩ := h
  refine ⟨e :: es, u, .head hstep hrun, Nat.succ_le_succ hlen, ?_⟩
  rw [waits, List.filterMap_cons]
  cases e.ofWaiter <;> rfl

theorem CanDo.mono {m n : Nat} {ws : List WaitEvent} (h : CanDo s m ws) (hle : m ≤ n) :
    CanDo s n ws := by
  obtain ⟨es, t, hrun, hlen, hws⟩ := h
  exact ⟨es, t, hrun, Nat.le_trans hlen hle, hws⟩

theorem canDo_unlocking (hw : s.waiter = .unlocking) : CanDo s 1 [.unlock] :=
  (CanDo.nil _).head (.unlock hw)

theorem canDo_clearing (hw : s.waiter = .clearing) (hset : s.ready = true) :
    CanDo s 2 [.clear true, .unlock] :=
  (canDo_unlocking rfl).head (.clear hw hset)

theorem canDo_testing (hw : s.waiter = .testing false) (hset : s.ready = true) :
    CanDo s 3 [.test true, .clear true, .unlock] :=
  (canDo_clearing (by rfl) (by exact hset)).head (.testReady hw hset)

theorem canDo_lock (hw : s.waiter = .locking) (hset : s.ready = true) (hfree : s.condMutex = none) :
    CanDo s 4 [.lock, .test true, .clear true, .unlock] :=
  (canDo_testing (by rfl) (by exact hset)).head (.lock hw hfree)

/-- A thread that holds the lock in `wakeUp` needs two steps at most to give it back. -/
theorem canDo_locking (hguards : Guards s.condMutex s.holds) (hw : s.waiter = .locking)
    (hset : s.ready = true) : CanDo s 6 [.lock, .test true, .clear true, .unlock] := by
  have hunlocking (u : State T) (i : T) (hu : u.waiter = .locking) (hready : u.ready = true)
      (hat : u.waker i = .unlocking) : CanDo u 5 [.lock, .test true, .clear true, .unlock] :=
    (canDo_lock (by exact hu) (by exact hready) (by rfl)).head (.wakerUnlock hat)
  cases howner : s.condMutex with
  | none => exact (canDo_lock hw hset howner).mono (by decide)
  | some p =>
    have hheld := (hguards p).1 howner
    cases p with
    | waiter =>
      rw [State.holds, hw] at hheld
      cases hheld
    | waker i =>
      rw [State.holds] at hheld
      cases hat : s.waker i with
      | setting =>
        exact (hunlocking _ i (by exact hw) (by rfl) (Function.update_self ..)).head (.wakerSet hat)
      | unlocking => exact (hunlocking s i hw hset hat).mono (by decide)
      | _ => rw [hat] at hheld; cases hheld

theorem Phase.canDo {ws : List WaitEvent} (h : Phase ws s) (hguards : Guards s.condMutex s.holds) :
    atOnce <+: ws ∨ ∃ rest, ws ++ rest = atOnce ∧ CanDo s 7 rest := by
  cases h with
  | idle hw hset =>
    have hcall : Step s (.waiter .call) { s with waiter := .locking, expired := false } := .call hw
    exact .inr ⟨_, rfl, (canDo_locking (guards_step hguards hcall) rfl hset).head hcall⟩
  | locking hw hset => exact .inr ⟨_, rfl, (canDo_locking hguards hw hset).mono (by decide)⟩
  | testing hw hset => exact .inr ⟨_, rfl, (canDo_testing hw hset).mono (by decide)⟩
  | clearing hw hset => exact .inr ⟨_, rfl, (canDo_clearing hw hset).mono (by decide)⟩
  | unlocking hw => exact .inr ⟨_, rfl, (canDo_unlocking hw).mono (by decide)⟩
  | returned rest => exact .inl ⟨rest, rfl⟩

/-- What holds after the events `es`, which led to the state `s`, and of all that can follow -/
structure LosesNothing (es : List (Event T)) (s : State T) : Prop where
  /-- The flag is cleared by a call that found it set and has kept the lock since. -/
  cleared : ∀ e t, Step s e t → s.ready = true → t.ready = false →
    e = .waiter (.clear true) ∧ s.condMutex = some .waiter ∧ Last (.test true) es
  /-- After a call of `wakeUp` while no wait is running, the next wait does not block, and it can
  return within seven steps, whatever has happened. -/
  next : ∀ i t, Step s (.waker i .set) t → s.waiter = .idle → ∀ fs u, Runs Step t fs u →
    atOnce <+: waits fs ∨ ∃ rest, waits fs ++ rest = atOnce ∧ CanDo u 7 rest
  /-- A wait that returns before its time-out has consumed what was pending. -/
  consumed : ∀ t, Step s (.waiter .unlock) t → s.expired = false → ∃ before after,
    es = before ++ .waiter (.clear true) :: after ∧ (∀ f ∈ after, f.Free) ∧ 0 < pending before
  /-- A blocked wait whose flag has been set is going to be notified. -/
  awaited : Awaited s

theorem Inv.step (h : Inv es s) (hstep : Step s e t) : Inv (es ++ [e]) t where
  guards := guards_step h.guards hstep
  ready := ready_iff_step h.ready hstep
  knows := h.knows.step h.guards h.ready hstep

theorem Inv.runs {fs : List (Event T)} (h : Inv es s) (hrun : Runs Step s fs t) :
    Inv (es ++ fs) t :=
  hrun.invariant (fun _ _ _ _ h hstep => h.step hstep) h

theorem Phase.runs {ws : List WaitEvent} {fs : List (Event T)} (h : Phase ws s)
    (hrun : Runs Step s fs t) : Phase (ws ++ waits fs) t := by
  have hstep (es : List (Event T)) (s : State T) (e : Event T) (t : State T)
      (h : Phase (ws ++ waits es) s) (hst : Step s e t) : Phase (ws ++ waits (es ++ [e])) t := by
    have hphase := h.step hst
    rw [waits, List.filterMap_append, ← List.append_assoc]
    cases he : e.ofWaiter <;> simpa [he, waits] using hphase
  have hphase : Phase (ws ++ waits ([] : List (Event T))) s := by simpa [waits] using h
  exact hrun.invariant (I := fun es s => Phase (ws ++ waits es) s) hstep hphase

theorem losesNothing (hrun : Runs Step start es s) : LosesNothing es s where
  cleared e t hstep hs ht := by
    have hinv := inv_start.runs hrun
    obtain rfl := clears hstep hs ht
    cases hstep with
    | clear hat _ =>
      obtain ⟨hlast, _⟩ := hinv.knows.clearing hat
      rw [hs] at hlast
      exact ⟨rfl, (hinv.guards .waiter).2 (congrArg Waiter.holds hat), hlast⟩
  next i t hstep hidle fs u hfs := by
    have hinv := (inv_start.runs hrun).step hstep
    have hphase : Phase [] t := by
      cases hstep with
      | wakerSet _ => exact .idle hidle rfl
    exact (hphase.runs hfs).canDo (hinv.runs hfs).guards
  consumed t hstep hexpired := by
    have hinv := inv_start.runs hrun
    cases hstep with
    | unlock hat =>
      obtain ⟨ready, before, after, hes, hfree, hknown⟩ := hinv.knows.unlocking hat
      cases ready with
      | true => exact ⟨before, after, hes, hfree, hknown⟩
      | false => exact absurd (hexpired.symm.trans hknown) (by decide)
  awaited := awaited hrun

/-- The waiting thread blocks, and a call of `wakeUp` ends the wait. -/
theorem losesNothing_blocked :
    ∃ s : State Bool, LosesNothing
      [.waiter .call, .waiter .lock, .waiter (.test false), .waker true .call, .waiter .block,
        .waker true .lock, .waker true .set, .waker true .unlock, .waker true .notify,
        .waiter (.relock false), .waiter (.test true), .waiter (.clear true)] s :=
  ⟨_, losesNothing (.head (.call rfl) (.head (.lock rfl rfl) (.head (.testAgain rfl rfl)
    (.head (.wakerCall rfl) (.head (.block rfl) (.head (.wakerLock rfl rfl) (.head (.wakerSet rfl)
    (.head (.wakerUnlock rfl) (.head (.wakerNotify rfl) (.head (.relock rfl rfl nofun)
    (.head (.testReady rfl rfl) (.single (.clear rfl rfl)))))))))))))⟩

end Next

end Utlib.Wakeable
