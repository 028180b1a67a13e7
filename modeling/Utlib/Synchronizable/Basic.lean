import Mathlib.Data.List.Basic
import Mathlib.Logic.Function.Basic
import Utlib.Transitions

/-! `ReentrantMutex`, `AutoMutex` and the blocks of `SYNCHRONIZED` (concurrency/ReentrantMutex.h,
concurrency/AutoMutex.h, abilities/Synchronizable.h), in any number of threads. -/

namespace Utlib

open Transitions

universe u

/-- A thread that holds the mutex may take it `again`. -/
inductive ReentrantMutex (T : Type u)
  | free
  | held (owner : T) (again : ℕ)

namespace ReentrantMutex

variable {T : Type u} [DecidableEq T] {m m' : ReentrantMutex T} {t t' : T}

/-- Nothing comes out while the caller has to wait. -/
def lock (t : T) : ReentrantMutex T → Option (ReentrantMutex T)
  | free => some (held t 0)
  | held owner again => if owner = t then some (held owner (again + 1)) else none

/-- Nothing comes out when the mutex is not the caller's, which is undefined. -/
def unlock (t : T) : ReentrantMutex T → Option (ReentrantMutex T)
  | free => none
  | held owner 0 => if owner = t then some free else none
  | held owner (again + 1) => if owner = t then some (held owner again) else none

/-- How many times a thread has taken the mutex and not given it back -/
def holds (t : T) : ReentrantMutex T → ℕ
  | free => 0
  | held owner again => if owner = t then again + 1 else 0

theorem holds_exclusive (h : 0 < m.holds t) (h' : 0 < m.holds t') : t = t' := by
  cases m with
  | free => exact absurd h (Nat.lt_irrefl 0)
  | held owner again =>
    rw [holds] at h h'
    split at h
    · next heq =>
      split at h'
      · next heq' => exact heq.symm.trans heq'
      · exact absurd h' (Nat.lt_irrefl 0)
    · exact absurd h (Nat.lt_irrefl 0)

theorem eq_free_iff : m = free ↔ ∀ t, m.holds t = 0 := by
  cases m with
  | free => exact iff_of_true rfl fun _ => rfl
  | held owner again =>
    refine iff_of_false (fun h => nomatch h) fun h => ?_
    have howner := h owner
    rw [holds, if_pos rfl] at howner
    omega

theorem lock_holds (h : m.lock t = some m') :
    m'.holds t = m.holds t + 1 ∧ ∀ t' ≠ t, m'.holds t' = m.holds t' := by
  cases m with
  | free =>
    cases h
    exact ⟨if_pos rfl, fun t' hne => if_neg hne.symm⟩
  | held owner again =>
    rw [lock] at h
    split at h
    · next heq =>
      cases h
      subst heq
      exact ⟨by simp only [holds, if_true], fun t' hne => by simp only [holds, if_neg hne.symm]⟩
    · cases h

theorem unlock_holds (h : m.unlock t = some m') :
    m.holds t = m'.holds t + 1 ∧ ∀ t' ≠ t, m'.holds t' = m.holds t' := by
  cases m with
  | free => cases h
  | held owner again =>
    cases again with
    | zero =>
      rw [unlock] at h
      split at h
      · next heq =>
        cases h
        subst heq
        exact ⟨by simp only [holds, if_true], fun t' hne => by simp only [holds, if_neg hne.symm]⟩
      · cases h
    | succ again =>
      rw [unlock] at h
      split at h
      · next heq =>
        cases h
        subst heq
        exact ⟨by simp only [holds, if_true], fun t' hne => by simp only [holds, if_neg hne.symm]⟩
      · cases h

/-- Nobody waits for a mutex that nobody else holds. -/
theorem lock_of_others (h : ∀ t' ≠ t, m.holds t' = 0) : ∃ m', m.lock t = some m' := by
  cases m with
  | free => exact ⟨_, rfl⟩
  | held owner again =>
    have howner : owner = t := by
      by_contra hne
      have hzero := h owner hne
      rw [holds, if_pos rfl] at hzero
      omega
    exact ⟨_, if_pos howner⟩

theorem unlock_of_holds (h : 0 < m.holds t) : ∃ m', m.unlock t = some m' := by
  cases m with
  | free => exact absurd h (Nat.lt_irrefl 0)
  | held owner again =>
    have howner : owner = t := by
      by_contra hne
      rw [holds, if_neg hne] at h
      exact Nat.lt_irrefl 0 h
    cases again with
    | zero => exact ⟨_, if_pos howner⟩
    | succ again => exact ⟨_, if_pos howner⟩

end ReentrantMutex

namespace Synchronizable

/-- The code of a thread. Members are the data that the mutex is for; the rest of the data is shared
by other means. What is read can decide how the code goes on. -/
inductive Code (P U V : Type u)
  | ret (v : V)
  | throw
  | member (f : P → P) (next : P → Code P U V)
  | other (f : U → U) (next : U → Code P U V)
  | synchronized (body : Code P U V) (next : V → Code P U V)
  | attempt (body onThrow : Code P U V) (next : V → Code P U V)

/-- How a block is left -/
inductive Outcome (V : Type u)
  | value (v : V)
  | thrown

/-- What has been entered and not yet left -/
inductive Frame (P U V : Type u)
  | autoMutex (next : V → Code P U V)
  | handler (onThrow : Code P U V) (next : V → Code P U V)

structure Thread (P U V : Type u) where
  code : Code P U V
  frames : List (Frame P U V)

inductive Effect
  | keep
  | lock
  | unlock

variable {T P U V : Type u}

/-- What runs after a frame has been left -/
def Frame.resume : Frame P U V → Outcome V → Code P U V
  | autoMutex next, .value v => next v
  | autoMutex _, .thrown => .throw
  | handler _ next, .value v => next v
  | handler onThrow _, .thrown => onThrow

/-- The destructor gives the mutex back, also while an exception unwinds the stack. -/
def Frame.effect : Frame P U V → Effect
  | autoMutex _ => .unlock
  | handler _ _ => .keep

/-- How many blocks of `SYNCHRONIZED` have been entered and not yet left -/
def entered (frames : List (Frame P U V)) : ℕ :=
  frames.countP fun
    | .autoMutex _ => true
    | .handler _ _ => false

@[simp]
theorem entered_autoMutex (next : V → Code P U V) (frames : List (Frame P U V)) :
    entered (.autoMutex next :: frames) = entered frames + 1 := List.countP_cons_of_pos rfl

@[simp]
theorem entered_handler (onThrow : Code P U V) (next : V → Code P U V)
    (frames : List (Frame P U V)) : entered (.handler onThrow next :: frames) = entered frames :=
  List.countP_cons_of_neg Bool.false_ne_true

namespace Thread

def next : Thread P U V → P × U → Option (Effect × (P × U) × Thread P U V)
  | ⟨.member f next, frames⟩, d => some (.keep, (f d.1, d.2), ⟨next d.1, frames⟩)
  | ⟨.other f next, frames⟩, d => some (.keep, (d.1, f d.2), ⟨next d.2, frames⟩)
  | ⟨.synchronized body next, frames⟩, d => some (.lock, d, ⟨body, .autoMutex next :: frames⟩)
  | ⟨.attempt body onThrow next, frames⟩, d =>
    some (.keep, d, ⟨body, .handler onThrow next :: frames⟩)
  | ⟨.ret v, frame :: frames⟩, d => some (frame.effect, d, ⟨frame.resume (.value v), frames⟩)
  | ⟨.throw, frame :: frames⟩, d => some (frame.effect, d, ⟨frame.resume .thrown, frames⟩)
  | ⟨.ret _, []⟩, _ => none
  | ⟨.throw, []⟩, _ => none

def depth (th : Thread P U V) : ℕ := entered th.frames

def Finished (th : Thread P U V) : Prop :=
  th.frames = [] ∧ (th.code = .throw ∨ ∃ v, th.code = .ret v)

end Thread

structure State (T P U V : Type u) where
  mutex : ReentrantMutex T
  data : P × U
  thread : T → Thread P U V

section Put

variable [DecidableEq T] {s : State T P U V} {m : ReentrantMutex T} {d : P × U} {t t' : T}
  {th : Thread P U V}

def State.put (s : State T P U V) (m : ReentrantMutex T) (d : P × U) (t : T) (th : Thread P U V) :
    State T P U V := ⟨m, d, Function.update s.thread t th⟩

@[simp]
theorem State.mutex_put : (s.put m d t th).mutex = m := rfl

@[simp]
theorem State.data_put : (s.put m d t th).data = d := rfl

@[simp]
theorem State.thread_put_self : (s.put m d t th).thread t = th := Function.update_self _ _ _

theorem State.thread_put_of_ne (h : t' ≠ t) : (s.put m d t th).thread t' = s.thread t' :=
  Function.update_of_ne h _ _

end Put

def start (d : P × U) (program : T → Code P U V) : State T P U V :=
  ⟨.free, d, fun t => ⟨program t, []⟩⟩

section Step

variable [DecidableEq T]

def Effect.apply (t : T) : Effect → ReentrantMutex T → Option (ReentrantMutex T)
  | keep, m => some m
  | lock, m => m.lock t
  | unlock, m => m.unlock t

/-- One step of the thread `t`. Nothing comes out when it waits for the mutex or has finished. -/
def step (s : State T P U V) (t : T) : Option (State T P U V) := do
  let (e, d, th) ← (s.thread t).next s.data
  let m ← e.apply t s.mutex
  some (s.put m d t th)

def Step (s : State T P U V) (t : T) (s' : State T P U V) : Prop := step s t = some s'

variable {s s' : State T P U V} {t : T} {d d' : P × U} {e : Effect} {th th' : Thread P U V}

theorem step_cases (h : Step s t s') :
    ∃ e d th m, (s.thread t).next s.data = some (e, d, th) ∧ e.apply t s.mutex = some m ∧
      s' = s.put m d t th := by
  obtain ⟨⟨e, d, th⟩, hnext, h⟩ := Option.bind_eq_some_iff.1 h
  obtain ⟨m, hm, h⟩ := Option.bind_eq_some_iff.1 h
  exact ⟨e, d, th, m, hnext, hm, (Option.some.inj h).symm⟩

/-- Blocks are entered when the mutex is taken, and left when it is given back. -/
theorem depth_next (h : th.next d = some (e, d', th')) :
    match e with
    | .keep => th'.depth = th.depth
    | .lock => th'.depth = th.depth + 1
    | .unlock => th.depth = th'.depth + 1 := by
  obtain ⟨code, frames⟩ := th
  cases code with
  | member f next =>
    cases h
    rfl
  | other f next =>
    cases h
    rfl
  | synchronized body next =>
    cases h
    exact entered_autoMutex next frames
  | attempt body onThrow next =>
    cases h
    exact entered_handler onThrow next frames
  | ret v =>
    cases frames with
    | nil => cases h
    | cons frame frames =>
      cases frame with
      | autoMutex next =>
        cases h
        exact entered_autoMutex next frames
      | handler onThrow next =>
        cases h
        exact (entered_handler onThrow next frames).symm
  | throw =>
    cases frames with
    | nil => cases h
    | cons frame frames =>
      cases frame with
      | autoMutex next =>
        cases h
        exact entered_autoMutex next frames
      | handler onThrow next =>
        cases h
        exact (entered_handler onThrow next frames).symm

/-- The mutex is held as often as there are blocks to be left. -/
def Held (s : State T P U V) : Prop := ∀ t, s.mutex.holds t = (s.thread t).depth

theorem held_start (d : P × U) (program : T → Code P U V) : Held (start d program) := fun _ => rfl

theorem Held.step (h : Held s) (hstep : Step s t s') : Held s' := by
  obtain ⟨e, d, th, m, hnext, hm, rfl⟩ := step_cases hstep
  have hdepth := depth_next hnext
  have ht := h t
  intro t'
  have hother (heq : ∀ t' ≠ t, m.holds t' = s.mutex.holds t') (hne : t' ≠ t) :
      m.holds t' = ((s.put m d t th).thread t').depth := by
    rw [heq t' hne, State.thread_put_of_ne hne, h t']
  by_cases hne : t' = t
  · subst hne
    rw [State.mutex_put, State.thread_put_self]
    cases e with
    | keep =>
      cases hm
      exact ht.trans hdepth.symm
    | lock =>
      have hlock := (ReentrantMutex.lock_holds hm).1
      dsimp only at hdepth
      omega
    | unlock =>
      have hunlock := (ReentrantMutex.unlock_holds hm).1
      dsimp only at hdepth
      omega
  · cases e with
    | keep =>
      cases hm
      exact hother (fun _ _ => rfl) hne
    | lock => exact hother (ReentrantMutex.lock_holds hm).2 hne
    | unlock => exact hother (ReentrantMutex.unlock_holds hm).2 hne

theorem Held.run {ts : List T} (h : Held s) (hrun : Runs Step s ts s') : Held s' := by
  induction hrun with
  | refl => exact h
  | head hstep _ ih => exact ih (h.step hstep)

theorem Held.exclusive (h : Held s) {t t' : T} (ht : 0 < (s.thread t).depth)
    (ht' : 0 < (s.thread t').depth) : t = t' := by
  rw [← h] at ht ht'
  exact ReentrantMutex.holds_exclusive ht ht'

theorem next_eq_none_iff (th : Thread P U V) (d : P × U) : th.next d = none ↔ th.Finished := by
  obtain ⟨code, frames⟩ := th
  cases code with
  | ret v =>
    cases frames with
    | nil => exact iff_of_true rfl ⟨rfl, .inr ⟨v, rfl⟩⟩
    | cons frame frames => exact iff_of_false (fun h => nomatch h) fun h => nomatch h.1
  | throw =>
    cases frames with
    | nil => exact iff_of_true rfl ⟨rfl, .inl rfl⟩
    | cons frame frames => exact iff_of_false (fun h => nomatch h) fun h => nomatch h.1
  | member f next => exact iff_of_false (fun h => nomatch h) fun h => h.2.elim nofun nofun
  | other f next => exact iff_of_false (fun h => nomatch h) fun h => h.2.elim nofun nofun
  | synchronized body next => exact iff_of_false (fun h => nomatch h) fun h => h.2.elim nofun nofun
  | attempt body onThrow next =>
    exact iff_of_false (fun h => nomatch h) fun h => h.2.elim nofun nofun

/-- Only the entry into a block waits, and only while another thread is in one. -/
theorem Held.step_of_alone (h : Held s) (ht : ¬(s.thread t).Finished)
    (halone : ∀ t' ≠ t, (s.thread t').depth = 0) : ∃ s', Step s t s' := by
  obtain ⟨⟨e, d, th⟩, hnext⟩ := Option.ne_none_iff_exists'.1
    ((next_eq_none_iff (s.thread t) s.data).not.2 ht)
  have hdepth := depth_next hnext
  have hm : ∃ m, e.apply t s.mutex = some m := by
    cases e with
    | keep => exact ⟨_, rfl⟩
    | lock => exact ReentrantMutex.lock_of_others fun t' hne => (h t').trans (halone t' hne)
    | unlock =>
      refine ReentrantMutex.unlock_of_holds ?_
      dsimp only at hdepth
      rw [h t]
      omega
  obtain ⟨m, hm⟩ := hm
  refine ⟨s.put m d t th, ?_⟩
  rw [Step, Synchronizable.step, hnext, Option.bind_eq_bind, Option.bind_some]
  dsimp only
  rw [hm]
  rfl

/-- A thread in a block never waits. -/
theorem Held.step_of_inside (h : Held s) (ht : 0 < (s.thread t).depth) : ∃ s', Step s t s' := by
  refine h.step_of_alone (fun hfinished => ?_) fun t' hne => ?_
  · rw [Thread.depth, hfinished.1] at ht
    exact Nat.lt_irrefl 0 ht
  · by_contra hpos
    exact hne (h.exclusive (Nat.pos_of_ne_zero hpos) ht)

/-- At most one thread is in the blocks of an object, which it leaves in the end as often as it has
entered them, exceptions included. It never waits in them, and nobody waits when no thread is in
one. -/
theorem synchronized_exclusive (d : P × U) (program : T → Code P U V) {ts : List T}
    (h : Runs Step (start d program) ts s) :
    (∀ t t', 0 < (s.thread t).depth → 0 < (s.thread t').depth → t = t') ∧
      (∀ t, s.mutex.holds t = (s.thread t).depth) ∧
      (∀ t, 0 < (s.thread t).depth → ∃ s', Step s t s') ∧
      ((∀ t, (s.thread t).depth = 0) →
        s.mutex = .free ∧ ∀ t, ¬(s.thread t).Finished → ∃ s', Step s t s') := by
  have hheld := (held_start d program).run h
  refine ⟨fun t t' => hheld.exclusive, hheld, fun t => hheld.step_of_inside, fun hnone => ?_⟩
  refine ⟨ReentrantMutex.eq_free_iff.2 fun t => (hheld t).trans (hnone t), ?_⟩
  intro t ht
  exact hheld.step_of_alone ht fun t' _ => hnone t'

/-- One thread has counted and has been thrown out of two nested blocks. The other one has entered
both, the first of them before the exception was handled. -/
theorem synchronized_exclusive_entered :
    let body : Code ℕ ℕ ℕ := .synchronized (.member (· + 1) fun _ => .throw) .ret
    let program : Code ℕ ℕ ℕ := .attempt (.synchronized body .ret) (.ret 0) .ret
    let schedule := [true, false, true, true, true, true, true, false, true, false]
    ∃ s : State Bool ℕ ℕ ℕ, Runs Step (start (0, 0) fun _ => program) schedule s ∧
      (s.data = (1, 0) ∧ (s.thread true).Finished ∧ (s.thread false).depth = 2) ∧
      (∀ t t', 0 < (s.thread t).depth → 0 < (s.thread t').depth → t = t') ∧
      (∀ t, s.mutex.holds t = (s.thread t).depth) ∧
      (∀ t, 0 < (s.thread t).depth → ∃ s', Step s t s') ∧
      ((∀ t, (s.thread t).depth = 0) →
        s.mutex = .free ∧ ∀ t, ¬(s.thread t).Finished → ∃ s', Step s t s') := by
  intro body program schedule
  have hrun : Runs Step (start (0, 0) fun _ : Bool => program) schedule _ :=
    .head rfl (.head rfl (.head rfl (.head rfl (.head rfl (.head rfl (.head rfl (.head rfl
      (.head rfl (.single rfl)))))))))
  exact ⟨_, hrun, ⟨rfl, ⟨rfl, .inr ⟨0, rfl⟩⟩, rfl⟩, synchronized_exclusive _ _ hrun⟩

end Step

end Synchronizable

end Utlib
