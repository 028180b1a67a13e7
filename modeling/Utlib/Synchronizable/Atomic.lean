import Utlib.Synchronizable.Basic

/-! Blocks of `SYNCHRONIZED` as single steps. -/

namespace Utlib.Synchronizable

open Transitions

universe u

variable {T P U V : Type u}

/-- What code does when nothing else runs -/
def Code.eval : Code P U V → P × U → Outcome V × (P × U)
  | ret v, d => (.value v, d)
  | throw, d => (.thrown, d)
  | member f next, d => (next d.1).eval (f d.1, d.2)
  | other f next, d => (next d.2).eval (d.1, f d.2)
  | synchronized body next, d =>
    match body.eval d with
    | (.value v, d) => (next v).eval d
    | (.thrown, d) => (.thrown, d)
  | attempt body onThrow next, d =>
    match body.eval d with
    | (.value v, d) => (next v).eval d
    | (.thrown, d) => onThrow.eval d

/-- The rest of the outermost block, up to its end -/
def finish : Code P U V → List (Frame P U V) → P × U → Thread P U V × (P × U)
  | code, [], d => (⟨code, []⟩, d)
  | code, frame :: frames, d =>
    let r := code.eval d
    if entered frames = 0 then (⟨frame.resume r.1, frames⟩, r.2)
    else finish (frame.resume r.1) frames r.2

def Thread.leave (th : Thread P U V) (d : P × U) : Thread P U V × (P × U) :=
  finish th.code th.frames d

section Leave

variable {th th' : Thread P U V} {d d' : P × U} {e : Effect}

theorem eval_synchronized (body : Code P U V) (next : V → Code P U V) (d : P × U) :
    (Code.synchronized body next).eval d =
      ((Frame.autoMutex next).resume (body.eval d).1).eval (body.eval d).2 := by
  rw [Code.eval]
  split
  · next heq => rw [heq]; rfl
  · next heq => rw [heq]; rfl

theorem eval_attempt (body onThrow : Code P U V) (next : V → Code P U V) (d : P × U) :
    (Code.attempt body onThrow next).eval d =
      ((Frame.handler onThrow next).resume (body.eval d).1).eval (body.eval d).2 := by
  rw [Code.eval]
  split
  · next heq => rw [heq]; rfl
  · next heq => rw [heq]; rfl

/-- What remains of a block does not change when a part of it has been done. -/
theorem leave_next (h : th.next d = some (e, d', th')) (hin : 0 < th.depth) (hin' : 0 < th'.depth) :
    th.leave d = th'.leave d' := by
  obtain ⟨code, frames⟩ := th
  cases frames with
  | nil => exact absurd hin (Nat.lt_irrefl 0)
  | cons frame frames =>
    cases code with
    | ret v =>
      cases h
      exact if_neg (Nat.pos_iff_ne_zero.1 hin')
    | throw =>
      cases h
      exact if_neg (Nat.pos_iff_ne_zero.1 hin')
    | member f next =>
      cases h
      rfl
    | other f next =>
      cases h
      rfl
    | synchronized body next =>
      cases h
      have hentered : entered (frame :: frames) ≠ 0 := Nat.pos_iff_ne_zero.1 hin
      rw [Thread.leave, Thread.leave, finish, finish, if_neg hentered, finish, eval_synchronized]
    | attempt body onThrow next =>
      cases h
      have hentered : entered (frame :: frames) ≠ 0 := Nat.pos_iff_ne_zero.1 hin
      rw [Thread.leave, Thread.leave, finish, finish, if_neg hentered, finish, eval_attempt]

/-- Nothing remains of a block that is left. -/
theorem leave_next_last (h : th.next d = some (e, d', th')) (hin : 0 < th.depth)
    (hout : th'.depth = 0) : d' = d ∧ ∀ d₀, th.leave d₀ = (th', d₀) := by
  obtain ⟨code, frames⟩ := th
  cases frames with
  | nil => exact absurd hin (Nat.lt_irrefl 0)
  | cons frame frames =>
    cases code with
    | ret v =>
      cases h
      exact ⟨rfl, fun d₀ => if_pos hout⟩
    | throw =>
      cases h
      exact ⟨rfl, fun d₀ => if_pos hout⟩
    | member f next =>
      cases h
      exact absurd hout (Nat.pos_iff_ne_zero.1 hin)
    | other f next =>
      cases h
      exact absurd hout (Nat.pos_iff_ne_zero.1 hin)
    | synchronized body next =>
      cases h
      rw [Thread.depth, entered_autoMutex] at hout
      exact absurd hout (Nat.succ_ne_zero _)
    | attempt body onThrow next =>
      cases h
      rw [Thread.depth, entered_handler] at hout
      exact absurd hout (Nat.pos_iff_ne_zero.1 hin)

end Leave

/-- At most `n` accesses to data that the mutex is not for -/
inductive Code.Bounded : ℕ → Code P U V → Prop
  | ret {n : ℕ} {v : V} : Bounded n (.ret v)
  | throw {n : ℕ} : Bounded n .throw
  | member {n : ℕ} {f : P → P} {next : P → Code P U V} :
      (∀ p, Bounded n (next p)) → Bounded n (.member f next)
  | other {n : ℕ} {f : U → U} {next : U → Code P U V} :
      (∀ u, Bounded n (next u)) → Bounded (n + 1) (.other f next)
  | synchronized {m n : ℕ} {body : Code P U V} {next : V → Code P U V} :
      Bounded m body → (∀ v, Bounded n (next v)) → Bounded (m + n) (.synchronized body next)
  | attempt {m n : ℕ} {body onThrow : Code P U V} {next : V → Code P U V} :
      Bounded m body → Bounded n onThrow → (∀ v, Bounded n (next v)) →
        Bounded (m + n) (.attempt body onThrow next)

/-- The same of what follows in a block -/
inductive FramesBounded : ℕ → List (Frame P U V) → Prop
  | last {n : ℕ} {frame : Frame P U V} {frames : List (Frame P U V)} :
      entered frames = 0 → FramesBounded n (frame :: frames)
  | inner {m n : ℕ} {frame : Frame P U V} {frames : List (Frame P U V)} :
      entered frames ≠ 0 → (∀ o, (frame.resume o).Bounded m) → FramesBounded n frames →
        FramesBounded (m + n) (frame :: frames)

def Thread.Within (n : ℕ) (th : Thread P U V) : Prop :=
  ∃ m k, m + k ≤ n ∧ th.code.Bounded m ∧ FramesBounded k th.frames

section Bounded

variable {th th' : Thread P U V} {d d' : P × U} {e : Effect} {n : ℕ} {p : P} {u : U}

theorem resume_autoMutex_bounded {next : V → Code P U V} (h : ∀ v, (next v).Bounded n)
    (o : Outcome V) : ((Frame.autoMutex next).resume o).Bounded n := by
  cases o with
  | value v => exact h v
  | thrown => exact .throw

theorem resume_handler_bounded {onThrow : Code P U V} {next : V → Code P U V}
    (h : onThrow.Bounded n) (h' : ∀ v, (next v).Bounded n) (o : Outcome V) :
    ((Frame.handler onThrow next).resume o).Bounded n := by
  cases o with
  | value v => exact h' v
  | thrown => exact h

/-- A step within a block leaves the other data alone, or it is one of the accesses to them. -/
theorem within_next (h : th.next (p, u) = some (e, d', th')) (hin : 0 < th.depth)
    (hin' : 0 < th'.depth) (hwithin : th.Within n) :
    (th'.Within n ∧ d'.2 = u ∧ ∀ u', th.next (p, u') = some (e, (d'.1, u'), th')) ∨
      (d'.1 = p ∧ ∃ m, n = m + 1 ∧ th'.Within m) := by
  obtain ⟨code, frames⟩ := th
  obtain ⟨m, k, hle, hcode, hframes⟩ := hwithin
  cases hcode with
  | ret =>
    cases frames with
    | nil => cases h
    | cons frame frames =>
      cases h
      cases hframes with
      | last hout => exact absurd hout (Nat.pos_iff_ne_zero.1 hin')
      | inner _ hresume hframes =>
        exact .inl ⟨⟨_, _, by omega, hresume _, hframes⟩, rfl, fun _ => rfl⟩
  | throw =>
    cases frames with
    | nil => cases h
    | cons frame frames =>
      cases h
      cases hframes with
      | last hout => exact absurd hout (Nat.pos_iff_ne_zero.1 hin')
      | inner _ hresume hframes =>
        exact .inl ⟨⟨_, _, by omega, hresume _, hframes⟩, rfl, fun _ => rfl⟩
  | member hnext =>
    cases h
    exact .inl ⟨⟨m, k, hle, hnext p, hframes⟩, rfl, fun _ => rfl⟩
  | other hnext =>
    cases h
    exact .inr ⟨rfl, n - 1, by omega, _, _, by omega, hnext u, hframes⟩
  | synchronized hbody hnext =>
    cases h
    exact .inl ⟨⟨_, _, by omega, hbody,
      .inner (Nat.pos_iff_ne_zero.1 hin) (resume_autoMutex_bounded hnext) hframes⟩, rfl,
        fun _ => rfl⟩
  | attempt hbody hthrow hnext =>
    cases h
    exact .inl ⟨⟨_, _, by omega, hbody,
      .inner (Nat.pos_iff_ne_zero.1 hin) (resume_handler_bounded hthrow hnext) hframes⟩, rfl,
        fun _ => rfl⟩

theorem eval_quiet {code : Code P U V} (h : code.Bounded n) (hn : n = 0) (p : P) :
    ∃ o p', ∀ u, code.eval (p, u) = (o, (p', u)) := by
  induction h generalizing p with
  | ret => exact ⟨_, p, fun _ => rfl⟩
  | throw => exact ⟨_, p, fun _ => rfl⟩
  | @member _ f _ _ ih => exact ih p hn (f p)
  | other _ _ => exact absurd hn (Nat.succ_ne_zero _)
  | synchronized _ _ ihbody ihnext =>
    obtain ⟨o, p', hbody⟩ := ihbody (by omega) p
    cases o with
    | value v =>
      obtain ⟨o, p'', hnext⟩ := ihnext v (by omega) p'
      exact ⟨o, p'', fun u => by rw [eval_synchronized, hbody]; exact hnext u⟩
    | thrown => exact ⟨.thrown, p', fun u => by rw [eval_synchronized, hbody]; rfl⟩
  | attempt _ _ _ ihbody ihthrow ihnext =>
    obtain ⟨o, p', hbody⟩ := ihbody (by omega) p
    cases o with
    | value v =>
      obtain ⟨o, p'', hnext⟩ := ihnext v (by omega) p'
      exact ⟨o, p'', fun u => by rw [eval_attempt, hbody]; exact hnext u⟩
    | thrown =>
      obtain ⟨o, p'', hthrow⟩ := ihthrow (by omega) p'
      exact ⟨o, p'', fun u => by rw [eval_attempt, hbody]; exact hthrow u⟩

theorem finish_quiet {code : Code P U V} {frames : List (Frame P U V)} (hcode : code.Bounded 0)
    (hframes : FramesBounded n frames) (hn : n = 0) (p : P) :
    ∃ th p', ∀ u, finish code frames (p, u) = (th, (p', u)) := by
  induction hframes generalizing code p with
  | @last _ frame frames hout =>
    obtain ⟨o, p', heval⟩ := eval_quiet hcode rfl p
    exact ⟨⟨frame.resume o, frames⟩, p', fun u => by rw [finish, if_pos hout, heval]⟩
  | inner hin hresume _ ih =>
    obtain ⟨o, p', heval⟩ := eval_quiet hcode rfl p
    obtain ⟨rfl, rfl⟩ := Nat.add_eq_zero_iff.1 hn
    obtain ⟨th, p'', hfinish⟩ := ih (hresume o) rfl p'
    exact ⟨th, p'', fun u => by rw [finish, if_neg hin, heval]; exact hfinish u⟩

/-- Without a further access, the other data play no part in the rest of a block. -/
theorem leave_quiet (h : th.Within 0) (p : P) :
    ∃ th' p', ∀ u, th.leave (p, u) = (th', (p', u)) := by
  obtain ⟨m, k, hle, hcode, hframes⟩ := h
  obtain ⟨rfl, rfl⟩ := Nat.add_eq_zero_iff.1 (Nat.le_zero.1 hle)
  exact finish_quiet hcode hframes rfl p

end Bounded

/-- Members are accessed in blocks only, and there is at most one access to other data in each. -/
inductive Code.Disciplined : Code P U V → Prop
  | ret {v : V} : Disciplined (.ret v)
  | throw : Disciplined .throw
  | other {f : U → U} {next : U → Code P U V} :
      (∀ u, Disciplined (next u)) → Disciplined (.other f next)
  | synchronized {body : Code P U V} {next : V → Code P U V} :
      body.Bounded 1 → (∀ v, Disciplined (next v)) → Disciplined (.synchronized body next)
  | attempt {body onThrow : Code P U V} {next : V → Code P U V} :
      Disciplined body → Disciplined onThrow → (∀ v, Disciplined (next v)) →
        Disciplined (.attempt body onThrow next)

/-- A thread outside of all blocks that follows the rule -/
structure Thread.Disciplined (th : Thread P U V) : Prop where
  code : th.code.Disciplined
  depth : th.depth = 0
  frames : ∀ frame ∈ th.frames, ∀ o, (frame.resume o).Disciplined

section Disciplined

variable {th th' : Thread P U V} {d d' : P × U} {e : Effect} {p : P} {u : U}

theorem entered_cons_eq_zero {frame : Frame P U V} {frames : List (Frame P U V)}
    (h : entered (frame :: frames) = 0) : frame.effect = .keep ∧ entered frames = 0 := by
  cases frame with
  | autoMutex next =>
    rw [entered_autoMutex] at h
    exact absurd h (Nat.succ_ne_zero _)
  | handler onThrow next =>
    rw [entered_handler] at h
    exact ⟨rfl, h⟩

/-- A step outside of blocks leaves the members alone, or it enters a block. -/
theorem disciplined_next (h : th.next (p, u) = some (e, d', th')) (hth : th.Disciplined) :
    (e = .keep ∧ d'.1 = p ∧ th'.Disciplined ∧
        ∀ p', th.next (p', u) = some (.keep, (p', d'.2), th')) ∨
      (e = .lock ∧ d' = (p, u) ∧ th'.Within 1 ∧ (∀ d, th.next d = some (.lock, d, th')) ∧
        ∀ d, (th'.leave d).1.Disciplined) := by
  obtain ⟨code, frames⟩ := th
  obtain ⟨hcode, hdepth, hframes⟩ := hth
  have hresume {frame : Frame P U V} {rest : List (Frame P U V)} (hcons : frames = frame :: rest)
      (o : Outcome V) :
      frame.effect = .keep ∧ (⟨frame.resume o, rest⟩ : Thread P U V).Disciplined := by
    subst hcons
    obtain ⟨hkeep, hrest⟩ := entered_cons_eq_zero hdepth
    exact ⟨hkeep, hframes frame List.mem_cons_self o, hrest,
      fun frame' hmem => hframes frame' (List.mem_cons_of_mem _ hmem)⟩
  cases hcode with
  | ret =>
    cases frames with
    | nil => cases h
    | cons frame frames =>
      cases h
      obtain ⟨hkeep, hdisciplined⟩ := hresume rfl (.value _)
      exact .inl ⟨hkeep, rfl, hdisciplined, fun _ => by rw [Thread.next, hkeep]⟩
  | throw =>
    cases frames with
    | nil => cases h
    | cons frame frames =>
      cases h
      obtain ⟨hkeep, hdisciplined⟩ := hresume rfl .thrown
      exact .inl ⟨hkeep, rfl, hdisciplined, fun _ => by rw [Thread.next, hkeep]⟩
  | other hnext =>
    cases h
    exact .inl ⟨rfl, rfl, ⟨hnext u, hdepth, hframes⟩, fun _ => rfl⟩
  | @synchronized body next hbody hnext =>
    cases h
    refine .inr ⟨rfl, rfl, ⟨1, 0, by omega, hbody, .last hdepth⟩, fun _ => rfl, fun d => ?_⟩
    have hleave : (Thread.leave ⟨body, .autoMutex next :: frames⟩ d).1 =
        ⟨(Frame.autoMutex next).resume (body.eval d).1, frames⟩ := by
      have hout : entered frames = 0 := hdepth
      rw [Thread.leave, finish, if_pos hout]
    rw [hleave]
    refine ⟨?_, hdepth, hframes⟩
    cases (body.eval d).1 with
    | value v => exact hnext v
    | thrown => exact .throw
  | attempt hbody hthrow hnext =>
    cases h
    refine .inl ⟨rfl, rfl, ⟨hbody, ?_, ?_⟩, fun _ => rfl⟩
    · rw [Thread.depth, entered_handler]
      exact hdepth
    · intro frame hmem o
      rcases List.mem_cons.1 hmem with rfl | hmem
      · cases o with
        | value v => exact hnext v
        | thrown => exact hthrow
      · exact hframes frame hmem o

end Disciplined

/-- The data and the threads, without a mutex -/
structure Atomic (T P U V : Type u) where
  data : P × U
  thread : T → Thread P U V

variable [DecidableEq T]

namespace Atomic

def put (a : Atomic T P U V) (d : P × U) (t : T) (th : Thread P U V) : Atomic T P U V :=
  ⟨d, Function.update a.thread t th⟩

/-- One step of the thread `t`, which goes through the whole block when it enters one. -/
def step (a : Atomic T P U V) (t : T) : Option (Atomic T P U V) := do
  let (e, d, th) ← (a.thread t).next a.data
  let (th, d) := match e with
    | .lock => th.leave d
    | _ => (th, d)
  some (a.put d t th)

def Step (a : Atomic T P U V) (t : T) (a' : Atomic T P U V) : Prop := a.step t = some a'

def start (d : P × U) (program : T → Code P U V) : Atomic T P U V := ⟨d, fun t => ⟨program t, []⟩⟩

variable {a : Atomic T P U V} {t t' : T} {d : P × U} {th : Thread P U V}

@[simp]
theorem data_put : (a.put d t th).data = d := rfl

@[simp]
theorem thread_put_self : (a.put d t th).thread t = th := Function.update_self _ _ _

theorem thread_put_of_ne (h : t' ≠ t) : (a.put d t th).thread t' = a.thread t' :=
  Function.update_of_ne h _ _

theorem step_keep (h : (a.thread t).next a.data = some (.keep, d, th)) :
    a.Step t (a.put d t th) := by
  rw [Step, step, h]
  rfl

theorem step_lock (h : (a.thread t).next a.data = some (.lock, d, th)) :
    a.Step t (a.put (th.leave d).2 t (th.leave d).1) := by
  rw [Step, step, h]
  rfl

/-- A block is entered, gone through and left. -/
theorem step_synchronized {body : Code P U V} {next : V → Code P U V}
    {frames : List (Frame P U V)} {o : Outcome V} (hframes : entered frames = 0)
    (h : a.thread t = ⟨.synchronized body next, frames⟩) (hbody : body.eval a.data = (o, d)) :
    a.Step t (a.put d t ⟨(Frame.autoMutex next).resume o, frames⟩) := by
  have hleave : Thread.leave ⟨body, .autoMutex next :: frames⟩ a.data =
      (⟨(Frame.autoMutex next).resume o, frames⟩, d) := by
    rw [Thread.leave, finish, if_pos hframes, hbody]
  have hnext : (a.thread t).next a.data =
      some (.lock, a.data, ⟨body, .autoMutex next :: frames⟩) := by
    rw [h]
    rfl
  have hstep := step_lock hnext
  rwa [hleave] at hstep

end Atomic

section Simulation

variable {s s' : State T P U V} {a a' : Atomic T P U V} {t : T}

/-- The thread `t` is in a block that it has not entered in `a`. -/
def Pending (s : State T P U V) (a : Atomic T P U V) (t : T) : Prop :=
  (s.thread t).Within 1 ∧ ∃ th : Thread P U V, (∀ d, (a.thread t).next d = some (.lock, d, th)) ∧
    (∀ d, (th.leave d).1.Disciplined) ∧
      ∀ u, (s.thread t).leave (s.data.1, u) = th.leave (a.data.1, u)

/-- The thread `t` is in a block that it has left in `a`. -/
def Committed (s : State T P U V) (a : Atomic T P U V) (t : T) : Prop :=
  (s.thread t).Within 0 ∧ ∀ u, (s.thread t).leave (s.data.1, u) = (a.thread t, (a.data.1, u))

structure Refines (s : State T P U V) (a : Atomic T P U V) : Prop where
  held : Held s
  other : a.data.2 = s.data.2
  members : (∀ t, (s.thread t).depth = 0) → a.data.1 = s.data.1
  disciplined : ∀ t, (a.thread t).Disciplined
  outside : ∀ t, (s.thread t).depth = 0 → a.thread t = s.thread t
  inside : ∀ t, 0 < (s.thread t).depth → Pending s a t ∨ Committed s a t

theorem refines_start (d : P × U) {program : T → Code P U V} (h : ∀ t, (program t).Disciplined) :
    Refines (start d program) (Atomic.start d program) where
  held := held_start d program
  other := rfl
  members _ := rfl
  disciplined t := ⟨h t, rfl, fun _ hmem => nomatch hmem⟩
  outside _ _ := rfl
  inside _ hin := absurd hin (Nat.lt_irrefl 0)

/-- Blocks of other threads do not notice accesses to data that the mutex is not for. -/
theorem unnoticed {m : ReentrantMutex T} {d d' : P × U} {t' : T} {th th' : Thread P U V}
    (hd : d.1 = s.data.1) (hd' : d'.1 = a.data.1) (hne : t' ≠ t)
    (h : Pending s a t' ∨ Committed s a t') :
    Pending (s.put m d t th) (a.put d' t th') t' ∨
      Committed (s.put m d t th) (a.put d' t th') t' := by
  rw [Pending, Committed, State.thread_put_of_ne hne, Atomic.thread_put_of_ne hne,
    State.data_put, Atomic.data_put, hd, hd']
  exact h

/-- While a thread is in a block, all others are outside, so it is enough to look at this one. -/
theorem Refines.of_inside (h : Refines s a) (hin : 0 < (s.thread t).depth) (hheld : Held s')
    (hother : a'.data.2 = s'.data.2) (hs : ∀ t' ≠ t, s'.thread t' = s.thread t')
    (ha : ∀ t' ≠ t, a'.thread t' = a.thread t') (hdisciplined : (a'.thread t).Disciplined)
    (hleft : (s'.thread t).depth = 0 → a'.thread t = s'.thread t ∧ a'.data.1 = s'.data.1)
    (hstays : 0 < (s'.thread t).depth → Pending s' a' t ∨ Committed s' a' t) : Refines s' a' := by
  have hout {t' : T} (hne : t' ≠ t) : (s.thread t').depth = 0 := by
    by_contra hpos
    exact hne (h.held.exclusive (Nat.pos_of_ne_zero hpos) hin)
  refine ⟨hheld, hother, fun hnone => (hleft (hnone t)).2, fun t' => ?_, fun t' hzero => ?_,
    fun t' hpos => ?_⟩
  · by_cases hne : t' = t
    · exact hne ▸ hdisciplined
    · exact ha t' hne ▸ h.disciplined t'
  · by_cases hne : t' = t
    · subst hne
      exact (hleft hzero).1
    · rw [ha t' hne, hs t' hne]
      exact h.outside t' (hout hne)
  · by_cases hne : t' = t
    · subst hne
      exact hstays hpos
    · rw [hs t' hne] at hpos
      exact absurd (hout hne) (Nat.pos_iff_ne_zero.1 hpos)

theorem Refines.step_outside (h : Refines s a) (hout : (s.thread t).depth = 0)
    (hstep : Step s t s') : Refines s' a ∨ ∃ a', a.Step t a' ∧ Refines s' a' := by
  have hheld := h.held.step hstep
  have heq := h.outside t hout
  obtain ⟨e, d, th, m, hnext, hm, rfl⟩ := step_cases hstep
  have hdepth := depth_next hnext
  rcases disciplined_next hnext (heq ▸ h.disciplined t) with
    ⟨rfl, hd, hth, hnext'⟩ | ⟨rfl, rfl, hwithin, hnext', hleave⟩
  · -- both systems make the same step
    have hnextA : (a.thread t).next a.data = some (.keep, (a.data.1, d.2), th) := by
      rw [heq, ← hnext', ← h.other]
    refine .inr ⟨_, Atomic.step_keep hnextA, hheld, rfl, fun hnone => ?_, fun t' => ?_,
      fun t' hzero => ?_, fun t' hpos => ?_⟩
    · rw [Atomic.data_put, State.data_put, hd]
      refine h.members fun t' => ?_
      by_cases hne : t' = t
      · exact hne ▸ hout
      · rw [← hnone t', State.thread_put_of_ne hne]
    · by_cases hne : t' = t
      · rw [hne, Atomic.thread_put_self]
        exact hth
      · rw [Atomic.thread_put_of_ne hne]
        exact h.disciplined t'
    · by_cases hne : t' = t
      · rw [hne, Atomic.thread_put_self, State.thread_put_self]
      · rw [State.thread_put_of_ne hne] at hzero
        rw [Atomic.thread_put_of_ne hne, State.thread_put_of_ne hne]
        exact h.outside t' hzero
    · by_cases hne : t' = t
      · rw [hne, State.thread_put_self, hth.depth] at hpos
        exact absurd hpos (Nat.lt_irrefl 0)
      · rw [State.thread_put_of_ne hne] at hpos
        exact unnoticed hd rfl hne (h.inside t' hpos)
  · -- the block begins, which is not seen in the other system yet
    have hin : 0 < ((s.put m (s.data.1, s.data.2) t th).thread t).depth := by
      rw [State.thread_put_self]
      dsimp only at hdepth
      omega
    have halone {t' : T} (hne : t' ≠ t) : (s.thread t').depth = 0 := by
      by_contra hpos
      rw [← State.thread_put_of_ne hne] at hpos
      exact hne (hheld.exclusive (Nat.pos_of_ne_zero hpos) hin)
    have hmembers : a.data.1 = s.data.1 := h.members fun t' => by
      by_cases hne : t' = t
      · exact hne ▸ hout
      · exact halone hne
    refine .inl ⟨hheld, h.other, fun _ => hmembers, h.disciplined, fun t' hzero => ?_,
      fun t' hpos => ?_⟩
    · by_cases hne : t' = t
      · exact absurd (hne ▸ hzero) (Nat.pos_iff_ne_zero.1 hin)
      · rw [State.thread_put_of_ne hne]
        exact h.outside t' (halone hne)
    · by_cases hne : t' = t
      · subst hne
        refine .inl ⟨?_, th, fun d => heq ▸ hnext' d, hleave, fun u => ?_⟩
        · rw [State.thread_put_self]
          exact hwithin
        · rw [State.thread_put_self, State.data_put, hmembers]
      · rw [State.thread_put_of_ne hne] at hpos
        exact absurd (halone hne) (Nat.pos_iff_ne_zero.1 hpos)

theorem Refines.step_inside (h : Refines s a) (hin : 0 < (s.thread t).depth)
    (hstep : Step s t s') : Refines s' a ∨ ∃ a', a.Step t a' ∧ Refines s' a' := by
  have hheld := h.held.step hstep
  obtain ⟨e, d, th, m, hnext, hm, rfl⟩ := step_cases hstep
  have hs (t' : T) (hne : t' ≠ t) : (s.put m d t th).thread t' = s.thread t' :=
    State.thread_put_of_ne hne
  have ha {d' : P × U} {th' : Thread P U V} (t' : T) (hne : t' ≠ t) :
      (a.put d' t th').thread t' = a.thread t' := Atomic.thread_put_of_ne hne
  rcases Nat.eq_zero_or_pos th.depth with hout | hin'
  · -- the block ends
    obtain ⟨rfl, hlast⟩ := leave_next_last hnext hin hout
    have hstays {a' : Atomic T P U V} (hpos : 0 < ((s.put m s.data t th).thread t).depth) :
        Pending (s.put m s.data t th) a' t ∨ Committed (s.put m s.data t th) a' t := by
      rw [State.thread_put_self, hout] at hpos
      exact absurd hpos (Nat.lt_irrefl 0)
    rcases h.inside t hin with ⟨_, th', hnext', hleave, heq⟩ | ⟨_, heq⟩
    · have hdone : th'.leave a.data = (th, s.data) := by
        rw [← hlast, show s.data = (s.data.1, s.data.2) from rfl, ← h.other, heq]
      refine .inr ⟨_, Atomic.step_lock (hnext' a.data), ?_⟩
      have hdisciplined := hleave a.data
      rw [hdone] at hdisciplined ⊢
      refine h.of_inside hin hheld rfl hs ha ?_ (fun _ => ⟨?_, rfl⟩) hstays
      · rw [Atomic.thread_put_self]
        exact hdisciplined
      · rw [Atomic.thread_put_self, State.thread_put_self]
    · have hdone := (heq s.data.2).symm.trans (hlast s.data)
      refine .inl (h.of_inside hin hheld h.other hs (fun _ _ => rfl) (h.disciplined t)
        (fun _ => ⟨?_, ?_⟩) hstays)
      · rw [State.thread_put_self]
        exact (Prod.ext_iff.1 hdone).1
      · exact (Prod.ext_iff.1 (Prod.ext_iff.1 hdone).2).1
  · -- the block goes on
    have hleft {a' : Atomic T P U V} (hzero : ((s.put m d t th).thread t).depth = 0) :
        a'.thread t = (s.put m d t th).thread t ∧ a'.data.1 = (s.put m d t th).data.1 := by
      rw [State.thread_put_self] at hzero
      exact absurd hzero (Nat.pos_iff_ne_zero.1 hin')
    have hstep {n : ℕ} (hwithin : (s.thread t).Within n) :
        (th.Within n ∧ d.2 = s.data.2 ∧ ∀ u, (s.thread t).leave (s.data.1, u) = th.leave (d.1, u)) ∨
          (d.1 = s.data.1 ∧ ∃ m, n = m + 1 ∧ th.Within m) := by
      rcases within_next hnext hin hin' hwithin with ⟨hth, hd, hquiet⟩ | hcommit
      · exact .inl ⟨hth, hd, fun u => leave_next (hquiet u) hin hin'⟩
      · exact .inr hcommit
    rcases h.inside t hin with ⟨hwithin, th', hnext', hleave, heq⟩ | ⟨hwithin, heq⟩
    · rcases hstep hwithin with ⟨hth, hd, hquiet⟩ | ⟨hd, n, hn, hth⟩
      · refine .inl (h.of_inside hin hheld (h.other.trans hd.symm) hs (fun _ _ => rfl)
          (h.disciplined t) hleft fun _ => .inl ⟨?_, th', hnext', hleave, fun u => ?_⟩)
        · rw [State.thread_put_self]
          exact hth
        · rw [State.thread_put_self, State.data_put, ← hquiet, heq]
      · -- this is the one access, at which the whole block happens in the other system
        obtain rfl : n = 0 := by omega
        obtain ⟨th'', p, hrest⟩ := leave_quiet hth d.1
        have hdone : th'.leave a.data = (th'', (p, d.2)) := by
          rw [← hrest, show a.data = (a.data.1, a.data.2) from rfl, h.other, ← heq]
          exact leave_next hnext hin hin'
        refine .inr ⟨_, Atomic.step_lock (hnext' a.data), ?_⟩
        have hdisciplined := hleave a.data
        rw [hdone] at hdisciplined ⊢
        refine h.of_inside hin hheld rfl hs ha ?_ hleft fun _ => .inr ⟨?_, fun u => ?_⟩
        · rw [Atomic.thread_put_self]
          exact hdisciplined
        · rw [State.thread_put_self]
          exact hth
        · rw [State.thread_put_self, Atomic.thread_put_self, State.data_put, hrest]
          rfl
    · rcases hstep hwithin with ⟨hth, hd, hquiet⟩ | ⟨_, n, hn, _⟩
      · refine .inl (h.of_inside hin hheld (h.other.trans hd.symm) hs (fun _ _ => rfl)
          (h.disciplined t) hleft fun _ => .inr ⟨?_, fun u => ?_⟩)
        · rw [State.thread_put_self]
          exact hth
        · rw [State.thread_put_self, State.data_put, ← hquiet, heq]
      · exact absurd hn (Nat.succ_ne_zero n).symm

theorem Refines.step (h : Refines s a) (hstep : Step s t s') :
    Refines s' a ∨ ∃ a', a.Step t a' ∧ Refines s' a' := by
  rcases Nat.eq_zero_or_pos (s.thread t).depth with hout | hin
  · exact h.step_outside hout hstep
  · exact h.step_inside hin hstep

theorem Refines.free (h : Refines s a) (hfree : s.mutex = .free) :
    a.data = s.data ∧ a.thread = s.thread := by
  have hnone (t : T) : (s.thread t).depth = 0 := by
    rw [← h.held, hfree]
    rfl
  exact ⟨Prod.ext (h.members hnone) h.other, funext fun t => h.outside t (hnone t)⟩

/-- Whatever the interleaving is, blocks take place one at a time and as a whole, if the threads
access the members in blocks only and other data at most once in each. Nested blocks belong to the
outermost one, and exceptions may leave blocks at any point. -/
theorem synchronized_atomic (d : P × U) (program : T → Code P U V)
    (hprogram : ∀ t, (program t).Disciplined) {ts : List T} (h : Runs Step (start d program) ts s) :
    ∃ ts' a, ts'.Sublist ts ∧ Runs Atomic.Step (Atomic.start d program) ts' a ∧
      a.data.2 = s.data.2 ∧ (∀ t, (s.thread t).depth = 0 → a.thread t = s.thread t) ∧
        (s.mutex = .free → a.data = s.data ∧ a.thread = s.thread) := by
  obtain ⟨ts', a, hsub, hruns, hrefines⟩ :=
    h.simulates (fun _ _ _ _ hR hstep => hR.step hstep) (refines_start d hprogram)
  exact ⟨ts', a, hsub, hruns, hrefines.other, hrefines.outside, hrefines.free⟩

/-- Two threads read a counter and write it back in nested blocks, which they leave by an exception.
The second one enters before the first one has handled it. -/
theorem synchronized_atomic_counter :
    let write : ℕ → Code ℕ ℕ ℕ := fun n =>
      .synchronized (.member (fun _ => n + 1) fun _ => .throw) .ret
    let program : Code ℕ ℕ ℕ := .attempt (.synchronized (.member id write) .ret) (.ret 0) .ret
    let schedule := [true, false, true, true, true, true, true, true, false, true, false, false,
      false, false, false, false]
    ∃ s : State Bool ℕ ℕ ℕ, Runs Step (start (0, 0) fun _ => program) schedule s ∧
      (s.data = (2, 0) ∧ s.mutex = .free) ∧
      ∃ ts' a, ts'.Sublist schedule ∧
        Runs Atomic.Step (Atomic.start (0, 0) fun _ => program) ts' a ∧ a.data.2 = s.data.2 ∧
          (∀ t, (s.thread t).depth = 0 → a.thread t = s.thread t) ∧
            (s.mutex = .free → a.data = s.data ∧ a.thread = s.thread) := by
  intro write program schedule
  have hwrite (n : ℕ) : (write n).Bounded 1 :=
    .synchronized (m := 1) (n := 0) (.member fun _ => .throw) fun _ => .ret
  have hrun : Runs Step (start (0, 0) fun _ : Bool => program) schedule _ :=
    .head rfl (.head rfl (.head rfl (.head rfl (.head rfl (.head rfl (.head rfl (.head rfl
      (.head rfl (.head rfl (.head rfl (.head rfl (.head rfl (.head rfl (.head rfl
        (.single rfl)))))))))))))))
  exact ⟨_, hrun, ⟨rfl, rfl⟩, synchronized_atomic _ _
    (fun _ => .attempt (.synchronized (.member hwrite) fun _ => .ret) .ret fun _ => .ret) hrun⟩

end Simulation

end Utlib.Synchronizable
