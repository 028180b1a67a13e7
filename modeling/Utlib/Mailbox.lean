import Mathlib.Logic.Function.Basic
import Utlib.RingBuffer.Queue

/-! `utl::Mailbox` (storage/Mailbox.h). The mutex makes each call one step. -/

namespace Utlib

inductive Callback (D Msg : Type)
  | messageArrived (delegate : D) (msg : Msg)
  | mailboxFull (delegate : D) (msg : Msg)

structure Mailbox (D Msg : Type) where
  queue : RingBuffer Msg
  delegate : Option D

namespace Mailbox

variable {Thread D Msg : Type}

/-- What a call gives back. With `put` come the callbacks it made and the message that it added to
the queue, if any. -/
inductive Reply (D Msg : Type)
  | done
  | put (callbacks : List (Callback D Msg)) (accepted : List Msg)
  | message (msg : Option Msg)
  | batch (n : Int) (buffer : Nat → Msg)
  | flag (b : Bool)
  | number (n : Int)

def put (m : Mailbox D Msg) (msg : Msg) : Option (Reply D Msg × Mailbox D Msg) :=
  if ¬m.queue.isFull then do
    let queue ← m.queue.write msg
    some (.put (m.delegate.toList.map (.messageArrived · msg)) [msg], { m with queue := queue })
  else some (.put (m.delegate.toList.map (.mailboxFull · msg)) [], m)

/-- `poll(Msg &msg)` -/
def poll (m : Mailbox D Msg) : Option (Reply D Msg × Mailbox D Msg) :=
  if m.queue.isEmpty then some (.message none, m)
  else do
    let (msg, queue) ← m.queue.read
    some (.message (some msg), { m with queue := queue })

/-- The loop of `poll(isize count, Msg *buffer)` from `i` on. -/
def fill : Nat → Nat → RingBuffer Msg → (Nat → Msg) → Option (RingBuffer Msg × (Nat → Msg))
  | 0, _, queue, buffer => some (queue, buffer)
  | n + 1, i, queue, buffer => do
    let (msg, queue) ← queue.read
    fill n (i + 1) queue (Function.update buffer i msg)

/-- `poll(isize count, Msg *buffer)` -/
def pollMany (m : Mailbox D Msg) (count : Int) (buffer : Nat → Msg) :
    Option (Reply D Msg × Mailbox D Msg) := do
  let n := min m.queue.count count
  let (queue, buffer) ← fill n.toNat 0 m.queue buffer
  some (.batch n buffer, { m with queue := queue })

inductive Call (D Msg : Type)
  | setDelegate (d : D)
  | clearDelegate
  | put (msg : Msg)
  | poll
  | pollMany (count : Nat) (buffer : Nat → Msg)
  | empty
  | count

def Call.run (m : Mailbox D Msg) : Call D Msg → Option (Reply D Msg × Mailbox D Msg)
  | .setDelegate d => some (.done, { m with delegate := some d })
  | .clearDelegate => some (.done, { m with delegate := none })
  | .put msg => m.put msg
  | .poll => m.poll
  | .pollMany n buffer => m.pollMany n buffer
  | .empty => some (.flag m.queue.isEmpty, m)
  | .count => some (.number m.queue.count, m)

/-- A schedule is a list of calls, each with the thread that makes it. -/
def machine : Machine (Thread × Call D Msg) (Reply D Msg) (Mailbox D Msg) :=
  ⟨fun _ _ => True, fun e m => e.2.run m⟩

def fresh (slots : List Msg) : Mailbox D Msg :=
  ⟨RingBuffer.clear ⟨.fixed, slots, 0, 0⟩, none⟩

def Reply.accepted : Reply D Msg → List Msg
  | .put _ accepted => accepted
  | _ => []

/-- The messages that a call hands out. -/
def Reply.handedOut : Reply D Msg → List Msg
  | .message msg => msg.toList
  | .batch n buffer => (List.range n.toNat).map buffer
  | _ => []

/-- `buffer` with `msgs` written to its first places. -/
def written (buffer : Nat → Msg) (msgs : List Msg) : Nat → Msg := fun i => msgs[i]?.getD (buffer i)

/-- The same calls on a list of messages, the oldest first, of at most `limit`. -/
def Call.onList (limit : Nat) :
    Thread × Call D Msg → List Msg × Option D → Reply D Msg × List Msg × Option D
  | (_, .setDelegate d), (q, _) => (.done, q, some d)
  | (_, .clearDelegate), (q, _) => (.done, q, none)
  | (_, .put msg), (q, delegate) =>
    if q.length < limit then
      (.put (delegate.toList.map (.messageArrived · msg)) [msg], q ++ [msg], delegate)
    else (.put (delegate.toList.map (.mailboxFull · msg)) [], q, delegate)
  | (_, .poll), (q, delegate) => (.message q.head?, q.tail, delegate)
  | (_, .pollMany n buffer), (q, delegate) =>
    (.batch (min n q.length : Nat) (written buffer (q.take n)), q.drop n, delegate)
  | (_, .empty), (q, delegate) => (.flag q.isEmpty, q, delegate)
  | (_, .count), (q, delegate) => (.number q.length, q, delegate)

section

open RingBuffer

variable {c : Nat}

theorem fill_eq {queue : RingBuffer Msg} {q : List Msg} (h : Holds c queue q) (n i : Nat)
    (hn : n ≤ q.length) (buffer : Nat → Msg) :
    ∃ queue', fill n i queue buffer =
        some (queue', fun j => if i ≤ j then (q.take n)[j - i]?.getD (buffer j) else buffer j) ∧
      Holds c queue' (q.drop n) := by
  induction n generalizing i queue q buffer with
  | zero => exact ⟨queue, by simp [fill], h⟩
  | succ n ih =>
    cases q with
    | nil => simp at hn
    | cons x q =>
      obtain ⟨queue', hfill, h'⟩ := ih (h.skip (List.cons_ne_nil x q)) (i + 1)
        (Nat.le_of_succ_le_succ hn) (Function.update buffer i x)
      refine ⟨queue', ?_, h'⟩
      simp only [fill, h.read_eq rfl, Option.bind_eq_bind, Option.bind_some, hfill]
      congr 2
      funext j
      rcases Nat.lt_trichotomy i j with hij | rfl | hij
      · obtain ⟨d, rfl⟩ := Nat.exists_eq_add_of_lt hij
        have hd : i + d + 1 - (i + 1) = d := by omega
        have hd' : i + d + 1 - i = d + 1 := by omega
        have hne : i + d + 1 ≠ i := by omega
        rw [if_pos (by omega), if_pos (by omega), hd, hd', Function.update_of_ne hne]
        rfl
      · simp
      · simp [Nat.not_le.2 hij, Nat.not_le.2 (Nat.lt_succ_of_lt hij),
          Function.update_of_ne (Nat.ne_of_lt hij)]

theorem machine_simulates (hc : 2 ≤ c) :
    (@machine Thread D Msg).Simulates (Call.onList (c - 1))
      fun m s => Holds c m.queue s.1 ∧ m.delegate = s.2 := by
  rintro ⟨thread, call⟩ ⟨queue, delegate⟩ ⟨q, d⟩ ⟨h, rfl⟩ _
  simp only at h
  have hroom := h.room
  cases call with
  | setDelegate d => exact ⟨_, rfl, h, rfl⟩
  | clearDelegate => exact ⟨_, rfl, h, rfl⟩
  | put msg =>
    by_cases hlt : q.length < c - 1
    · have hfull : queue.isFull = false := h.not_isFull_iff.2 (by omega)
      obtain ⟨queue', hwrite, h'⟩ := h.write (by omega) msg
      refine ⟨⟨queue', delegate⟩, ?_, ?_⟩
      · simp [machine, Call.run, put, Call.onList, hfull, hwrite, hlt]
      · simpa [Call.onList, hlt] using h'
    · have hfull : queue.isFull = true := h.isFull_iff.2 (by omega)
      refine ⟨⟨queue, delegate⟩, ?_, ?_⟩
      · simp [machine, Call.run, put, Call.onList, hfull, hlt]
      · simpa [Call.onList, hlt] using h
  | poll =>
    cases q with
    | nil =>
      have hempty : queue.isEmpty = true := h.isEmpty_iff.2 rfl
      exact ⟨⟨queue, delegate⟩, by simp [machine, Call.run, poll, Call.onList, hempty], h, rfl⟩
    | cons x q =>
      have hempty : queue.isEmpty = false := h.not_isEmpty_iff.2 (Nat.succ_pos _)
      refine ⟨⟨queue.skip, delegate⟩, ?_, h.skip (List.cons_ne_nil x q), rfl⟩
      simp [machine, Call.run, poll, Call.onList, hempty, h.read_eq rfl]
  | pollMany n buffer =>
    have hmin : (min queue.count n).toNat = min n q.length := by
      rw [h.count_eq]
      omega
    have htake : q.take (min n q.length) = q.take n := by
      rw [← List.take_take, List.take_length]
    have hdrop : q.drop (min n q.length) = q.drop n := by
      rcases Nat.le_total n q.length with hle | hle
      · rw [Nat.min_eq_left hle]
      · rw [Nat.min_eq_right hle, List.drop_length, List.drop_of_length_le hle]
    obtain ⟨queue', hfill, h'⟩ := fill_eq h (min n q.length) 0 (Nat.min_le_right _ _) buffer
    rw [hdrop] at h'
    refine ⟨⟨queue', delegate⟩, ?_, h', rfl⟩
    simp only [machine, Call.run, pollMany, Call.onList, hmin, hfill, htake, Option.bind_eq_bind,
      Option.bind_some, Nat.zero_le, if_true, Nat.sub_zero]
    rw [← hmin, Int.toNat_of_nonneg]
    · rfl
    · rw [h.count_eq]
      omega
  | empty =>
    have hempty : queue.isEmpty = q.isEmpty := by
      rw [Bool.eq_iff_iff, h.isEmpty_iff, List.isEmpty_iff, List.length_eq_zero_iff]
    exact ⟨⟨queue, delegate⟩, by simp [machine, Call.run, Call.onList, hempty], h, rfl⟩
  | count => exact ⟨⟨queue, delegate⟩, by simp [machine, Call.run, Call.onList, h.count_eq], h, rfl⟩

end

theorem map_written (buffer : Nat → Msg) (msgs : List Msg) :
    (List.range msgs.length).map (written buffer msgs) = msgs := by
  apply List.ext_getElem
  · simp
  · intro i hi hi'
    simp [written, hi']

/-- In one call nothing is lost, duplicated or overtaken. -/
theorem Call.onList_conserves (limit : Nat) (e : Thread × Call D Msg)
    (s : List Msg × Option D) :
    s.1 ++ (Call.onList limit e s).1.accepted =
      (Call.onList limit e s).1.handedOut ++ (Call.onList limit e s).2.1 := by
  obtain ⟨thread, call⟩ := e
  obtain ⟨q, delegate⟩ := s
  cases call with
  | setDelegate d => exact List.append_nil q
  | clearDelegate => exact List.append_nil q
  | put msg =>
    by_cases hlt : q.length < limit <;> simp [Call.onList, Reply.accepted, Reply.handedOut, hlt]
  | poll => cases q <;> simp [Call.onList, Reply.accepted, Reply.handedOut]
  | pollMany n buffer =>
    have hout := map_written buffer (q.take n)
    rw [List.length_take] at hout
    simp only [Call.onList, Reply.accepted, Reply.handedOut, Int.toNat_natCast, hout]
    rw [List.append_nil, List.take_append_drop]
  | empty => exact List.append_nil q
  | count => exact List.append_nil q

theorem follow_conserves (limit : Nat) (schedule : List (Thread × Call D Msg))
    (s : List Msg × Option D) :
    s.1 ++ (Machine.follow (Call.onList limit) schedule s).1.flatMap Reply.accepted =
      (Machine.follow (Call.onList limit) schedule s).1.flatMap Reply.handedOut ++
        (Machine.follow (Call.onList limit) schedule s).2.1 := by
  induction schedule generalizing s with
  | nil => exact List.append_nil s.1
  | cons e schedule ih =>
    simp only [Machine.follow, List.flatMap_cons]
    rw [← List.append_assoc, Call.onList_conserves, List.append_assoc, ih, List.append_assoc]

/-- What the next call finds in a mailbox with the messages `q`, of at most `limit`. -/
structure Serves (limit : Nat) (m : Mailbox D Msg) (q : List Msg) : Prop where
  queued : m.queue.vector = some q
  bounded : q.length ≤ limit
  accepts : ∀ msg, q.length < limit → ∃ m',
    m.put msg = some (.put (m.delegate.toList.map (.messageArrived · msg)) [msg], m') ∧
      m'.queue.vector = some (q ++ [msg])
  refuses : ∀ msg, limit ≤ q.length →
    m.put msg = some (.put (m.delegate.toList.map (.mailboxFull · msg)) [], m)
  polls : ∃ m', m.poll = some (.message q.head?, m') ∧ m'.queue.vector = some q.tail
  batches : ∀ (n : Nat) buffer, ∃ m',
    m.pollMany n buffer =
      some (.batch (min n q.length : Nat) (written buffer (q.take n)), m') ∧
      m'.queue.vector = some (q.drop n)

theorem serves {c : Nat} (hc : 2 ≤ c) {m : Mailbox D Msg} {q : List Msg}
    (h : m.queue.Holds c q) : Serves (c - 1) m q := by
  have hstep := fun call => machine_simulates hc ((), call) m (q, m.delegate) ⟨h, rfl⟩ trivial
  have hroom := h.room
  constructor
  case queued => exact h.vector_eq
  case bounded => omega
  case accepts =>
    intro msg hlt
    obtain ⟨m', hput, h', _⟩ := hstep (.put msg)
    simp only [Call.onList, hlt, if_true] at hput h'
    exact ⟨m', hput, h'.vector_eq⟩
  case refuses =>
    intro msg hle
    have hfull : m.queue.isFull = true := h.isFull_iff.2 (by omega)
    simp [put, hfull]
  case polls =>
    obtain ⟨m', hpoll, h', _⟩ := hstep .poll
    exact ⟨m', hpoll, h'.vector_eq⟩
  case batches =>
    intro n buffer
    obtain ⟨m', hpoll, h', _⟩ := hstep (.pollMany n buffer)
    exact ⟨m', hpoll, h'.vector_eq⟩

theorem conserves_messages {slots : List Msg} (hslots : 2 ≤ slots.length)
    (schedule : List (Thread × Call D Msg)) :
    ∃ replies m q, machine.run schedule (fresh slots) = some (replies, m) ∧
      replies.flatMap Reply.accepted = replies.flatMap Reply.handedOut ++ q ∧
      Serves (slots.length - 1) m q := by
  have hfresh : RingBuffer.Holds slots.length (fresh (D := D) slots).queue [] :=
    RingBuffer.Holds.clear rfl (by omega)
  obtain ⟨m, hrun, h, _⟩ := (machine_simulates hslots).run
    (t := ([], none)) ⟨hfresh, rfl⟩ (.of_pre (fun _ _ => trivial) schedule _)
  exact ⟨_, m, _, hrun, follow_conserves _ schedule ([], none), serves hslots h⟩

theorem conserves_messages_two_threads :
    ∃ replies m q, (@machine Nat Unit Nat).run
        [(0, .put 7), (1, .poll), (0, .put 8), (1, .put 9), (1, .poll)] (fresh [0, 0, 0]) =
          some (replies, m) ∧
      replies.flatMap Reply.accepted = replies.flatMap Reply.handedOut ++ q ∧ Serves 2 m q := by
  apply conserves_messages
  decide

end Mailbox

end Utlib
