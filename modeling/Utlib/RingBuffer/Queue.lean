import Utlib.Machine
import Utlib.RingBuffer.Basic

namespace Utlib.RingBuffer

open Cyclic

variable {T : Type}

/-- `b` holds the elements `q`, oldest first. -/
structure Holds (c : Nat) (b : RingBuffer T) (q : List T) : Prop extends Spans c b q.length where
  contents : window b.elements b.r.toNat q.length = q

namespace Holds

variable {c : Nat} {b : RingBuffer T} {q : List T}

theorem length_le (h : Holds c b q) : q.length ≤ b.elements.length := by
  rw [h.sized]
  exact Nat.le_of_lt h.room

theorem load_eq (h : Holds c b q) {k : Nat} {j : Int} {x : T} (hx : q[k]? = some x)
    (hj : Slot c b.r k j) : load b.elements j = some x := by
  have hk : k < q.length := (List.getElem?_eq_some_iff.1 hx).1
  have hafter := hj.after h.reads.1
  rw [← h.sized] at hafter
  rw [load, if_pos hj.1, ← getElem?_window hafter hk h.length_le, h.contents, hx]

theorem vector_eq (h : Holds c b q) : b.vector = some q := by
  apply Spans.walk_eq h.capacity _ h.room h.reads h.ahead
  · intro k x j hx hj
    exact h.load_eq hx hj
  · rw [h.capacity, Int.toNat_natCast]
    exact Nat.le_of_lt h.room

theorem clear (hs : b.elements.length = c) (h0 : 0 < c) : Holds c b.clear [] :=
  ⟨Spans.clear hs h0, window_zero _ _⟩

/-- Advancing `r` past the first `k` elements. -/
theorem advance (h : Holds c b q) {k : Nat} {j : Int} (hk : k ≤ q.length)
    (hj : Slot c b.r k j) : Holds c { b with r := j } (q.drop k) := by
  have hafter := hj.after h.reads.1
  rw [← h.sized] at hafter
  have hcontents := h.contents
  have hahead := h.ahead
  have hlt := h.room
  refine ⟨⟨h.sized, ?_, ⟨hj.1, hj.2.1⟩, ?_⟩, ?_⟩
  · rw [List.length_drop]
    omega
  · unfold Slot at *
    rw [List.length_drop]
    simp only
    omega
  · rw [List.length_drop, window_after hafter hk h.length_le, hcontents]

theorem skip (h : Holds c b q) (hq : q ≠ []) : Holds c b.skip q.tail := by
  rw [← List.drop_one]
  exact h.advance (List.length_pos_of_ne_nil hq) (next_slot h.capacity h.reads.1 h.reads.2)

theorem skipBy (h : Holds c b q) {n : Nat} (hn : n ≤ q.length) :
    ∃ b', b.skipBy n = some b' ∧ Holds c b' (q.drop n) := by
  have hroom := h.room
  obtain ⟨j, hj⟩ := Slot.exists (k := n) h.reads.1 h.reads.2 (by omega)
  refine ⟨{ b with r := j }, ?_, h.advance hn hj⟩
  rw [RingBuffer.skipBy, if_neg, h.capacity, hj.tmod h.reads.1]
  rw [h.capacity]
  omega

theorem read_eq (h : Holds c b q) {x : T} (hx : q.head? = some x) :
    b.read = some (x, b.skip) := by
  have hne : q ≠ [] := by
    intro hq
    simp [hq] at hx
  have hempty : b.isEmpty = false := h.not_isEmpty_iff.2 (List.length_pos_of_ne_nil hne)
  have hreads := h.reads
  have hload : load b.elements b.r = some x := by
    apply h.load_eq (k := 0)
    · rw [← List.head?_eq_getElem?, hx]
    · unfold Slot
      omega
  simp [RingBuffer.read, hempty, hload, RingBuffer.skip]

theorem store_eq (h : Holds c b q) (x : T) :
    store b.elements b.w x = some (b.elements.set b.w.toNat x) := by
  have hahead := h.ahead
  rw [store, if_pos]
  rw [h.sized]
  exact ⟨hahead.1, hahead.2.1⟩

theorem set (h : Holds c b q) {k : Nat} {j : Int} (hj : Slot c b.r k j) (hk : k < q.length)
    (x : T) :
    store b.elements j x = some (b.elements.set j.toNat x) ∧
      Holds c { b with elements := b.elements.set j.toNat x } (q.set k x) := by
  have hroom := h.room
  have hafter := hj.after h.reads.1
  rw [← h.sized] at hafter
  have hcontents : window (b.elements.set j.toNat x) b.r.toNat q.length = q.set k x := by
    rw [window_set hafter (by rw [h.sized]; omega) (by rw [h.sized]; omega), h.contents]
  refine ⟨?_, ⟨⟨?_, ?_, h.reads, ?_⟩, ?_⟩⟩
  · rw [store, if_pos]
    rw [h.sized]
    exact ⟨hj.1, hj.2.1⟩
  · rw [List.length_set, h.sized]
  · rwa [List.length_set]
  · rw [List.length_set]
    exact h.ahead
  · rw [List.length_set]
    exact hcontents

/-- Swapping the elements in two neighbouring slots. -/
theorem swap {q₁ q₂ : List T} {x y : T} (h : Holds c b (q₁ ++ x :: y :: q₂)) {i j : Int}
    (hi : Slot c b.r q₁.length i) (hj : Slot c b.r (q₁.length + 1) j) :
    ∃ elements, Cyclic.swap b.elements j i = some elements ∧
      Holds c { b with elements := elements } (q₁ ++ y :: x :: q₂) := by
  have hx : load b.elements i = some x := h.load_eq (by simp) hi
  have hy : load b.elements j = some y := h.load_eq (by simp) hj
  obtain ⟨hstore₁, h₁⟩ := h.set hj (by simp) x
  obtain ⟨hstore₂, h₂⟩ := h₁.set hi (by simp) y
  refine ⟨(b.elements.set j.toNat x).set i.toNat y, ?_, ?_⟩
  · simp only [Cyclic.swap, hx, hy, hstore₁, Option.bind_eq_bind, Option.bind_some]
    exact hstore₂
  · simpa using h₂

/-- Storing an element at `w` and moving `w` ahead. -/
theorem push (h : Holds c b q) (hroom : q.length + 1 < c) (x : T) :
    Holds c { b with elements := b.elements.set b.w.toNat x, w := b.next b.w } (q ++ [x]) := by
  have hahead := h.ahead
  have hnext := next_slot h.capacity hahead.1 hahead.2.1
  have hafter := hahead.after h.reads.1
  have hpush : window (b.elements.set b.w.toNat x) b.r.toNat (q.length + 1) =
      window b.elements b.r.toNat q.length ++ [x] := by
    apply window_push
    · rwa [h.sized]
    · rw [h.sized]
      omega
  rw [h.contents] at hpush
  have hlen : (q ++ [x]).length = q.length + 1 := by simp
  have hreads := h.reads
  refine ⟨⟨?_, ?_, hreads, ?_⟩, ?_⟩
  · rw [List.length_set, h.sized]
  · rwa [hlen]
  · rw [hlen]
    unfold Slot at *
    simp only
    omega
  · rw [hlen]
    exact hpush

theorem write (h : Holds c b q) (hroom : q.length + 1 < c) (x : T) :
    ∃ b', b.write x = some b' ∧ Holds c b' (q ++ [x]) := by
  have hfull : b.isFull = false := h.not_isFull_iff.2 hroom
  refine ⟨_, ?_, h.push hroom x⟩
  simp [RingBuffer.write, hfull, h.store_eq]

theorem readOr (h : Holds c b q) (hc : 2 ≤ c) (d : T) :
    ∃ b', b.readOr d = some (q.headD d, b') ∧ Holds c b' q.tail := by
  cases q with
  | nil =>
    have hempty : b.isEmpty = true := h.isEmpty_iff.2 rfl
    obtain ⟨b', hwrite, h'⟩ := h.write hc d
    refine ⟨b'.skip, ?_, h'.skip (List.cons_ne_nil _ _)⟩
    simp [RingBuffer.readOr, hempty, hwrite, h'.read_eq rfl]
  | cons x q =>
    have hempty : b.isEmpty = false := h.not_isEmpty_iff.2 (Nat.succ_pos _)
    refine ⟨b.skip, ?_, h.skip (List.cons_ne_nil _ _)⟩
    simp [RingBuffer.readOr, hempty, h.read_eq rfl]

theorem put (h : Holds c b q) (hc : 2 ≤ c) (x : T) :
    ∃ b', b.put x = some b' ∧
      Holds c b' (if q.length = c - 1 then q.tail ++ [x] else q ++ [x]) := by
  have hroom := h.room
  have hreads := h.reads
  have hahead := h.ahead
  have hnext := next_slot h.capacity hahead.1 hahead.2.1
  refine ⟨{ b with
    elements := b.elements.set b.w.toNat x
    w := b.next b.w
    r := if b.next b.w = b.r then b.next b.r else b.r }, ?_, ?_⟩
  · simp [RingBuffer.put, h.store_eq]
  by_cases hfull : q.length = c - 1
  · have hmeet : b.next b.w = b.r := by
      unfold Slot at *
      omega
    have hskip : Holds c b.skip q.tail := by
      apply h.skip
      intro hq
      simp [hq] at hfull
      omega
    have hpush := hskip.push (by simp; omega) x
    rw [if_pos hfull, if_pos hmeet]
    exact hpush
  · have hapart : b.next b.w ≠ b.r := by
      unfold Slot at *
      omega
    rw [if_neg hfull, if_neg hapart]
    exact h.push (by omega) x

end Holds

/-- The calls on a ring buffer. -/
inductive Op (T : Type)
  | write (element : T)
  | read
  | readOr (fallback : T)
  | put (element : T)
  | skip
  | skipBy (n : Nat)
  | clear

def Op.pre (b : RingBuffer T) : Op T → Prop
  | .write _ => b.isFull = false
  | .read => b.isEmpty = false
  | .readOr _ => True
  | .put _ => True
  | .skip => b.isEmpty = false
  | .skipBy n => n ≤ b.count
  | .clear => True

def Op.call (b : RingBuffer T) : Op T → Option (Option T × RingBuffer T)
  | .write x => do
    let b ← b.write x
    some (none, b)
  | .read => do
    let (x, b) ← b.read
    some (some x, b)
  | .readOr d => do
    let (x, b) ← b.readOr d
    some (some x, b)
  | .put x => do
    let b ← b.put x
    some (none, b)
  | .skip => some (none, b.skip)
  | .skipBy n => do
    let b ← b.skipBy n
    some (none, b)
  | .clear => some (none, b.clear)

def machine : Machine (Op T) (Option T) (RingBuffer T) :=
  ⟨fun op b => op.pre b, fun op b => op.call b⟩

/-- The same calls on a queue of at most `limit` elements, oldest first. -/
def Op.onQueue (limit : Nat) : Op T → List T → Option T × List T
  | .write x, q => (none, q ++ [x])
  | .read, q => (q.head?, q.tail)
  | .readOr d, q => (some (q.headD d), q.tail)
  | .put x, q => (none, if q.length = limit then q.tail ++ [x] else q ++ [x])
  | .skip, q => (none, q.tail)
  | .skipBy n, q => (none, q.drop n)
  | .clear, _ => (none, [])

theorem machine_simulates {c : Nat} (hc : 2 ≤ c) :
    (machine (T := T)).Simulates (Op.onQueue (c - 1)) (Holds c) := by
  intro op b q h hpre
  cases op with
  | write x =>
    obtain ⟨b', hcall, h'⟩ := h.write (h.not_isFull_iff.1 hpre) x
    exact ⟨b', by simp [machine, Op.call, Op.onQueue, hcall], h'⟩
  | read =>
    have hne : q ≠ [] := List.ne_nil_of_length_pos (h.not_isEmpty_iff.1 hpre)
    have hhead := List.head?_eq_some_head hne
    exact ⟨b.skip, by simp [machine, Op.call, Op.onQueue, h.read_eq hhead, hhead], h.skip hne⟩
  | readOr d =>
    obtain ⟨b', hcall, h'⟩ := h.readOr hc d
    exact ⟨b', by simp [machine, Op.call, Op.onQueue, hcall], h'⟩
  | put x =>
    obtain ⟨b', hcall, h'⟩ := h.put hc x
    exact ⟨b', by simp [machine, Op.call, Op.onQueue, hcall], h'⟩
  | skip =>
    have hne : q ≠ [] := List.ne_nil_of_length_pos (h.not_isEmpty_iff.1 hpre)
    exact ⟨b.skip, rfl, h.skip hne⟩
  | skipBy n =>
    have hn : n ≤ q.length := by
      have hcount : (n : Int) ≤ b.count := hpre
      rw [h.count_eq] at hcount
      exact Int.ofNat_le.1 hcount
    obtain ⟨b', hcall, h'⟩ := h.skipBy hn
    exact ⟨b', by simp [machine, Op.call, Op.onQueue, hcall], h'⟩
  | clear => exact ⟨b.clear, rfl, Holds.clear h.sized (by omega)⟩

/-- What a caller sees of a buffer that stands for the queue `q` of at most `limit` elements. -/
structure Shows (limit : Nat) (b : RingBuffer T) (q : List T) : Prop where
  vector : b.vector = some q
  bounded : q.length ≤ limit
  r_range : 0 ≤ b.r ∧ b.r < b.cap
  w_range : 0 ≤ b.w ∧ b.w < b.cap
  count : b.count = q.length
  free : b.free = (limit - q.length : Nat)
  isEmpty : b.isEmpty = true ↔ q = []
  isFull : b.isFull = true ↔ q.length = limit
  current : q ≠ [] → b.current = q.head?
  currentAt : ∀ k : Nat, k < q.length → b.currentAt k = q[k]?
  latest : q ≠ [] → b.latest = q.getLast?

theorem Holds.shows {c : Nat} {b : RingBuffer T} {q : List T} (h : Holds c b q) :
    Shows (c - 1) b q := by
  have hroom := h.room
  have hcap := h.capacity
  have hreads := h.reads
  have hahead := h.ahead
  have hload : ∀ k j, k < q.length → Slot c b.r k j → load b.elements j = q[k]? := by
    intro k j hk hj
    rw [List.getElem?_eq_getElem hk]
    exact h.load_eq (List.getElem?_eq_getElem hk) hj
  constructor
  case vector => exact h.vector_eq
  case bounded => omega
  case r_range => exact ⟨hreads.1, by rw [cap, hcap]; exact hreads.2⟩
  case w_range => exact ⟨hahead.1, by rw [cap, hcap]; exact hahead.2.1⟩
  case count => exact h.count_eq
  case free =>
    rw [free, hcap, h.count_eq]
    omega
  case isEmpty => rw [h.isEmpty_iff, List.length_eq_zero_iff]
  case isFull => exact h.isFull_iff
  case current =>
    intro hq
    rw [List.head?_eq_getElem?]
    exact hload 0 b.r (List.length_pos_of_ne_nil hq) (by unfold Slot; omega)
  case currentAt =>
    intro k hk
    obtain ⟨j, hj⟩ := Slot.exists (k := k) hreads.1 hreads.2 (by omega)
    rw [RingBuffer.currentAt, if_neg, hcap, hj.tmod hreads.1]
    · exact hload k j hk hj
    · omega
  case latest =>
    intro hq
    have hpos := List.length_pos_of_ne_nil hq
    have hprev := prev_slot hcap hahead.1 hahead.2.1
    have hslot : Slot c b.r (q.length - 1) (b.prev b.w) := by
      unfold Slot at *
      omega
    rw [List.getLast?_eq_getElem?]
    exact hload _ _ (by omega) hslot

open Machine in
theorem run_is_queue {c : Nat} (hc : 2 ≤ c) {b : RingBuffer T} (hb : b.cap = c)
    {ops : List (Op T)} (hops : machine.Admits ops b.clear) :
    ∃ b', machine.run ops b.clear = some ((follow (Op.onQueue (c - 1)) ops []).1, b') ∧
      Shows (c - 1) b' (follow (Op.onQueue (c - 1)) ops []).2 := by
  have hsized : b.elements.length = c := Int.ofNat.inj hb
  obtain ⟨b', hrun, h'⟩ :=
    (machine_simulates hc).run (Holds.clear hsized (by omega)) hops
  exact ⟨b', hrun, h'.shows⟩

theorem run_is_queue_wrapping :
    ∃ b' : RingBuffer Nat,
      machine.run [.write 1, .put 2, .put 3, .skip, .put 4] ⟨.fixed, [0, 0, 0], 0, 0⟩ =
        some ([none, none, none, none, none], b') ∧ Shows 2 b' [3, 4] := by
  apply run_is_queue (Nat.le_succ 2) (b := ⟨.fixed, [0, 0, 0], 0, 0⟩) rfl
  refine .cons rfl rfl (.cons trivial rfl (.cons trivial rfl (.cons rfl rfl ?_)))
  exact .cons trivial rfl trivial

end Utlib.RingBuffer
