import Mathlib.Data.List.Sort
import Utlib.RingBuffer.Queue

/-! `utl::SortedRingBuffer` (storage/RingBuffer.h) -/

namespace Utlib

open Cyclic

structure SortedRingBuffer (T : Type) extends RingBuffer T where
  keys : List Int

namespace SortedRingBuffer

variable {T : Type}

def clear (b : SortedRingBuffer T) : SortedRingBuffer T :=
  { b with toRingBuffer := b.toRingBuffer.clear }

def read (b : SortedRingBuffer T) : Option (T × SortedRingBuffer T) := do
  let (x, base) ← b.toRingBuffer.read
  some (x, { b with toRingBuffer := base })

def skip (b : SortedRingBuffer T) : SortedRingBuffer T :=
  { b with toRingBuffer := b.toRingBuffer.skip }

/-- The loop of `insert`, with `n` steps to spare. -/
def sink (key : Int) : Nat → Int → SortedRingBuffer T → Option (SortedRingBuffer T)
  | 0, oldw, b => if oldw = b.r then some b else none
  | n + 1, oldw, b =>
    if oldw = b.r then some b
    else do
      let p := b.prev oldw
      let k ← load b.keys p
      if k < key then some b
      else
        let elements ← Cyclic.swap b.elements oldw p
        let keys ← Cyclic.swap b.keys oldw p
        sink key n p { b with elements := elements, keys := keys }

def insert (b : SortedRingBuffer T) (key : Int) (element : T) : Option (SortedRingBuffer T) := do
  let oldw := b.w
  let base ← b.write element
  let keys ← store b.keys oldw key
  sink key b.capacity.toNat oldw { b with toRingBuffer := base, keys := keys }

/-- `isEmpty() || keys[prev(w)] <= key` -/
def newestAtMost (b : SortedRingBuffer T) (key : Int) : Bool :=
  b.isEmpty || (load b.keys (b.prev b.w)).any (· ≤ key)

def append (b : SortedRingBuffer T) (key : Int) (element : T) : Option (SortedRingBuffer T) :=
  if b.isFull ∨ ¬b.newestAtMost key then none
  else do
    let elements ← store b.elements b.w element
    let keys ← store b.keys b.w key
    some { b with elements := elements, keys := keys, w := b.next b.w }

/-- The pair in slot `i`. -/
def pairAt (b : SortedRingBuffer T) (i : Int) : Option (Int × T) := do
  let k ← load b.keys i
  let x ← load b.elements i
  some (k, x)

/-- The pairs in the slots from `r` to `w`. -/
def pairs (b : SortedRingBuffer T) : Option (List (Int × T)) :=
  b.walk b.pairAt b.capacity.toNat b.r

def keyRing (b : SortedRingBuffer T) : RingBuffer Int := ⟨b.template, b.keys, b.r, b.w⟩

/-- `b` holds the pairs `ps`, in the order in which they will be read. -/
structure Stores (c : Nat) (b : SortedRingBuffer T) (ps : List (Int × T)) : Prop where
  elements : b.Holds c (ps.map Prod.snd)
  keys : b.keyRing.Holds c (ps.map Prod.fst)

namespace Stores

open RingBuffer

variable {c : Nat} {b : SortedRingBuffer T} {ps : List (Int × T)}

theorem spans (h : Stores c b ps) : b.Spans c ps.length := by
  have hspans := h.elements.toSpans
  rwa [List.length_map] at hspans

theorem next_keyRing (h : Stores c b ps) (i : Int) : b.keyRing.next i = b.next i := by
  have hcap : b.keyRing.capacity = b.capacity := by
    rw [h.keys.capacity, h.elements.capacity]
  rw [next, next, hcap]
  rfl

theorem clear (hs : b.elements.length = c) (hk : b.keys.length = c) (h0 : 0 < c) :
    Stores c b.clear [] :=
  ⟨Holds.clear hs h0, Holds.clear (b := b.keyRing) hk h0⟩

theorem load_key (h : Stores c b ps) {k : Nat} {j : Int} {p : Int × T} (hp : ps[k]? = some p)
    (hj : Slot c b.r k j) : load b.keys j = some p.1 :=
  h.keys.load_eq (by simp [hp]) hj

theorem pairAt_eq (h : Stores c b ps) {k : Nat} {j : Int} {p : Int × T} (hp : ps[k]? = some p)
    (hj : Slot c b.r k j) : b.pairAt j = some p := by
  have hx : load b.elements j = some p.2 := h.elements.load_eq (by simp [hp]) hj
  simp [pairAt, h.load_key hp hj, hx]

theorem pairs_eq (h : Stores c b ps) : b.pairs = some ps := by
  apply Spans.walk_eq h.spans.capacity _ h.spans.room h.spans.reads h.spans.ahead
  · intro k p j hp hj
    exact h.pairAt_eq hp hj
  · rw [h.spans.capacity, Int.toNat_natCast]
    exact Nat.le_of_lt h.spans.room

theorem front_eq (h : Stores c b ps) {p : Int × T} (hp : ps.head? = some p) :
    b.pairAt b.r = some p := by
  have hreads := h.spans.reads
  apply h.pairAt_eq (k := 0)
  · rw [← List.head?_eq_getElem?, hp]
  · unfold Slot
    omega

theorem skip (h : Stores c b ps) (hps : ps ≠ []) : Stores c b.skip ps.tail := by
  have helements := h.elements.skip (by simpa using hps)
  have hkeys := h.keys.skip (by simpa using hps)
  rw [RingBuffer.skip, h.next_keyRing] at hkeys
  refine ⟨?_, ?_⟩
  · rw [List.map_tail]
    exact helements
  · rw [List.map_tail]
    exact hkeys

theorem read_eq (h : Stores c b ps) {p : Int × T} (hp : ps.head? = some p) :
    b.read = some (p.2, b.skip) := by
  have hx : (ps.map Prod.snd).head? = some p.2 := by simp [hp]
  simp [SortedRingBuffer.read, h.elements.read_eq hx, SortedRingBuffer.skip]

/-- Storing a pair at `w` and moving `w` ahead. -/
theorem push (h : Stores c b ps) (hroom : ps.length + 1 < c) (p : Int × T) :
    Stores c { b with
      elements := b.elements.set b.w.toNat p.2
      keys := b.keys.set b.w.toNat p.1
      w := b.next b.w } (ps ++ [p]) := by
  have helements := h.elements.push (by simpa using hroom) p.2
  have hkeys := h.keys.push (by simpa using hroom) p.1
  rw [h.next_keyRing] at hkeys
  refine ⟨?_, ?_⟩
  · rw [List.map_append]
    exact helements
  · rw [List.map_append]
    exact hkeys

theorem store_eq (h : Stores c b ps) (k : Int) :
    store b.keys b.w k = some (b.keys.set b.w.toNat k) :=
  h.keys.store_eq k

/-- Swapping the pairs in two neighbouring slots. -/
theorem swap {ps₁ ps₂ : List (Int × T)} {p q : Int × T} (h : Stores c b (ps₁ ++ p :: q :: ps₂))
    {i j : Int} (hi : Slot c b.r ps₁.length i) (hj : Slot c b.r (ps₁.length + 1) j) :
    ∃ elements keys, Cyclic.swap b.elements j i = some elements ∧
      Cyclic.swap b.keys j i = some keys ∧
      Stores c { b with elements := elements, keys := keys } (ps₁ ++ q :: p :: ps₂) := by
  obtain ⟨helements, hkeys⟩ := h
  rw [List.map_append, List.map_cons, List.map_cons] at helements hkeys
  obtain ⟨elements, hswap₁, h₁⟩ := helements.swap (by rwa [List.length_map])
    (by rwa [List.length_map])
  obtain ⟨keys, hswap₂, h₂⟩ := hkeys.swap (i := i) (j := j) (by rwa [List.length_map])
    (by rwa [List.length_map])
  refine ⟨elements, keys, hswap₁, hswap₂, ?_, ?_⟩
  · rw [List.map_append, List.map_cons, List.map_cons]
    exact h₁
  · rw [List.map_append, List.map_cons, List.map_cons]
    exact h₂

end Stores

/-- The order of `SortedRingBuffer`: keys do not decrease. -/
def KeyLE (p q : Int × T) : Prop := p.1 ≤ q.1

instance : DecidableRel (KeyLE (T := T)) := fun p q =>
  inferInstanceAs (Decidable (p.1 ≤ q.1))

instance : IsTrans (Int × T) KeyLE := ⟨fun _ _ _ => Int.le_trans⟩

instance : Std.Total (KeyLE (T := T)) := ⟨fun p q => Int.le_total p.1 q.1⟩

section OrderedInsert

variable {α : Type} {r : α → α → Prop} [DecidableRel r] {a : α} {l : List α}

theorem orderedInsert_concat {b : α} (h : r a b) :
    (l ++ [b]).orderedInsert r a = l.orderedInsert r a ++ [b] := by
  induction l with
  | nil => simp [h]
  | cons y l ih =>
    by_cases hy : r a y
    · simp [hy]
    · simp [hy, ih]

theorem orderedInsert_eq_concat (h : ∀ b ∈ l, ¬r a b) : l.orderedInsert r a = l ++ [a] := by
  induction l with
  | nil => rfl
  | cons y l ih =>
    have hy : ¬r a y := h y List.mem_cons_self
    simp [hy, ih fun b hb => h b (List.mem_cons_of_mem y hb)]

end OrderedInsert

namespace Stores

open RingBuffer

variable {c : Nat} {b : SortedRingBuffer T} {ps : List (Int × T)}

/-- The loop moves the new pair forward to where the order wants it. -/
theorem sink_eq {key : Int} {x : T} {pre post : List (Int × T)}
    (h : Stores c b (pre ++ (key, x) :: post)) (hpre : pre.Pairwise KeyLE) {oldw : Int}
    (hw : Slot c b.r pre.length oldw) {m : Nat} (hm : pre.length ≤ m) :
    ∃ b', sink key m oldw b = some b' ∧
      Stores c b' (pre.orderedInsert KeyLE (key, x) ++ post) := by
  induction pre using List.reverseRecOn generalizing m oldw b post with
  | nil =>
    have hr : oldw = b.r := by
      have hreads := h.spans.reads
      unfold Slot at hw
      simp at hw
      omega
    refine ⟨b, ?_, h⟩
    cases m <;> simp [sink, hr]
  | append_singleton pre p ih =>
    have hroom := h.spans.room
    have hreads := h.spans.reads
    have hp := prev_slot h.spans.capacity hw.1 hw.2.1
    simp only [List.length_append, List.length_cons, List.length_nil] at hroom hw hm
    have hne : oldw ≠ b.r := by
      unfold Slot at hw
      omega
    have hslot : Slot c b.r pre.length (b.prev oldw) := by
      unfold Slot at *
      omega
    rw [List.append_assoc, List.singleton_append] at h
    have hkey : load b.keys (b.prev oldw) = some p.1 := h.load_key (by simp) hslot
    cases m with
    | zero => omega
    | succ m =>
      by_cases hlt : p.1 < key
      · have hstay : (pre ++ [p]).orderedInsert KeyLE (key, x) = pre ++ [p] ++ [(key, x)] := by
          apply orderedInsert_eq_concat
          intro q hq hle
          have hqp : q.1 ≤ p.1 := by
            rcases List.mem_append.1 hq with hq | hq
            · exact (List.pairwise_append.1 hpre).2.2 q hq p List.mem_cons_self
            · rw [List.mem_singleton.1 hq]
          have hkq : key ≤ q.1 := hle
          omega
        refine ⟨b, by simp [sink, hne, hkey, hlt], ?_⟩
        rw [hstay]
        simpa using h
      · obtain ⟨elements, keys, hswap₁, hswap₂, hswapped⟩ := h.swap hslot hw
        obtain ⟨b', hsink, h'⟩ :=
          ih hswapped (List.pairwise_append.1 hpre).1 hslot (Nat.le_of_succ_le_succ hm)
        refine ⟨b', by simp [sink, hne, hkey, hlt, hswap₁, hswap₂, hsink], ?_⟩
        have hle : KeyLE (key, x) p := Int.not_lt.1 hlt
        rw [orderedInsert_concat hle]
        simpa using h'

theorem insert (h : Stores c b ps) (hsorted : ps.Pairwise KeyLE) (hroom : ps.length + 1 < c)
    (key : Int) (x : T) :
    ∃ b', b.insert key x = some b' ∧ Stores c b' (ps.orderedInsert KeyLE (key, x)) := by
  have hfull : b.isFull = false := h.spans.not_isFull_iff.2 hroom
  have hwrite : b.write x = some { b.toRingBuffer with
      elements := b.elements.set b.w.toNat x
      w := b.next b.w } := by
    simp [RingBuffer.write, hfull, h.elements.store_eq]
  have hpush := h.push hroom (key, x)
  obtain ⟨b', hsink, h'⟩ := hpush.sink_eq hsorted h.spans.ahead (m := b.capacity.toNat) (by
    rw [h.spans.capacity, Int.toNat_natCast]
    omega)
  refine ⟨b', ?_, by simpa using h'⟩
  simp only [SortedRingBuffer.insert, hwrite, h.store_eq, Option.bind_eq_bind, Option.bind_some]
  exact hsink

theorem le_of_newestAtMost (h : Stores c b ps) (hsorted : ps.Pairwise KeyLE) {key : Int}
    (hkey : b.newestAtMost key = true) : ∀ p ∈ ps, p.1 ≤ key := by
  cases ps using List.reverseRecOn with
  | nil =>
    intro p hp
    cases hp
  | append_singleton ps q =>
    have hlen : (ps ++ [q]).length = ps.length + 1 := List.length_append
    have hahead := h.spans.ahead
    have hreads := h.spans.reads
    rw [hlen] at hahead
    have hprev := prev_slot h.spans.capacity hahead.1 hahead.2.1
    have hempty : b.isEmpty = false := h.spans.not_isEmpty_iff.2 (by omega)
    have hload : load b.keys (b.prev b.w) = some q.1 := by
      apply h.load_key (k := ps.length)
      · simp
      · unfold Slot at *
        omega
    have hq : q.1 ≤ key := by simpa [newestAtMost, hempty, hload] using hkey
    intro p hp
    rcases List.mem_append.1 hp with hp | hp
    · have hpq : p.1 ≤ q.1 := (List.pairwise_append.1 hsorted).2.2 p hp q List.mem_cons_self
      omega
    · rwa [List.mem_singleton.1 hp]

theorem append (h : Stores c b ps) (hroom : ps.length + 1 < c) {key : Int}
    (hkey : b.newestAtMost key = true) (x : T) :
    ∃ b', b.append key x = some b' ∧ Stores c b' (ps ++ [(key, x)]) := by
  have hfull : b.isFull = false := h.spans.not_isFull_iff.2 hroom
  refine ⟨_, ?_, h.push hroom (key, x)⟩
  simp [SortedRingBuffer.append, hfull, hkey, h.elements.store_eq, h.store_eq]

end Stores

inductive Op (T : Type)
  | insert (key : Int) (element : T)
  | append (key : Int) (element : T)
  | read
  | skip
  | clear

/-- The element that a call returns and the pairs that it takes out. -/
structure Outcome (T : Type) where
  returned : Option T
  removed : List (Int × T)

def Op.pre (b : SortedRingBuffer T) : Op T → Prop
  | .insert _ _ => b.isFull = false
  | .append key _ => b.isFull = false ∧ b.newestAtMost key = true
  | .read => b.isEmpty = false
  | .skip => b.isEmpty = false
  | .clear => True

def Op.call (b : SortedRingBuffer T) : Op T → Option (Outcome T × SortedRingBuffer T)
  | .insert key x => do
    let b ← b.insert key x
    some (⟨none, []⟩, b)
  | .append key x => do
    let b ← b.append key x
    some (⟨none, []⟩, b)
  | .read => do
    let p ← b.pairAt b.r
    let (x, b) ← b.read
    some (⟨some x, [p]⟩, b)
  | .skip => do
    let p ← b.pairAt b.r
    some (⟨none, [p]⟩, b.skip)
  | .clear => do
    let ps ← b.pairs
    some (⟨none, ps⟩, b.clear)

def machine : Machine (Op T) (Outcome T) (SortedRingBuffer T) :=
  ⟨fun op b => op.pre b, fun op b => op.call b⟩

def Op.onList : Op T → List (Int × T) → Outcome T × List (Int × T)
  | .insert key x, ps => (⟨none, []⟩, ps.orderedInsert KeyLE (key, x))
  | .append key x, ps => (⟨none, []⟩, ps ++ [(key, x)])
  | .read, ps => (⟨ps.head?.map Prod.snd, ps.head?.toList⟩, ps.tail)
  | .skip, ps => (⟨none, ps.head?.toList⟩, ps.tail)
  | .clear, ps => (⟨none, ps⟩, [])

theorem machine_simulates {c : Nat} (hc : 0 < c) :
    (machine (T := T)).Simulates Op.onList fun b ps => Stores c b ps ∧ ps.Pairwise KeyLE := by
  rintro op b ps ⟨h, hsorted⟩ hpre
  cases op with
  | insert key x =>
    obtain ⟨b', hcall, h'⟩ := h.insert hsorted (h.spans.not_isFull_iff.1 hpre) key x
    refine ⟨b', by simp [machine, Op.call, Op.onList, hcall], h', ?_⟩
    exact hsorted.orderedInsert _ _
  | append key x =>
    obtain ⟨b', hcall, h'⟩ := h.append (h.spans.not_isFull_iff.1 hpre.1) hpre.2 x
    refine ⟨b', by simp [machine, Op.call, Op.onList, hcall], h', ?_⟩
    refine List.pairwise_append.2 ⟨hsorted, List.pairwise_singleton _ _, ?_⟩
    intro p hp q hq
    rw [List.mem_singleton.1 hq]
    exact h.le_of_newestAtMost hsorted hpre.2 p hp
  | read =>
    have hne : ps ≠ [] := List.ne_nil_of_length_pos (h.spans.not_isEmpty_iff.1 hpre)
    have hhead := List.head?_eq_some_head hne
    refine ⟨b.skip, ?_, h.skip hne, hsorted.tail⟩
    simp [machine, Op.call, Op.onList, h.front_eq hhead, h.read_eq hhead, hhead]
  | skip =>
    have hne : ps ≠ [] := List.ne_nil_of_length_pos (h.spans.not_isEmpty_iff.1 hpre)
    have hhead := List.head?_eq_some_head hne
    refine ⟨b.skip, ?_, h.skip hne, hsorted.tail⟩
    simp [machine, Op.call, Op.onList, h.front_eq hhead, hhead]
  | clear =>
    refine ⟨b.clear, ?_, Stores.clear h.elements.sized h.keys.sized hc, List.Pairwise.nil⟩
    simp [machine, Op.call, Op.onList, h.pairs_eq]

def Op.added : Op T → List (Int × T)
  | .insert key x => [(key, x)]
  | .append key x => [(key, x)]
  | _ => []

theorem Op.onList_perm (op : Op T) (ps : List (Int × T)) :
    (op.added ++ ps).Perm ((op.onList ps).1.removed ++ (op.onList ps).2) := by
  cases op with
  | insert key x => exact (List.perm_orderedInsert KeyLE (key, x) ps).symm
  | append key x => exact List.perm_append_comm
  | read => cases ps <;> exact List.Perm.refl _
  | skip => cases ps <;> exact List.Perm.refl _
  | clear => simp [Op.added, Op.onList]

theorem follow_perm (ops : List (Op T)) (ps : List (Int × T)) :
    (ops.flatMap Op.added ++ ps).Perm
      ((Machine.follow Op.onList ops ps).1.flatMap Outcome.removed ++
        (Machine.follow Op.onList ops ps).2) := by
  induction ops generalizing ps with
  | nil => exact List.Perm.refl _
  | cons op ops ih =>
    have hstep := op.onList_perm ps
    simp only [Machine.follow, List.flatMap_cons, List.append_assoc]
    have hfirst := hstep.append_left (ops.flatMap Op.added)
    have hrest := (ih (op.onList ps).2).append_left (op.onList ps).1.removed
    exact (List.perm_append_comm_assoc _ _ _).trans
      (hfirst.trans ((List.perm_append_comm_assoc _ _ _).trans hrest))

/-- After the calls `ops` on `b` the keys from `r` to `w` do not decrease, the pairs there are
those added and not taken out, and the next element to be read has the least key. -/
def RunsAsPriorityQueue (b : SortedRingBuffer T) (ops : List (Op T)) : Prop :=
  ∃ outs b' ps, machine.run ops b = some (outs, b') ∧ b'.pairs = some ps ∧
    ps.Pairwise KeyLE ∧
    (ops.flatMap Op.added).Perm (outs.flatMap Outcome.removed ++ ps) ∧
    (b'.isEmpty = false →
      ∃ p ∈ ps, b'.read = some (p.2, b'.skip) ∧ ∀ q ∈ ps, p.1 ≤ q.1)

theorem runs_as_priority_queue {b : SortedRingBuffer T} (hcap : 1 ≤ b.cap)
    (hkeys : b.keys.length = b.elements.length) {ops : List (Op T)}
    (hops : machine.Admits ops b.clear) : RunsAsPriorityQueue b.clear ops := by
  have h0 : 0 < b.elements.length := Int.ofNat_lt.1 hcap
  obtain ⟨b', hrun, h', hsorted⟩ := (machine_simulates h0).run
    ⟨Stores.clear rfl hkeys h0, List.Pairwise.nil⟩ hops
  refine ⟨_, b', _, hrun, h'.pairs_eq, hsorted, ?_, ?_⟩
  · simpa using follow_perm ops []
  · intro hempty
    have hne := List.ne_nil_of_length_pos (h'.spans.not_isEmpty_iff.1 hempty)
    obtain ⟨p, ps, hps⟩ := List.exists_cons_of_ne_nil hne
    rw [hps] at h' hsorted ⊢
    refine ⟨p, List.mem_cons_self, h'.read_eq rfl, ?_⟩
    intro q hq
    rcases List.mem_cons.1 hq with rfl | hq
    · exact Int.le_refl _
    · exact List.rel_of_pairwise_cons hsorted hq

theorem runs_as_priority_queue_two_keys :
    RunsAsPriorityQueue (⟨⟨.fixed, ["", "", ""], 0, 0⟩, [0, 0, 0]⟩ : SortedRingBuffer String)
      [.insert 5 "b", .insert 3 "a", .read, .append 7 "c"] := by
  apply runs_as_priority_queue (b := ⟨⟨.fixed, ["", "", ""], 0, 0⟩, [0, 0, 0]⟩) (by decide) rfl
  refine .cons rfl rfl (.cons rfl rfl (.cons rfl rfl ?_))
  exact .cons ⟨rfl, rfl⟩ rfl trivial

/-- A buffer without slots never counts as full. -/
theorem not_priority_queue_without_slots :
    ¬∀ (b : SortedRingBuffer Nat) (ops : List (Op Nat)), b.keys.length = b.elements.length →
      machine.Admits ops b.clear → RunsAsPriorityQueue b.clear ops := by
  intro h
  obtain ⟨outs, b', ps, hrun, _⟩ := h ⟨⟨.fixed, [], 0, 0⟩, []⟩ [.insert 1 1] rfl
    ⟨rfl, fun _ _ h => nomatch h⟩
  cases hrun

/-- The states that calls lead to from an empty buffer. -/
inductive Reachable : SortedRingBuffer T → Prop
  | start (b : SortedRingBuffer T) (hkeys : b.keys.length = b.elements.length) :
      Reachable b.clear
  | call {b b' : SortedRingBuffer T} {op : Op T} {out : Outcome T} (h : Reachable b)
      (hpre : op.pre b) (hcall : op.call b = some (out, b')) : Reachable b'

/-- A buffer without slots stays empty: nothing can be stored. -/
structure Blank (b : SortedRingBuffer T) : Prop where
  elements : b.elements = []
  empty : b.isEmpty = true

theorem Blank.store_eq {b : SortedRingBuffer T} (h : Blank b) (x : T) :
    store b.elements b.w x = none :=
  store_of_nil h.elements _ _

theorem Blank.call {b b' : SortedRingBuffer T} {op : Op T} {out : Outcome T} (h : Blank b)
    (hpre : op.pre b) (hcall : op.call b = some (out, b')) : Blank b' := by
  cases op with
  | insert key x => simp [Op.call, insert, RingBuffer.write, h.store_eq] at hcall
  | append key x => simp [Op.call, append, h.store_eq] at hcall
  | read => rw [Op.pre, h.empty] at hpre; cases hpre
  | skip => rw [Op.pre, h.empty] at hpre; cases hpre
  | clear =>
    cases hps : b.pairs with
    | none => simp [Op.call, hps] at hcall
    | some ps =>
      simp only [Op.call, hps, Option.bind_eq_bind, Option.bind_some, Option.some.injEq,
        Prod.mk.injEq] at hcall
      rw [← hcall.2]
      exact ⟨h.elements, rfl⟩

theorem Reachable.stores {b : SortedRingBuffer T} (h : Reachable b) :
    Blank b ∨ ∃ c ps, Stores c b ps ∧ ps.Pairwise KeyLE := by
  induction h with
  | start b hkeys =>
    cases hs : b.elements with
    | nil => exact Or.inl ⟨hs, rfl⟩
    | cons x xs =>
      have h0 : 0 < b.elements.length := by simp [hs]
      exact Or.inr ⟨_, [], Stores.clear rfl hkeys h0, List.Pairwise.nil⟩
  | call _ hpre hcall ih =>
    rcases ih with hblank | ⟨c, ps, hstores, hsorted⟩
    · exact Or.inl (hblank.call hpre hcall)
    · right
      have h0 : 0 < c := Nat.zero_lt_of_lt hstores.spans.room
      obtain ⟨t, hcall', ht, hsorted'⟩ := machine_simulates h0 _ _ _ ⟨hstores, hsorted⟩ hpre
      rw [show machine.step _ _ = some _ from hcall] at hcall'
      cases hcall'
      exact ⟨c, _, ht, hsorted'⟩

/-- `append` and `insert` lead to the same pairs in the same order. -/
def Agree (b : SortedRingBuffer T) (key : Int) (x : T) : Prop :=
  ∃ s t ps, b.append key x = some s ∧ b.insert key x = some t ∧ s.pairs = some ps ∧
    t.pairs = some ps

theorem append_eq_cons_iff {α : Type} {a : α} {l : List α} :
    l ++ [a] = a :: l ↔ ∀ b ∈ l, b = a := by
  induction l with
  | nil => simp
  | cons y l ih =>
    rw [List.cons_append, List.cons.injEq, List.forall_mem_cons, ← ih]
    constructor
    · rintro ⟨rfl, h⟩
      exact ⟨rfl, h⟩
    · rintro ⟨rfl, h⟩
      exact ⟨rfl, h⟩

/-- `insert` puts the new pair before the stored pairs with its key, `append` behind them. -/
theorem append_eq_orderedInsert_iff {ps : List (Int × T)} (hsorted : ps.Pairwise KeyLE)
    {key : Int} (hle : ∀ p ∈ ps, p.1 ≤ key) (x : T) :
    ps ++ [(key, x)] = ps.orderedInsert KeyLE (key, x) ↔ ∀ p ∈ ps, p.1 = key → p.2 = x := by
  induction ps with
  | nil => simp
  | cons p ps ih =>
    have hrest := ih hsorted.of_cons fun q hq => hle q (List.mem_cons_of_mem p hq)
    by_cases hp : KeyLE (key, x) p
    · have htie : ∀ q ∈ p :: ps, q.1 = key := by
        intro q hq
        have hpq : p.1 ≤ q.1 := by
          rcases List.mem_cons.1 hq with rfl | hq
          · exact Int.le_refl _
          · exact List.rel_of_pairwise_cons hsorted hq
        exact Int.le_antisymm (hle q hq) (Int.le_trans hp hpq)
      rw [List.orderedInsert_cons_of_le KeyLE ps hp, append_eq_cons_iff]
      constructor
      · intro h q hq _
        rw [h q hq]
      · intro h q hq
        exact Prod.ext (htie q hq) (h q hq (htie q hq))
    · have hne : p.1 ≠ key := fun heq => hp (Int.le_of_eq heq.symm)
      rw [List.cons_append, List.orderedInsert_of_not_le KeyLE ps hp, List.cons.injEq,
        List.forall_mem_cons, hrest]
      simp [hne]

theorem agree_iff {b : SortedRingBuffer T} (h : Reachable b) (hfull : b.isFull = false)
    {key : Int} (hkey : b.newestAtMost key = true) (x : T) :
    Agree b key x ↔
      1 ≤ b.cap ∧ ∀ ps, b.pairs = some ps → ∀ p ∈ ps, p.1 = key → p.2 = x := by
  rcases h.stores with hblank | ⟨c, ps, hstores, hsorted⟩
  · have hcap : b.cap = 0 := by simp [RingBuffer.cap, RingBuffer.capacity, hblank.elements]
    constructor
    · rintro ⟨s, t, ps, happend, _⟩
      simp [append, hblank.store_eq] at happend
    · intro h
      omega
  · have hroom := hstores.spans.not_isFull_iff.1 hfull
    obtain ⟨s, happend, hs⟩ := hstores.append hroom hkey x
    obtain ⟨t, hinsert, ht⟩ := hstores.insert hsorted hroom key x
    have hle := hstores.le_of_newestAtMost hsorted hkey
    have hcap : 1 ≤ b.cap := by
      rw [RingBuffer.cap, hstores.spans.capacity]
      omega
    have hagree : Agree b key x ↔ ps ++ [(key, x)] = ps.orderedInsert KeyLE (key, x) := by
      simp [Agree, happend, hinsert, hs.pairs_eq, ht.pairs_eq, eq_comm]
    rw [hagree, append_eq_orderedInsert_iff hsorted hle]
    simp [hcap, hstores.pairs_eq]

def oneInserted : SortedRingBuffer Nat := ⟨⟨.fixed, [1, 0, 0], 0, 1⟩, [5, 0, 0]⟩

def noneInserted : SortedRingBuffer Nat := clear ⟨⟨.fixed, [0, 0, 0], 0, 0⟩, [0, 0, 0]⟩

theorem oneInserted_reachable : Reachable oneInserted := by
  have hpre : (Op.insert 5 1).pre noneInserted := rfl
  have hcall : (Op.insert 5 1).call noneInserted = some (⟨none, []⟩, oneInserted) := rfl
  exact .call (.start _ rfl) hpre hcall

theorem agree_iff_after_insert :
    Agree oneInserted 5 2 ↔
      1 ≤ oneInserted.cap ∧ ∀ ps, oneInserted.pairs = some ps → ∀ p ∈ ps, p.1 = 5 → p.2 = 2 :=
  agree_iff oneInserted_reachable rfl rfl 2

/-- Of two elements with one key, `insert` puts the later one first. -/
theorem not_agree_on_tie :
    ∃ b : SortedRingBuffer Nat, Reachable b ∧ b.isFull = false ∧ b.newestAtMost 5 = true ∧
      ¬Agree b 5 2 := by
  refine ⟨oneInserted, oneInserted_reachable, rfl, rfl, ?_⟩
  rintro ⟨s, t, ps, happend, hinsert, hs, ht⟩
  cases happend
  cases hinsert
  cases hs
  cases ht

end SortedRingBuffer

end Utlib
