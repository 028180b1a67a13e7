import Mathlib.Tactic.IntervalCases
import Utlib.Timeline

/-! `utl::Sticky` (wrappers/Sticky.h). -/

namespace Utlib

open Timeline

structure Sticky (T : Type) where
  stickiness : Int
  oldValue : T
  change : Int
  newValue : T

structure Assignment (T : Type) where
  value : T
  when : Int

namespace Sticky

variable {T : Type}

def fresh [Inhabited T] (stickiness : Int) : Sticky T := ⟨stickiness, default, 0, default⟩

/-- A failed assertion is `none`. -/
def get (s : Sticky T) (when : Int) : Option T :=
  if when < s.change then none
  else some (if when - s.change ≥ s.stickiness then s.newValue else s.oldValue)

theorem get_old {s : Sticky T} {t : Int} (hle : s.change ≤ t) (hlt : t < s.change + s.stickiness) :
    s.get t = some s.oldValue := by
  rw [get, if_neg (by omega), if_neg (by omega)]

theorem get_new {s : Sticky T} {t : Int} (hle : s.change ≤ t) (hge : s.change + s.stickiness ≤ t) :
    s.get t = some s.newValue := by
  rw [get, if_neg (by omega), if_pos (by omega)]

theorem get_eq_none {s : Sticky T} {t : Int} (h : t < s.change) : s.get t = none := by
  rw [get, if_pos h]

/-- The call replaces a value that has appeared late, and not long enough ago. -/
def CutsShort (s : Sticky T) (a : Assignment T) : Prop :=
  a.value ≠ s.newValue ∧ s.oldValue ≠ s.newValue ∧ s.change + s.stickiness < a.when ∧
    a.when < s.change + 2 * s.stickiness

/-- The value `v` has become visible at `t₀`, at once or late. -/
def Shows (v : T) (t₀ : Int) (s : Sticky T) : Prop :=
  s.oldValue = v ∧ t₀ ≤ s.change ∨
    s.newValue = v ∧ s.oldValue ≠ v ∧ s.change + s.stickiness = t₀

theorem Shows.get {v : T} {t₀ t : Int} {s : Sticky T} (hs : Shows v t₀ s) (hchange : s.change ≤ t)
    (hle : t₀ ≤ t) (hlt : t < t₀ + s.stickiness) : s.get t = some v := by
  rcases hs with ⟨rfl, hstart⟩ | ⟨rfl, _, hlate⟩
  · exact get_old hchange (by omega)
  · exact get_new hchange (by omega)

variable [DecidableEq T]

/-- The part of `set` behind its assertion. -/
def assign (s : Sticky T) (a : Assignment T) : Sticky T :=
  if a.value = s.newValue then s
  else { s with
    oldValue := if a.when - s.change ≥ s.stickiness then a.value else s.oldValue
    newValue := a.value
    change := a.when }

def set (s : Sticky T) (value : T) (when : Int) : Option (Sticky T) :=
  if when < s.change then none else some (s.assign ⟨value, when⟩)

theorem stickiness_assign (s : Sticky T) (a : Assignment T) :
    (s.assign a).stickiness = s.stickiness := by
  rw [assign]
  split <;> rfl

theorem newValue_assign (s : Sticky T) (a : Assignment T) : (s.assign a).newValue = a.value := by
  rw [assign]
  split
  · next h => exact h.symm
  · rfl

theorem assign_of_eq {s : Sticky T} {a : Assignment T} (h : a.value = s.newValue) :
    s.assign a = s := by
  rw [assign, if_pos h]

theorem change_assign {s : Sticky T} {a : Assignment T} (h : a.value ≠ s.newValue) :
    (s.assign a).change = a.when := by
  rw [assign, if_neg h]

theorem change_assign_of_when {s : Sticky T} {a : Assignment T} (h : a.when = s.change) :
    (s.assign a).change = s.change := by
  by_cases hvalue : a.value = s.newValue
  · rw [assign_of_eq hvalue]
  · rw [change_assign hvalue, h]

theorem oldValue_of_prompt {s : Sticky T} {a : Assignment T} (h : a.value ≠ s.newValue)
    (hprompt : s.change + s.stickiness ≤ a.when) : (s.assign a).oldValue = a.value := by
  rw [assign, if_neg h]
  exact if_pos (by omega)

theorem oldValue_of_delayed {s : Sticky T} {a : Assignment T}
    (hdelayed : a.when < s.change + s.stickiness) : (s.assign a).oldValue = s.oldValue := by
  rw [assign]
  split
  · rfl
  · exact if_neg (by omega)

theorem Shows.assign {v : T} {t₀ : Int} {s : Sticky T} {a : Assignment T} (hs : Shows v t₀ s)
    (hcut : ¬CutsShort s a) (hlt : t₀ < a.when) (hwhen : a.when < t₀ + s.stickiness) :
    Shows v t₀ (s.assign a) := by
  by_cases hvalue : a.value = s.newValue
  · rwa [assign_of_eq hvalue]
  · rcases hs with ⟨hold, hstart⟩ | ⟨hnew, hold, hlate⟩
    · left
      rw [oldValue_of_delayed (by omega), change_assign hvalue]
      exact ⟨hold, by omega⟩
    · rw [← hnew] at hold
      exact absurd ⟨hvalue, hold, by omega, by omega⟩ hcut

variable [Inhabited T]

/-- A fresh object and the calls of `set` on it. -/
structure History (T : Type) where
  stickiness : Int
  calls : List (Assignment T)
  stickiness_nonneg : 0 ≤ stickiness
  when_nonneg : ∀ a ∈ calls, 0 ≤ a.when
  chronological : Chronological Assignment.when calls

namespace History

variable (h : History T)

def stateAt (t : Int) : Option (Sticky T) :=
  (upTo Assignment.when t h.calls).foldlM (fun s a => s.set a.value a.when) (fresh h.stickiness)

/-- The visible value at the time `t`. -/
def visible (t : Int) : Option T := do
  let s ← h.stateAt t
  s.get t

/-- The most recently assigned value at the time `t`. -/
def assigned (t : Int) : T :=
  ((upTo Assignment.when t h.calls).getLast?.map Assignment.value).getD default

def Becomes (v : T) (t : Int) : Prop := h.visible t = some v ∧ h.visible (t - 1) ≠ some v

/-- The object after some of the calls. -/
def after (done : List (Assignment T)) : Sticky T := done.foldl assign (fresh h.stickiness)

variable {h} {pre rest : List (Assignment T)} {a : Assignment T} {t u : Int}

theorem after_concat (pre : List (Assignment T)) (a : Assignment T) :
    h.after (pre ++ [a]) = (h.after pre).assign a := by
  rw [after, List.foldl_append]
  rfl

theorem stickiness_after (pre : List (Assignment T)) :
    (h.after pre).stickiness = h.stickiness := by
  induction pre using List.reverseRecOn with
  | nil => rfl
  | append_singleton pre a ih => rw [after_concat, stickiness_assign, ih]

/-- `change` is the beginning or the time of a call. -/
theorem change_after {p : Int → Prop} (h₀ : p 0) (hpre : ∀ a ∈ pre, p a.when) :
    p (h.after pre).change := by
  induction pre using List.reverseRecOn with
  | nil => exact h₀
  | append_singleton pre a ih =>
    rw [List.forall_mem_append] at hpre
    rw [after_concat]
    by_cases hvalue : a.value = (h.after pre).newValue
    · rw [assign_of_eq hvalue]
      exact ih hpre.1
    · rw [change_assign hvalue]
      exact hpre.2 a (List.mem_singleton_self a)

theorem change_after_nonneg (hpre : ∀ a ∈ pre, 0 ≤ a.when) : 0 ≤ (h.after pre).change :=
  change_after (Int.le_refl 0) hpre

theorem change_after_le (ht : 0 ≤ t) (hpre : ∀ a ∈ pre, a.when ≤ t) :
    (h.after pre).change ≤ t :=
  change_after (p := fun change => change ≤ t) ht hpre

theorem foldlM_set (hnonneg : ∀ a ∈ pre, 0 ≤ a.when) (hpre : Chronological Assignment.when pre) :
    pre.foldlM (fun s a => s.set a.value a.when) (fresh h.stickiness) = some (h.after pre) := by
  induction pre using List.reverseRecOn with
  | nil => rfl
  | append_singleton pre a ih =>
    rw [List.forall_mem_append] at hnonneg
    have hchange : (h.after pre).change ≤ a.when :=
      change_after_le (hnonneg.2 a (List.mem_singleton_self a)) hpre.le.1
    rw [List.foldlM_append, ih hnonneg.1 hpre.of_append, after_concat]
    simp [set, Int.not_lt.2 hchange]

theorem stateAt_eq (h : History T) (t : Int) :
    h.stateAt t = some (h.after (upTo Assignment.when t h.calls)) :=
  foldlM_set (fun a ha => h.when_nonneg a (mem_upTo.1 ha).1) (h.chronological.upTo t)

theorem visible_eq (h : History T) (t : Int) :
    h.visible t = (h.after (upTo Assignment.when t h.calls)).get t := by
  rw [visible, stateAt_eq]
  rfl

/-- The calls behind the last change do nothing. -/
theorem after_upTo (hpre : Chronological Assignment.when pre) (ht : (h.after pre).change ≤ t) :
    h.after (upTo Assignment.when t pre) = h.after pre := by
  induction pre using List.reverseRecOn with
  | nil => rfl
  | append_singleton pre a ih =>
    by_cases hwhen : a.when ≤ t
    · rw [upTo_eq_self]
      intro b hb
      rcases List.mem_append.1 hb with hb | hb
      · have hle := hpre.le.1 b hb
        omega
      · rw [List.mem_singleton.1 hb]
        exact hwhen
    · have hvalue : a.value = (h.after pre).newValue := by
        by_contra hne
        rw [after_concat, change_assign hne] at ht
        exact hwhen ht
      rw [after_concat, assign_of_eq hvalue] at ht ⊢
      rw [hpre.upTo_of_lt (by omega), ih hpre.of_append ht]

theorem visible_of_split (hcalls : h.calls = pre ++ a :: rest) (hchange : (h.after pre).change ≤ t)
    (ht : t < a.when) : h.visible t = (h.after pre).get t := by
  have hchron := h.chronological
  rw [hcalls] at hchron
  rw [visible_eq, hcalls, hchron.upTo_of_lt ht, after_upTo hchron.of_append hchange]

theorem change_le_of_upTo (ht : 0 ≤ t) :
    (h.after (upTo Assignment.when t h.calls)).change ≤ t :=
  change_after_le ht fun _ ha => (mem_upTo.1 ha).2

theorem visible_eq_none (ht : t < 0) : h.visible t = none := by
  rw [visible_eq]
  refine get_eq_none (Int.lt_of_lt_of_le ht (change_after_nonneg ?_))
  intro a ha
  exact h.when_nonneg a (mem_upTo.1 ha).1

theorem nonneg_of_visible {v : T} (hv : h.visible t = some v) : 0 ≤ t := by
  by_contra ht
  rw [visible_eq_none (by omega)] at hv
  cases hv

/-- Between its last change and `t`, the object shows what it shows at `t`. -/
theorem visible_of_upTo (hchange : (h.after (upTo Assignment.when t h.calls)).change ≤ u)
    (hu : u ≤ t) : h.visible u = (h.after (upTo Assignment.when t h.calls)).get u := by
  rw [visible_eq, ← upTo_upTo hu h.calls, after_upTo (h.chronological.upTo t) hchange]

section HoldsEach

variable {v : T} {s : Sticky T} {t₀ : Int}

/-- Each value that becomes visible stays visible for the time of the stickiness. -/
def HoldsEach (h : History T) : Prop :=
  ∀ v t₀, h.Becomes v t₀ → ∀ t, t₀ ≤ t → t < t₀ + h.stickiness → h.visible t = some v

theorem Becomes.shows (hb : h.Becomes v t) (hpos : 0 < h.stickiness) :
    Shows v t (h.after (upTo Assignment.when t h.calls)) := by
  obtain ⟨hnow, hbefore⟩ := hb
  have hchange := change_le_of_upTo (h := h) (nonneg_of_visible hnow)
  have hstick := stickiness_after (h := h) (upTo Assignment.when t h.calls)
  rw [visible_eq] at hnow
  by_cases hstart : t ≤ (h.after (upTo Assignment.when t h.calls)).change
  · rw [get_old hchange (by omega)] at hnow
    exact .inl ⟨Option.some.inj hnow, hstart⟩
  · rw [visible_of_upTo (t := t) (by omega) (by omega)] at hbefore
    by_cases hlate : t < (h.after (upTo Assignment.when t h.calls)).change + h.stickiness
    · rw [get_old hchange (by omega)] at hnow
      rw [get_old (by omega) (by omega)] at hbefore
      exact absurd hnow hbefore
    · rw [get_new hchange (by omega)] at hnow
      by_cases hlater :
          (h.after (upTo Assignment.when t h.calls)).change + h.stickiness ≤ t - 1
      · rw [get_new (by omega) (by omega)] at hbefore
        exact absurd hnow hbefore
      · rw [get_old (by omega) (by omega)] at hbefore
        refine .inr ⟨Option.some.inj hnow, fun hold => hbefore (congrArg some hold), ?_⟩
        omega

theorem Becomes.shows_until (hb : h.Becomes v t₀)
    (hcuts : ∀ pre a rest, h.calls = pre ++ a :: rest → ¬CutsShort (h.after pre) a)
    (hle : t₀ ≤ t) (hlt : t < t₀ + h.stickiness) :
    Shows v t₀ (h.after (upTo Assignment.when t h.calls)) := by
  obtain ⟨later, hcalls, hlater⟩ := h.chronological.split t₀
  have hchron := h.chronological
  rw [hcalls] at hchron ⊢
  refine upTo_induction (P := fun done => Shows v t₀ (h.after done)) ?_ (hb.shows (by omega))
    hchron ?_
  · intro a ha
    exact Int.le_trans (mem_upTo.1 ha).2 hle
  · intro mid a rest hrest hwhen hshows
    have hsplit : h.calls = upTo Assignment.when t₀ h.calls ++ mid ++ a :: rest := by
      rw [List.append_assoc, ← hrest]
      exact hcalls
    rw [after_concat]
    refine hshows.assign (hcuts _ _ _ hsplit) (hlater a ?_) ?_
    · rw [hrest]
      simp
    · rw [stickiness_after]
      omega

/-- Later calls with the same time stamp are delayed. -/
theorem visible_of_prompt (hcalls : h.calls = pre ++ a :: rest) (hpos : 0 < h.stickiness)
    (hvalue : a.value ≠ (h.after pre).newValue)
    (hprompt : (h.after pre).change + h.stickiness ≤ a.when) :
    h.visible a.when = some a.value := by
  obtain ⟨hchron, hpre, hrest⟩ := (hcalls ▸ h.chronological).concat
  have hstate : (h.after (upTo Assignment.when a.when h.calls)).oldValue = a.value ∧
      (h.after (upTo Assignment.when a.when h.calls)).change = a.when := by
    rw [hcalls, List.append_cons]
    refine upTo_induction
      (P := fun done => (h.after done).oldValue = a.value ∧ (h.after done).change = a.when)
      hpre ?_ hchron ?_
    · rw [after_concat]
      refine ⟨oldValue_of_prompt hvalue ?_, change_assign hvalue⟩
      rwa [stickiness_after]
    · intro mid b later hsplit hwhen hmid
      have hb : a.when ≤ b.when := by
        apply hrest
        rw [hsplit]
        simp
      rw [after_concat, oldValue_of_delayed, change_assign_of_when]
      · exact hmid
      · omega
      · rw [stickiness_after]
        omega
  rw [visible_eq, get_old, hstate.1]
  · omega
  · rw [stickiness_after]
    omega

theorem holdsEach_iff (h : History T) :
    h.HoldsEach ↔
      ∀ pre a rest, h.calls = pre ++ a :: rest → ¬CutsShort (h.after pre) a := by
  constructor
  · intro hholds pre a rest hcalls hcut
    obtain ⟨hvalue, hne, hlate, hearly⟩ := hcut
    rw [stickiness_after] at hlate hearly
    have hstick := stickiness_after (h := h) pre
    have hvisible : ∀ u, (h.after pre).change ≤ u → u < a.when →
        h.visible u = (h.after pre).get u :=
      fun u => visible_of_split hcalls
    have hbecomes : h.Becomes (h.after pre).newValue ((h.after pre).change + h.stickiness) := by
      constructor
      · rw [hvisible _ (by omega) hlate, get_new (by omega) (by omega)]
      · rw [hvisible _ (by omega) (by omega), get_old (by omega) (by omega)]
        exact fun heq => hne (Option.some.inj heq)
    have hnew := hholds _ _ hbecomes a.when (by omega) (by omega)
    rw [visible_of_prompt hcalls (by omega) hvalue (by omega)] at hnew
    exact hvalue (Option.some.inj hnew)
  · intro hcuts v t₀ hb t hle hlt
    rw [visible_eq]
    refine (hb.shows_until hcuts hle hlt).get ?_ hle ?_
    · have hnow := nonneg_of_visible hb.1
      exact change_le_of_upTo (by omega)
    · rwa [stickiness_after]

/-- A value appears late and is replaced one time unit later. -/
def shortShow : History Nat where
  stickiness := 5
  calls := [⟨1, 10⟩, ⟨2, 12⟩, ⟨3, 18⟩]
  stickiness_nonneg := by decide
  when_nonneg := by decide
  chronological := by simp [Chronological]

theorem shortShow_not_holdsEach : ¬∀ h : History Nat, h.HoldsEach := by
  intro hall
  have hbecomes : shortShow.Becomes 2 17 := by
    constructor <;> decide
  have hvisible : shortShow.visible 18 = some 2 :=
    hall shortShow 2 17 hbecomes 18 (by decide) (by decide)
  revert hvisible
  decide

end HoldsEach

section LetsThrough

variable {v : T} {s : Sticky T} {t₀ : Int}

/-- What has been visible for the time of the stickiness is the value assigned last. -/
def LetsThrough (h : History T) : Prop :=
  ∀ v t₀ t, h.Becomes v t₀ → t₀ + h.stickiness ≤ t →
    (∀ u, t₀ ≤ u → u ≤ t → h.visible u = some v) → h.assigned t = v

/-- The call makes its value visible at once, where another one was visible. -/
def Appears (s : Sticky T) (a : Assignment T) : Prop :=
  a.value ≠ s.newValue ∧ s.change + s.stickiness ≤ a.when ∧
    (a.when = s.change + s.stickiness → a.value ≠ s.oldValue)

instance (s : Sticky T) (a : Assignment T) : Decidable (Appears s a) := by
  unfold Appears
  infer_instance

/-- The object after some of the calls, and since when its old value has been the visible one. -/
def trace (h : History T) (done : List (Assignment T)) : Sticky T × Int :=
  done.foldl (fun p a => (p.1.assign a, if Appears p.1 a then a.when else p.2))
    (fresh h.stickiness, 0)

def since (h : History T) (done : List (Assignment T)) : Int := (h.trace done).2

/-- The call waits behind a value that has been visible for some time, and neither it nor a later
one replaces that value in time. -/
def Strands (h : History T) (pre : List (Assignment T)) (a : Assignment T)
    (rest : List (Assignment T)) : Prop :=
  a.value ≠ (h.after pre).newValue ∧ a.value ≠ (h.after pre).oldValue ∧
    a.when < (h.after pre).change + h.stickiness ∧ h.since pre < a.when ∧
    ∀ b ∈ rest, b.when ≤ max a.when (h.since pre + h.stickiness) → b.value = a.value

theorem since_nil (h : History T) : h.since [] = 0 := rfl

theorem trace_concat (pre : List (Assignment T)) (a : Assignment T) :
    h.trace (pre ++ [a]) =
      ((h.trace pre).1.assign a, if Appears (h.trace pre).1 a then a.when else h.since pre) := by
  rw [trace, List.foldl_append]
  rfl

theorem trace_fst (pre : List (Assignment T)) : (h.trace pre).1 = h.after pre := by
  induction pre using List.reverseRecOn with
  | nil => rfl
  | append_singleton pre a ih => rw [trace_concat, after_concat, ih]

theorem since_of_appears (ha : Appears (h.after pre) a) : h.since (pre ++ [a]) = a.when := by
  rw [since, trace_concat, trace_fst]
  exact if_pos ha

theorem since_of_not_appears (ha : ¬Appears (h.after pre) a) :
    h.since (pre ++ [a]) = h.since pre := by
  rw [since, trace_concat, trace_fst]
  exact if_neg ha

/-- The old value has been visible up to the last change, since `since`. -/
structure Shown (h : History T) (pre : List (Assignment T)) : Prop where
  since_le : h.since pre ≤ (h.after pre).change
  visible_eq : ∀ u, h.since pre ≤ u → u < (h.after pre).change →
    h.visible u = some (h.after pre).oldValue
  visible_ne : h.visible (h.since pre - 1) ≠ some (h.after pre).oldValue

theorem shown_nil (h : History T) : h.Shown [] where
  since_le := Int.le_refl 0
  visible_eq := by
    intro u hle hlt
    exact absurd hlt (Int.not_lt.2 hle)
  visible_ne := by
    rw [since_nil, visible_eq_none (by decide)]
    exact nofun

theorem Shown.delayed (hs : h.Shown pre) (hcalls : h.calls = pre ++ a :: rest)
    (hvalue : a.value ≠ (h.after pre).newValue) (hchange : (h.after pre).change ≤ a.when)
    (hdelayed : a.when < (h.after pre).change + h.stickiness) : h.Shown (pre ++ [a]) := by
  have hstick := stickiness_after (h := h) pre
  have hsince : h.since (pre ++ [a]) = h.since pre :=
    since_of_not_appears fun happears => by
      have hprompt := happears.2.1
      omega
  have hle := hs.since_le
  have hold : (h.after (pre ++ [a])).oldValue = (h.after pre).oldValue := by
    rw [after_concat, oldValue_of_delayed (by omega)]
  have hnow : (h.after (pre ++ [a])).change = a.when := by
    rw [after_concat, change_assign hvalue]
  constructor
  · omega
  · intro u hu hlt
    rw [hold]
    by_cases hbefore : u < (h.after pre).change
    · exact hs.visible_eq u (by omega) hbefore
    · rw [visible_of_split hcalls (by omega) (by omega), get_old (by omega) (by omega)]
  · rw [hsince, hold]
    exact hs.visible_ne

theorem Shown.prompt (hs : h.Shown pre) (hcalls : h.calls = pre ++ a :: rest)
    (hpos : 0 < h.stickiness) (hvalue : a.value ≠ (h.after pre).newValue)
    (hprompt : (h.after pre).change + h.stickiness ≤ a.when) : h.Shown (pre ++ [a]) := by
  have hstick := stickiness_after (h := h) pre
  have hold : (h.after (pre ++ [a])).oldValue = a.value := by
    rw [after_concat, oldValue_of_prompt hvalue (by omega)]
  have hnow : (h.after (pre ++ [a])).change = a.when := by
    rw [after_concat, change_assign hvalue]
  by_cases happears : Appears (h.after pre) a
  · have hsince := since_of_appears happears
    constructor
    · omega
    · intro u hu hlt
      omega
    · rw [hsince, hold, visible_of_split hcalls (by omega) (by omega)]
      by_cases hlate : (h.after pre).change + h.stickiness ≤ a.when - 1
      · rw [get_new (by omega) (by omega)]
        exact fun heq => hvalue (Option.some.inj heq).symm
      · rw [get_old (by omega) (by omega)]
        exact fun heq => happears.2.2 (by omega) (Option.some.inj heq).symm
  · -- the old value comes back just when the new one would have appeared
    have hsame : a.when = (h.after pre).change + h.stickiness ∧
        a.value = (h.after pre).oldValue := by
      by_contra hne
      refine happears ⟨hvalue, by omega, fun hwhen heq => hne ⟨?_, heq⟩⟩
      omega
    have hsince := since_of_not_appears happears
    have hle := hs.since_le
    constructor
    · omega
    · intro u hu hlt
      rw [hold, hsame.2]
      by_cases hbefore : u < (h.after pre).change
      · exact hs.visible_eq u (by omega) hbefore
      · rw [visible_of_split hcalls (by omega) (by omega), get_old (by omega) (by omega)]
    · rw [hsince, hold, hsame.2]
      exact hs.visible_ne

theorem Shown.idle (hs : h.Shown pre) (hvalue : a.value = (h.after pre).newValue) :
    h.Shown (pre ++ [a]) := by
  have hafter : h.after (pre ++ [a]) = h.after pre := by
    rw [after_concat, assign_of_eq hvalue]
  have hsince := since_of_not_appears (h := h) fun happears => happears.1 hvalue
  constructor
  · rw [hafter, hsince]
    exact hs.since_le
  · rw [hafter, hsince]
    exact hs.visible_eq
  · rw [hafter, hsince]
    exact hs.visible_ne

theorem change_le_of_split (hcalls : h.calls = pre ++ a :: rest) :
    (h.after pre).change ≤ a.when := by
  refine change_after_le (h.when_nonneg a ?_) (hcalls ▸ h.chronological).le.1
  rw [hcalls]
  simp

theorem shown (hpos : 0 < h.stickiness) (hcalls : h.calls = pre ++ rest) : h.Shown pre := by
  induction pre using List.reverseRecOn generalizing rest with
  | nil => exact shown_nil h
  | append_singleton pre a ih =>
    rw [List.append_assoc] at hcalls
    have hs := ih hcalls
    by_cases hvalue : a.value = (h.after pre).newValue
    · exact hs.idle hvalue
    · by_cases hprompt : (h.after pre).change + h.stickiness ≤ a.when
      · exact hs.prompt hcalls hpos hvalue hprompt
      · exact hs.delayed hcalls hvalue (change_le_of_split hcalls) (by omega)

theorem newValue_after (pre : List (Assignment T)) :
    (h.after pre).newValue = (pre.getLast?.map Assignment.value).getD default := by
  induction pre using List.reverseRecOn with
  | nil => rfl
  | append_singleton pre a ih =>
    rw [after_concat, newValue_assign, List.getLast?_concat]
    rfl

theorem assigned_eq (h : History T) (t : Int) :
    h.assigned t = (h.after (upTo Assignment.when t h.calls)).newValue :=
  (newValue_after _).symm

/-- A pending value comes from a call that only calls with the same value follow. -/
theorem exists_pending (hne : (h.after pre).oldValue ≠ (h.after pre).newValue) :
    ∃ done a idle, pre = done ++ a :: idle ∧ a.value ≠ (h.after done).newValue ∧
      h.after pre = h.after (done ++ [a]) ∧ ∀ b ∈ idle, b.value = a.value := by
  induction pre using List.reverseRecOn with
  | nil => exact absurd rfl hne
  | append_singleton pre b ih =>
    by_cases hvalue : b.value = (h.after pre).newValue
    · have hafter : h.after (pre ++ [b]) = h.after pre := by
        rw [after_concat, assign_of_eq hvalue]
      rw [hafter] at hne
      obtain ⟨done, a, idle, rfl, hchange, hsame, hidle⟩ := ih hne
      refine ⟨done, a, idle ++ [b], by simp, hchange, hafter.trans hsame, ?_⟩
      rw [List.forall_mem_append]
      refine ⟨hidle, fun c hc => ?_⟩
      rw [List.mem_singleton.1 hc, hvalue, hsame, after_concat, newValue_assign]
    · exact ⟨pre, b, [], rfl, hvalue, rfl, nofun⟩

/-- Calls that repeat the value of the last change do nothing. -/
theorem after_of_repeated (hcalls : h.calls = pre ++ a :: rest) (hle : a.when ≤ t)
    (hrepeated : ∀ b ∈ rest, b.when ≤ t → b.value = a.value) :
    h.after (upTo Assignment.when t h.calls) = h.after (pre ++ [a]) := by
  obtain ⟨hchron, hpre, _⟩ := (hcalls ▸ h.chronological).concat
  rw [hcalls, List.append_cons]
  refine upTo_induction (P := fun done => h.after done = h.after (pre ++ [a])) ?_ rfl hchron ?_
  · intro b hb
    exact Int.le_trans (hpre b hb) hle
  · intro mid b later hrest hwhen hmid
    have hb : b.value = (h.after (pre ++ [a] ++ mid)).newValue := by
      rw [hmid, after_concat, newValue_assign]
      apply hrepeated b _ hwhen
      rw [hrest]
      simp
    rw [after_concat, assign_of_eq hb, hmid]

theorem Strands.not_letsThrough (hstrands : h.Strands pre a rest)
    (hcalls : h.calls = pre ++ a :: rest) : ¬h.LetsThrough := by
  intro hlets
  obtain ⟨hvalue, hold, hdelayed, hsince, hrest⟩ := hstrands
  have hchange := change_le_of_split hcalls
  have hstick := stickiness_after (h := h) pre
  have hpos : 0 < h.stickiness := by omega
  have hs : h.Shown (pre ++ [a]) :=
    (shown hpos hcalls).delayed hcalls hvalue hchange hdelayed
  have hnow : (h.after (pre ++ [a])).change = a.when := by
    rw [after_concat, change_assign hvalue]
  have holdValue : (h.after (pre ++ [a])).oldValue = (h.after pre).oldValue := by
    rw [after_concat, oldValue_of_delayed (by omega)]
  have hsame : h.since (pre ++ [a]) = h.since pre :=
    since_of_not_appears fun happears => by
      have hprompt := happears.2.1
      omega
  have hvisible : ∀ u, h.since pre ≤ u → u ≤ max a.when (h.since pre + h.stickiness) →
      h.visible u = some (h.after pre).oldValue := by
    intro u hle hu
    rw [← holdValue]
    by_cases hbefore : u < a.when
    · exact hs.visible_eq u (by omega) (by omega)
    · have hafter : h.after (upTo Assignment.when u h.calls) = h.after (pre ++ [a]) :=
        after_of_repeated hcalls (by omega) fun b hb hwhen => hrest b hb (by omega)
      have hstickAfter := stickiness_after (h := h) (pre ++ [a])
      rw [visible_eq, hafter, get_old (by omega) (by omega)]
  have hbecomes : h.Becomes (h.after pre).oldValue (h.since pre) := by
    refine ⟨hvisible _ (by omega) (by omega), ?_⟩
    rw [← hsame, ← holdValue]
    exact hs.visible_ne
  have hassigned := hlets _ _ (max a.when (h.since pre + h.stickiness)) hbecomes (by omega) hvisible
  rw [assigned_eq, after_of_repeated hcalls (by omega) hrest, after_concat,
    newValue_assign] at hassigned
  exact hold hassigned

/-- A value that is visible for too long waits for a call that strands. -/
theorem exists_strands (hb : h.Becomes v t₀) (hlong : t₀ + h.stickiness ≤ t)
    (hvisible : ∀ u, t₀ ≤ u → u ≤ t → h.visible u = some v) (hne : h.assigned t ≠ v)
    (hnonneg : 0 ≤ h.stickiness) :
    ∃ pre a rest, h.calls = pre ++ a :: rest ∧ h.Strands pre a rest := by
  have ht₀ := nonneg_of_visible hb.1
  have hchange := change_le_of_upTo (h := h) (t := t) (by omega)
  have hstick := stickiness_after (h := h) (upTo Assignment.when t h.calls)
  have hnow := hvisible t (by omega) (by omega)
  rw [assigned_eq] at hne
  rw [visible_eq] at hnow
  -- what is visible at `t` is the old value, for the assigned one differs
  have hpending : t < (h.after (upTo Assignment.when t h.calls)).change + h.stickiness := by
    by_contra hlate
    rw [get_new hchange (by omega)] at hnow
    exact hne (Option.some.inj hnow)
  rw [get_old hchange (by omega)] at hnow
  have hold := Option.some.inj hnow
  rw [← hold] at hne
  obtain ⟨pre, a, idle, hupTo, hvalue, hafter, hidle⟩ := exists_pending hne.symm
  obtain ⟨later, hsplit, hlater⟩ := h.chronological.split t
  have hcalls : h.calls = pre ++ a :: (idle ++ later) := by
    rw [hsplit, hupTo]
    simp
  have hstickPre := stickiness_after (h := h) pre
  rw [hafter] at hpending hold hne hchange
  have hwhen : (h.after (pre ++ [a])).change = a.when := by
    rw [after_concat, change_assign hvalue]
  have hnew : (h.after (pre ++ [a])).newValue = a.value := by
    rw [after_concat, newValue_assign]
  have hdelayed : a.when < (h.after pre).change + h.stickiness := by
    by_contra hprompt
    apply hne
    rw [hnew, after_concat, oldValue_of_prompt hvalue (by omega)]
  have hs : h.Shown (pre ++ [a]) :=
    (shown (by omega) hcalls).delayed hcalls hvalue (change_le_of_split hcalls) hdelayed
  have hsame : h.since (pre ++ [a]) = h.since pre :=
    since_of_not_appears fun happears => by
      have hprompt := happears.2.1
      omega
  have hstart : h.since pre ≤ t₀ := by
    by_contra hlt
    apply hs.visible_ne
    rw [hsame, hold]
    have hle := hs.since_le
    exact hvisible _ (by omega) (by omega)
  refine ⟨pre, a, idle ++ later, hcalls, hvalue, ?_, hdelayed, by omega, ?_⟩
  · rwa [← hnew, ← oldValue_of_delayed (by omega : a.when < _ + (h.after pre).stickiness),
      ← after_concat]
  · intro b hb hle
    rcases List.mem_append.1 hb with hb | hb
    · exact hidle b hb
    · have hafterwards := hlater b hb
      omega

theorem letsThrough_iff (h : History T) :
    h.LetsThrough ↔
      ∀ pre a rest, h.calls = pre ++ a :: rest → ¬h.Strands pre a rest := by
  constructor
  · intro hlets pre a rest hcalls hstrands
    exact hstrands.not_letsThrough hcalls hlets
  · intro hnone v t₀ t hb hlong hvisible
    by_contra hne
    obtain ⟨pre, a, rest, hcalls, hstrands⟩ :=
      exists_strands hb hlong hvisible hne h.stickiness_nonneg
    exact hnone pre a rest hcalls hstrands

/-- The second change comes four time units after the first one, and waits for five more. -/
def longWait : History Nat where
  stickiness := 5
  calls := [⟨1, 10⟩, ⟨2, 14⟩]
  stickiness_nonneg := by decide
  when_nonneg := by decide
  chronological := by simp [Chronological]

theorem longWait_not_letsThrough : ¬∀ h : History Nat, h.LetsThrough := by
  intro hall
  have hbecomes : longWait.Becomes 1 10 := by
    constructor <;> decide
  have hvisible : ∀ u, 10 ≤ u → u ≤ 15 → longWait.visible u = some 1 := by
    intro u hle hu
    interval_cases u <;> decide
  have hassigned : longWait.assigned 15 = 1 :=
    hall longWait 1 10 15 hbecomes (by decide) hvisible
  revert hassigned
  decide

end LetsThrough

end History

end Sticky

end Utlib
