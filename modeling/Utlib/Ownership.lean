import Mathlib.Data.List.Basic
import Mathlib.Logic.Equiv.Basic

/-! Resources that are acquired, used in the order of a protocol, and released, and the places that
hold them. -/

universe u v w x

namespace Utlib.Ownership

/-- What may be done with a resource in which of its phases -/
structure Protocol (P : Type u) (C : Type v) where
  next : P → C → Option P
  absent : P
  ready : P

variable {P : Type u} {C : Type v} {H : Type w} {V : Type x} [DecidableEq H]

/-- What has been done with one of the resources -/
def callsOf (h : H) (log : List (H × C)) : List C := (log.filter fun e => e.1 = h).map Prod.snd

theorem callsOf_append (h : H) (log log' : List (H × C)) :
    callsOf h (log ++ log') = callsOf h log ++ callsOf h log' := by
  rw [callsOf, List.filter_append, List.map_append]
  rfl

theorem callsOf_self (h : H) (calls : List C) : callsOf h (calls.map (h, ·)) = calls := by
  induction calls with
  | nil => rfl
  | cons c calls ih =>
    rw [List.map_cons, callsOf, List.filter_cons_of_pos (by simp), List.map_cons]
    exact congrArg _ ih

theorem callsOf_of_ne {h h' : H} (hne : h' ≠ h) (calls : List C) :
    callsOf h (calls.map (h', ·)) = [] := by
  rw [callsOf, List.map_eq_nil_iff, List.filter_eq_nil_iff]
  intro e hmem
  obtain ⟨c, _, rfl⟩ := List.mem_map.1 hmem
  rw [decide_eq_true_iff]
  exact hne

namespace Protocol

variable (pr : Protocol P C)

def follow (p : P) (calls : List C) : Option P := calls.foldlM pr.next p

theorem follow_append (p : P) (calls calls' : List C) :
    pr.follow p (calls ++ calls') = (pr.follow p calls).bind (pr.follow · calls') :=
  List.foldlM_append

/-- The phase of a resource, if nothing has been done with it that the protocol forbids -/
def phase (h : H) (log : List (H × C)) : Option P := pr.follow pr.absent (callsOf h log)

variable {pr} {h h' : H} {p q : P} {log : List (H × C)} {calls : List C}

theorem phase_append_self (hp : pr.phase h log = some p) (hq : pr.follow p calls = some q) :
    pr.phase h (log ++ calls.map (h, ·)) = some q := by
  rw [phase, callsOf_append, callsOf_self, follow_append]
  rw [phase] at hp
  rw [hp, Option.bind_some, hq]

theorem phase_append_of_ne (hne : h' ≠ h) (log : List (H × C)) (calls : List C) :
    pr.phase h (log ++ calls.map (h', ·)) = pr.phase h log := by
  rw [phase, callsOf_append, callsOf_of_ne hne, List.append_nil]
  rfl

end Protocol

/-- One of the places holds the resource. -/
def Held (holds : V → Option H) (h : H) : Prop := ∃ v, holds v = some h

/-- No two places hold one resource. Those that are held are ready, and the others are not there. -/
structure Kept (pr : Protocol P C) (holds : V → Option H) (log : List (H × C)) : Prop where
  exclusive : ∀ v w h, holds v = some h → holds w = some h → v = w
  ready : ∀ v h, holds v = some h → pr.phase h log = some pr.ready
  absent : ∀ h, ¬Held holds h → pr.phase h log = some pr.absent

section Move

variable [DecidableEq V] {holds holds' : V → Option H} {v other : V}

omit [DecidableEq H] in
/-- A place that holds nothing takes over what another one holds. -/
theorem move_eq_swap (hv : holds v = none) (hself : holds' v = holds other)
    (hother : holds' other = none) (heq : ∀ w, w ≠ v → w ≠ other → holds' w = holds w) (w : V) :
    holds' w = holds (Equiv.swap v other w) := by
  by_cases hwv : w = v
  · rw [hwv, hself, Equiv.swap_apply_left]
  · by_cases hwother : w = other
    · rw [hwother, hother, Equiv.swap_apply_right, hv]
    · rw [heq w hwv hwother, Equiv.swap_apply_of_ne_of_ne hwv hwother]

end Move

namespace Kept

variable {pr : Protocol P C} {holds holds' : V → Option H} {log : List (H × C)} {calls : List C}
  {v : V} {h : H}

theorem start : Kept pr (fun _ : V => none) ([] : List (H × C)) :=
  ⟨fun _ _ _ hv => (by cases hv), fun _ _ hv => (by cases hv), fun _ _ => rfl⟩

theorem congr (hkept : Kept pr holds log) (heq : ∀ v, holds' v = holds v) :
    Kept pr holds' log := by
  obtain rfl : holds' = holds := funext heq
  exact hkept

/-- The places change, what they hold goes with them. -/
theorem rename (hkept : Kept pr holds log) (e : Equiv.Perm V) :
    Kept pr (fun v => holds (e v)) log := by
  refine ⟨fun v w h hv hw => ?_, fun v h hv => hkept.ready _ h hv, fun h hnot => ?_⟩
  · exact e.injective (hkept.exclusive _ _ h hv hw)
  · refine hkept.absent h fun ⟨v, hv⟩ => hnot ⟨e.symm v, ?_⟩
    change holds (e (e.symm v)) = some h
    rwa [e.apply_symm_apply]

theorem use (hkept : Kept pr holds log) (hv : holds v = some h)
    (hcalls : pr.follow pr.ready calls = some pr.ready) :
    Kept pr holds (log ++ calls.map (h, ·)) := by
  refine ⟨hkept.exclusive, fun w h' hw => ?_, fun h' hnot => ?_⟩
  · by_cases hne : h = h'
    · subst hne
      exact Protocol.phase_append_self (hkept.ready v h hv) hcalls
    · rw [Protocol.phase_append_of_ne hne]
      exact hkept.ready w h' hw
  · have hne : h ≠ h' := fun heq => hnot ⟨v, heq ▸ hv⟩
    rw [Protocol.phase_append_of_ne hne]
    exact hkept.absent h' hnot

theorem acquire (hkept : Kept pr holds log) (hv : holds v = none) (hfresh : ¬Held holds h)
    (hv' : holds' v = some h) (heq : ∀ w, w ≠ v → holds' w = holds w)
    (hcalls : pr.follow pr.absent calls = some pr.ready) :
    Kept pr holds' (log ++ calls.map (h, ·)) := by
  have hold {w : V} {h' : H} (hw : holds' w = some h') :
      w = v ∧ h' = h ∨ w ≠ v ∧ h' ≠ h ∧ holds w = some h' := by
    by_cases hwv : w = v
    · rw [hwv, hv'] at hw
      exact .inl ⟨hwv, (Option.some.inj hw).symm⟩
    · rw [heq w hwv] at hw
      exact .inr ⟨hwv, fun hh => hfresh ⟨w, hh ▸ hw⟩, hw⟩
  refine ⟨fun w w' h' hw hw' => ?_, fun w h' hw => ?_, fun h' hnot => ?_⟩
  · rcases hold hw with ⟨rfl, rfl⟩ | ⟨_, hne, hw⟩
    · rcases hold hw' with ⟨rfl, _⟩ | ⟨_, hne, _⟩
      · rfl
      · exact absurd rfl hne
    · rcases hold hw' with ⟨_, rfl⟩ | ⟨_, _, hw'⟩
      · exact absurd rfl hne
      · exact hkept.exclusive w w' h' hw hw'
  · rcases hold hw with ⟨rfl, rfl⟩ | ⟨_, hne, hw⟩
    · exact Protocol.phase_append_self (hkept.absent h' hfresh) hcalls
    · rw [Protocol.phase_append_of_ne hne.symm]
      exact hkept.ready w h' hw
  · have hne : h ≠ h' := fun hh => hnot ⟨v, hh ▸ hv'⟩
    rw [Protocol.phase_append_of_ne hne]
    refine hkept.absent h' fun ⟨w, hw⟩ => hnot ⟨w, ?_⟩
    rwa [heq w fun hwv => by rw [hwv, hv] at hw; cases hw]

theorem release (hkept : Kept pr holds log) (hv : holds v = some h) (hv' : holds' v = none)
    (heq : ∀ w, w ≠ v → holds' w = holds w)
    (hcalls : pr.follow pr.ready calls = some pr.absent) :
    Kept pr holds' (log ++ calls.map (h, ·)) := by
  have hold {w : V} {h' : H} (hw : holds' w = some h') : w ≠ v ∧ holds w = some h' := by
    have hwv : w ≠ v := fun hwv => by rw [hwv, hv'] at hw; cases hw
    exact ⟨hwv, by rwa [heq w hwv] at hw⟩
  refine ⟨fun w w' h' hw hw' => hkept.exclusive w w' h' (hold hw).2 (hold hw').2,
    fun w h' hw => ?_, fun h' hnot => ?_⟩
  · obtain ⟨hwv, hw⟩ := hold hw
    have hne : h ≠ h' := fun hh => hwv (hkept.exclusive w v h' hw (hh ▸ hv))
    rw [Protocol.phase_append_of_ne hne]
    exact hkept.ready w h' hw
  · by_cases hne : h = h'
    · subst hne
      exact Protocol.phase_append_self (hkept.ready v h hv) hcalls
    · rw [Protocol.phase_append_of_ne hne]
      refine hkept.absent h' fun ⟨w, hw⟩ => hnot ⟨w, ?_⟩
      rwa [heq w fun hwv => hne (Option.some.inj ((hwv ▸ hv).symm.trans hw))]

end Kept

end Utlib.Ownership
