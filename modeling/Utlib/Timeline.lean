import Mathlib.Data.List.Induction

/-! Events with time stamps, in the order in which they happen. -/

namespace Utlib.Timeline

variable {α : Type} (time : α → Int)

def Chronological (xs : List α) : Prop := xs.Pairwise fun x y => time x ≤ time y

def upTo (t : Int) (xs : List α) : List α := xs.filter fun x => time x ≤ t

variable {time} {xs pre rest : List α} {x : α} {t u : Int}

theorem mem_upTo : x ∈ upTo time t xs ↔ x ∈ xs ∧ time x ≤ t := by
  simp [upTo]

theorem upTo_eq_self (h : ∀ x ∈ xs, time x ≤ t) : upTo time t xs = xs := by
  rw [upTo, List.filter_eq_self]
  simpa using h

theorem upTo_eq_nil (h : ∀ x ∈ xs, t < time x) : upTo time t xs = [] := by
  rw [upTo, List.filter_eq_nil_iff]
  simpa using h

theorem upTo_append (pre rest : List α) :
    upTo time t (pre ++ rest) = upTo time t pre ++ upTo time t rest :=
  List.filter_append pre rest

theorem upTo_upTo (htu : t ≤ u) (xs : List α) : upTo time t (upTo time u xs) = upTo time t xs := by
  rw [upTo, upTo, List.filter_filter]
  apply List.filter_congr
  intro x _
  simp only [Bool.and_eq_decide, decide_eq_true_eq, decide_eq_decide]
  omega

theorem Chronological.of_append (h : Chronological time (pre ++ rest)) : Chronological time pre :=
  (List.pairwise_append.1 h).1

theorem Chronological.upTo (h : Chronological time xs) (t : Int) :
    Chronological time (upTo time t xs) :=
  List.Pairwise.filter _ h

theorem Chronological.le (h : Chronological time (pre ++ x :: rest)) :
    (∀ y ∈ pre, time y ≤ time x) ∧ ∀ y ∈ rest, time x ≤ time y := by
  obtain ⟨_, hrest, hpre⟩ := List.pairwise_append.1 h
  exact ⟨fun y hy => hpre y hy x List.mem_cons_self, (List.pairwise_cons.1 hrest).1⟩

theorem Chronological.concat (h : Chronological time (pre ++ x :: rest)) :
    Chronological time (pre ++ [x] ++ rest) ∧ (∀ y ∈ pre ++ [x], time y ≤ time x) ∧
      ∀ y ∈ rest, time x ≤ time y := by
  refine ⟨List.append_cons pre x rest ▸ h, ?_, h.le.2⟩
  intro y hy
  rcases List.mem_append.1 hy with hy | hy
  · exact h.le.1 y hy
  · exact Int.le_of_eq (congrArg _ (List.mem_singleton.1 hy))

theorem Chronological.split (h : Chronological time xs) (t : Int) :
    ∃ later, xs = Timeline.upTo time t xs ++ later ∧ ∀ x ∈ later, t < time x := by
  induction xs with
  | nil => exact ⟨[], rfl, by simp⟩
  | cons x xs ih =>
    obtain ⟨hx, hxs⟩ := List.pairwise_cons.1 h
    by_cases htime : time x ≤ t
    · obtain ⟨later, heq, hlater⟩ := ih hxs
      refine ⟨later, ?_, hlater⟩
      rw [Timeline.upTo, List.filter_cons_of_pos (by simpa using htime), List.cons_append]
      exact congrArg (x :: ·) heq
    · have hall : ∀ y ∈ x :: xs, t < time y := by
        intro y hy
        rcases List.mem_cons.1 hy with rfl | hy
        · omega
        · have hxy := hx y hy
          omega
      refine ⟨x :: xs, ?_, hall⟩
      rw [upTo_eq_nil hall, List.nil_append]

theorem Chronological.upTo_of_lt (h : Chronological time (pre ++ x :: rest)) (ht : t < time x) :
    Timeline.upTo time t (pre ++ x :: rest) = Timeline.upTo time t pre := by
  have hrest : ∀ y ∈ x :: rest, t < time y := by
    intro y hy
    rcases List.mem_cons.1 hy with rfl | hy
    · exact ht
    · have hxy := h.le.2 y hy
      omega
  rw [upTo_append, upTo_eq_nil hrest, List.append_nil]

/-- What holds after some events and is kept by each further one holds at every later time. -/
theorem upTo_induction {P : List α → Prop} (hle : ∀ x ∈ pre, time x ≤ t) (hpre : P pre)
    (h : Chronological time (pre ++ rest))
    (hstep : ∀ mid x later, rest = mid ++ x :: later → time x ≤ t → P (pre ++ mid) →
      P (pre ++ mid ++ [x])) :
    P (upTo time t (pre ++ rest)) := by
  have hrest : Chronological time rest := (List.pairwise_append.1 h).2.1
  obtain ⟨later, heq, _⟩ := hrest.split t
  have hall : ∀ done more, upTo time t rest = done ++ more → P (pre ++ done) := by
    intro done
    induction done using List.reverseRecOn with
    | nil =>
      intro more _
      rw [List.append_nil]
      exact hpre
    | append_singleton done x ih =>
      intro more hdone
      rw [List.append_assoc] at hdone
      have hx : x ∈ upTo time t rest := by
        rw [hdone]
        simp
      rw [← List.append_assoc]
      refine hstep done x (more ++ later) ?_ (mem_upTo.1 hx).2 (ih _ hdone)
      rw [heq, hdone]
      simp
  rw [upTo_append, upTo_eq_self hle]
  exact hall _ [] (List.append_nil _).symm

end Utlib.Timeline
