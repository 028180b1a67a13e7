import Mathlib.Data.List.Basic

/-! Deterministic machines whose steps have a precondition and may fail, run on a list of inputs,
and the rule by which such a run follows a reference that never fails. -/

universe u v w x

namespace Utlib

structure Machine (ι : Type u) (ο : Type v) (σ : Type w) where
  pre : ι → σ → Prop
  step : ι → σ → Option (ο × σ)

namespace Machine

variable {ι : Type u} {ο : Type v} {σ : Type w} {τ : Type x}

def run (m : Machine ι ο σ) : List ι → σ → Option (List ο × σ)
  | [], s => some ([], s)
  | i :: is, s => do
    let (o, s) ← m.step i s
    let (os, s) ← m.run is s
    some (o :: os, s)

theorem run_cons_eq_some_iff {m : Machine ι ο σ} {i : ι} {is : List ι} {os : List ο} {s t : σ} :
    m.run (i :: is) s = some (os, t) ↔
      ∃ o s' os', m.step i s = some (o, s') ∧ m.run is s' = some (os', t) ∧ os = o :: os' := by
  rw [run]
  constructor
  · intro h
    obtain ⟨⟨o, s'⟩, hstep, h⟩ := Option.bind_eq_some_iff.1 h
    obtain ⟨⟨os', t'⟩, hrun, h⟩ := Option.bind_eq_some_iff.1 h
    cases h
    exact ⟨o, s', os', hstep, hrun, rfl⟩
  · rintro ⟨o, s', os', hstep, hrun, rfl⟩
    rw [hstep]
    dsimp only [Option.bind_eq_bind, Option.bind_some]
    rw [hrun]
    rfl

/-- The precondition of each step holds in the state in which it is taken. -/
def Admits (m : Machine ι ο σ) : List ι → σ → Prop
  | [], _ => True
  | i :: is, s => m.pre i s ∧ ∀ o t, m.step i s = some (o, t) → m.Admits is t

theorem Admits.cons {m : Machine ι ο σ} {i : ι} {is : List ι} {s t : σ} {o : ο} (hpre : m.pre i s)
    (hstep : m.step i s = some (o, t)) (hrest : m.Admits is t) : m.Admits (i :: is) s := by
  refine ⟨hpre, ?_⟩
  intro o' t' hstep'
  rw [hstep] at hstep'
  cases hstep'
  exact hrest

theorem Admits.of_pre {m : Machine ι ο σ} (hpre : ∀ i s, m.pre i s) (is : List ι) (s : σ) :
    m.Admits is s := by
  induction is generalizing s with
  | nil => trivial
  | cons i is ih =>
    refine ⟨hpre i s, ?_⟩
    intro o t _
    exact ih t

def follow (ref : ι → τ → ο × τ) : List ι → τ → List ο × τ
  | [], t => ([], t)
  | i :: is, t =>
    let rest := follow ref is (ref i t).2
    ((ref i t).1 :: rest.1, rest.2)

/-- `R` is a simulation of the machine `m` by the reference `ref`. -/
def Simulates (m : Machine ι ο σ) (ref : ι → τ → ο × τ) (R : σ → τ → Prop) : Prop :=
  ∀ i s t, R s t → m.pre i s → ∃ s', m.step i s = some ((ref i t).1, s') ∧ R s' (ref i t).2

theorem Simulates.run {m : Machine ι ο σ} {ref : ι → τ → ο × τ} {R : σ → τ → Prop}
    (h : m.Simulates ref R) {is : List ι} {s : σ} {t : τ} (hR : R s t) (hpre : m.Admits is s) :
    ∃ s', m.run is s = some ((follow ref is t).1, s') ∧ R s' (follow ref is t).2 := by
  induction is generalizing s t with
  | nil => exact ⟨s, rfl, hR⟩
  | cons i is ih =>
    obtain ⟨hi, hrest⟩ := hpre
    obtain ⟨s₁, hstep, h₁⟩ := h i s t hR hi
    obtain ⟨s₂, hrun, h₂⟩ := ih h₁ (hrest _ _ hstep)
    exact ⟨s₂, run_cons_eq_some_iff.2 ⟨_, s₁, _, hstep, hrun, rfl⟩, h₂⟩

end Machine

end Utlib
