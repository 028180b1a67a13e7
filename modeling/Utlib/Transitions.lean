import Mathlib.Logic.Basic

/-! Runs of a system of labelled steps, what holds of a state together with its history, and the
mutual exclusion that a lock gives. -/

universe u v

namespace Utlib.Transitions

variable {σ : Type u} {ε : Type v} {step : σ → ε → σ → Prop} {s t w : σ}

inductive Runs (step : σ → ε → σ → Prop) : σ → List ε → σ → Prop
  | refl {s : σ} : Runs step s [] s
  | head {s t w : σ} {e : ε} {es : List ε} :
      step s e t → Runs step t es w → Runs step s (e :: es) w

theorem Runs.single {e : ε} (h : step s e t) : Runs step s [e] t := .head h .refl

theorem Runs.append {es fs : List ε} (h : Runs step s es t) (h' : Runs step t fs w) :
    Runs step s (es ++ fs) w := by
  induction h with
  | refl => exact h'
  | head hstep _ ih => exact .head hstep (ih h')

theorem Runs.split {es fs : List ε} (h : Runs step s (es ++ fs) w) :
    ∃ t, Runs step s es t ∧ Runs step t fs w := by
  induction es generalizing s with
  | nil => exact ⟨s, .refl, h⟩
  | cons e es ih =>
    cases h with
    | head hstep h =>
      obtain ⟨t, hes, hfs⟩ := ih h
      exact ⟨t, .head hstep hes, hfs⟩

/-- What each step keeps, of the state and of the events before it, a run keeps. -/
theorem Runs.invariant {I : List ε → σ → Prop} {es fs : List ε}
    (hstep : ∀ es s e t, I es s → step s e t → I (es ++ [e]) t) (h : Runs step s fs t)
    (h0 : I es s) : I (es ++ fs) t := by
  induction h generalizing es with
  | refl => rwa [List.append_nil]
  | head hst _ ih =>
    rw [List.append_cons]
    exact ih (hstep _ _ _ _ h0 hst)

/-- Some of the steps of a run are followed by another system, the others cannot be seen in it. -/
theorem Runs.simulates {τ : Type v} {step' : τ → ε → τ → Prop} {R : σ → τ → Prop} {a : τ}
    {es : List ε}
    (hstep : ∀ s e t a, R s a → step s e t → R t a ∨ ∃ b, step' a e b ∧ R t b)
    (h : Runs step s es t) (hR : R s a) :
    ∃ es' b, es'.Sublist es ∧ Runs step' a es' b ∧ R t b := by
  induction h generalizing a with
  | refl => exact ⟨[], a, .slnil, .refl, hR⟩
  | head hst _ ih =>
    rcases hstep _ _ _ _ hR hst with hR | ⟨b, hb, hR⟩
    · obtain ⟨es', b, hsub, hruns, hR⟩ := ih hR
      exact ⟨es', b, hsub.cons _, hruns, hR⟩
    · obtain ⟨es', b', hsub, hruns, hR⟩ := ih hR
      exact ⟨_, b', hsub.cons_cons _, .head hb hruns, hR⟩

section Lock

variable {Party : Type u}

/-- The owner of a lock is the one party that is where the lock is held. -/
def Guards (owner : Option Party) (holds : Party → Bool) : Prop :=
  ∀ p, owner = some p ↔ holds p = true

variable {owner : Option Party} {holds holds' : Party → Bool} {p : Party}

theorem Guards.congr (h : Guards owner holds) (heq : ∀ q, holds' q = holds q) :
    Guards owner holds' := by
  intro q
  rw [heq]
  exact h q

theorem Guards.acquire (h : Guards none holds) (hp : holds' p = true)
    (heq : ∀ q, q ≠ p → holds' q = holds q) : Guards (some p) holds' := by
  intro q
  by_cases hq : q = p
  · subst hq
    exact ⟨fun _ => hp, fun _ => rfl⟩
  · rw [heq q hq, ← h q]
    exact ⟨fun hsome => absurd (Option.some.inj hsome).symm hq, fun hnone => by cases hnone⟩

theorem Guards.release (h : Guards owner holds) (hp : holds p = true) (hp' : holds' p = false)
    (heq : ∀ q, q ≠ p → holds' q = holds q) : Guards none holds' := by
  intro q
  by_cases hq : q = p
  · subst hq
    rw [hp']
    exact ⟨fun hnone => (by cases hnone), fun hfalse => (by cases hfalse)⟩
  · rw [heq q hq, ← h q, (h p).2 hp]
    exact ⟨fun hnone => (by cases hnone), fun hsome => absurd (Option.some.inj hsome).symm hq⟩

end Lock

end Utlib.Transitions
