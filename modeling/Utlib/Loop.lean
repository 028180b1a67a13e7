/-! Loops that may not end: a round either ends the loop with a result or passes on a state. -/

universe u v

namespace Utlib.Loop

variable {σ : Type u} {α : Type v} (round : σ → α ⊕ σ)

/-- The result, if there is one after so many rounds. -/
def run : Nat → σ → Option α
  | 0, _ => none
  | n + 1, s =>
    match round s with
    | .inl a => some a
    | .inr t => run n t

def Ends (s : σ) (a : α) : Prop := ∃ n, run round n s = some a

variable {round} {s t : σ} {a b : α}

theorem ends_of_inl (h : round s = .inl a) : Ends round s a := ⟨1, by rw [run, h]⟩

theorem ends_iff_of_inl (h : round s = .inl b) : Ends round s a ↔ a = b := by
  constructor
  · rintro ⟨n, hn⟩
    cases n with
    | zero => cases hn
    | succ n =>
      rw [run, h] at hn
      exact (Option.some.inj hn).symm
  · rintro rfl
    exact ends_of_inl h

theorem ends_iff_of_inr (h : round s = .inr t) : Ends round s a ↔ Ends round t a := by
  constructor
  · rintro ⟨n, hn⟩
    cases n with
    | zero => cases hn
    | succ n =>
      rw [run, h] at hn
      exact ⟨n, hn⟩
  · rintro ⟨n, hn⟩
    exact ⟨n + 1, by rw [run, h]; exact hn⟩

theorem Ends.unique (h : Ends round s a) (h' : Ends round s b) : a = b := by
  obtain ⟨n, hn⟩ := h
  induction n generalizing s with
  | zero => cases hn
  | succ n ih =>
    rw [run] at hn
    cases hround : round s with
    | inl c =>
      rw [hround] at hn
      rw [(ends_iff_of_inl hround).1 h', ← Option.some.inj hn]
    | inr t =>
      rw [hround] at hn
      exact ih ((ends_iff_of_inr hround).1 h') hn

/-- What so many rounds lead to. -/
theorem run_of_rounds (f : Nat → σ) {n : Nat} (h : ∀ k < n, round (f k) = .inr (f (k + 1)))
    (m : Nat) : run round (m + n) (f 0) = run round m (f n) := by
  induction n generalizing m with
  | zero => rfl
  | succ n ih =>
    have hcount : m + (n + 1) = m + 1 + n := by omega
    rw [hcount, ih fun k hk => h k (Nat.lt_succ_of_lt hk), run, h n (Nat.lt_succ_self n)]

theorem ends_iff_of_rounds (f : Nat → σ) {n : Nat}
    (h : ∀ k < n, round (f k) = .inr (f (k + 1))) : Ends round (f 0) a ↔ Ends round (f n) a := by
  induction n with
  | zero => rfl
  | succ n ih =>
    rw [ih fun k hk => h k (Nat.lt_succ_of_lt hk), ends_iff_of_inr (h n (Nat.lt_succ_self n))]

/-- No result where an invariant lets each round pass on a state. -/
theorem not_ends (I : σ → Prop) (hround : ∀ s, I s → ∃ t, round s = .inr t ∧ I t) (hs : I s) :
    ¬Ends round s a := by
  rintro ⟨n, hn⟩
  induction n generalizing s with
  | zero => cases hn
  | succ n ih =>
    obtain ⟨t, ht, hI⟩ := hround s hs
    rw [run, ht] at hn
    exact ih hI hn

end Utlib.Loop
