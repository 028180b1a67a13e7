import Mathlib.Data.List.Basic

/-! Weakest preconditions for programs that keep their state when they fail, and
the two loop shapes over an index range. Nothing here depends on what the state is. -/

namespace Utlib.Program

variable {ε σ α β : Type}

def wp (x : EStateM ε σ α) (Q : α → σ → Prop) (E : ε → σ → Prop) (s : σ) : Prop :=
  match x s with
  | .ok a t => Q a t
  | .error e t => E e t

section Rules

variable {Q : α → σ → Prop} {R : β → σ → Prop} {E : ε → σ → Prop} {s t : σ}

theorem wp_of_ok {x : EStateM ε σ α} {a : α} (h : x s = .ok a t) : wp x Q E s ↔ Q a t := by
  simp [wp, h]

theorem wp_of_error {x : EStateM ε σ α} {e : ε} (h : x s = .error e t) :
    wp x Q E s ↔ E e t := by
  simp [wp, h]

theorem wp_congr {x y : EStateM ε σ α} (h : x s = y t) : wp x Q E s ↔ wp y Q E t := by
  simp [wp, h]

theorem wp.ok {x : EStateM ε σ α} {a : α} (h : wp x Q E s) (hx : x s = .ok a t) : Q a t :=
  (wp_of_ok hx).1 h

theorem wp.error {x : EStateM ε σ α} {e : ε} (h : wp x Q E s) (hx : x s = .error e t) : E e t :=
  (wp_of_error hx).1 h

theorem wp.exists_ok {x : EStateM ε σ α} (h : wp x Q E s) (hE : ∀ e t, ¬E e t) :
    ∃ a t, x s = .ok a t ∧ Q a t := by
  unfold wp at h
  cases hx : x s with
  | ok a t => rw [hx] at h; exact ⟨a, t, rfl, h⟩
  | error e t => rw [hx] at h; exact absurd h (hE e t)

def answer : EStateM.Result ε σ α → Except ε α
  | .ok a _ => .ok a
  | .error e _ => .error e

def final : EStateM.Result ε σ α → σ
  | .ok _ t => t
  | .error _ t => t

theorem wp.exists_error {x : EStateM ε σ α} (h : wp x Q E s) (hQ : ∀ a t, ¬Q a t) :
    ∃ e t, x s = .error e t ∧ E e t := by
  unfold wp at h
  cases hx : x s with
  | ok a t => rw [hx] at h; exact absurd h (hQ a t)
  | error e t => rw [hx] at h; exact ⟨e, t, rfl, h⟩

theorem wp.final {x : EStateM ε σ α} {R : σ → Prop} (h : wp x (fun _ t => R t) (fun _ t => R t) s) :
    R (final (x s)) := by
  unfold wp at h
  cases hx : x s with
  | ok a t => rw [hx] at h; exact h
  | error e t => rw [hx] at h; exact h

theorem wp.mono {x : EStateM ε σ α} {Q' : α → σ → Prop} {E' : ε → σ → Prop} (h : wp x Q E s)
    (hQ : ∀ a t, Q a t → Q' a t) (hE : ∀ e t, E e t → E' e t) : wp x Q' E' s := by
  unfold wp at *
  cases hx : x s with
  | ok a t => rw [hx] at h; exact hQ a t h
  | error e t => rw [hx] at h; exact hE e t h

theorem wp.and {x : EStateM ε σ α} {Q' : α → σ → Prop} {E' : ε → σ → Prop} (h : wp x Q E s)
    (h' : wp x Q' E' s) : wp x (fun a t => Q a t ∧ Q' a t) (fun e t => E e t ∧ E' e t) s := by
  unfold wp at *
  cases hx : x s with
  | ok a t => rw [hx] at h h'; exact ⟨h, h'⟩
  | error e t => rw [hx] at h h'; exact ⟨h, h'⟩

theorem bind_ok {x : EStateM ε σ α} {f : α → EStateM ε σ β} {a : α} (h : x s = .ok a t) :
    (x >>= f) s = f a t := by
  simp [bind, EStateM.bind, h]

theorem bind_error {x : EStateM ε σ α} {e : ε} (f : α → EStateM ε σ β) (h : x s = .error e t) :
    (x >>= f) s = .error e t := by
  simp [bind, EStateM.bind, h]

@[simp] theorem wp_pure (a : α) : wp (pure a) Q E s ↔ Q a s := Iff.rfl

@[simp] theorem wp_throw (e : ε) : wp (throw e) Q E s ↔ E e s := Iff.rfl

@[simp] theorem wp_bind (x : EStateM ε σ α) (f : α → EStateM ε σ β) :
    wp (x >>= f) R E s ↔ wp x (fun a t => wp (f a) R E t) E s := by
  simp only [wp, bind, EStateM.bind]
  cases x s <;> rfl

@[simp] theorem wp_get {Q : σ → σ → Prop} {E : ε → σ → Prop} : wp get Q E s ↔ Q s s := Iff.rfl

@[simp] theorem wp_set {Q : Unit → σ → Prop} : wp (set t) Q E s ↔ Q () t := Iff.rfl

@[simp] theorem wp_modify {Q : Unit → σ → Prop} (f : σ → σ) :
    wp (modify f) Q E s ↔ Q () (f s) := Iff.rfl

theorem wp_ite {p : Prop} [Decidable p] (x y : EStateM ε σ α) :
    wp (if p then x else y) Q E s ↔ (p → wp x Q E s) ∧ (¬p → wp y Q E s) := by
  split <;> simp [*]

/-- A conditional step: what follows it is proved once. -/
theorem wp_ite_seq {p : Prop} [Decidable p] (x : EStateM ε σ Unit) (k : EStateM ε σ α) :
    wp (if p then x >>= fun _ => k else k) Q E s ↔
      wp (if p then x else pure ()) (fun _ t => wp k Q E t) E s := by
  split
  · exact wp_bind x fun _ => k
  · rfl

end Rules

/-- Fails with `e` unless `p` holds. -/
def require (p : Prop) [Decidable p] (e : ε) : EStateM ε σ Unit :=
  if p then pure () else throw e

theorem get_bind (f : σ → EStateM ε σ β) (s : σ) : (get >>= f) s = f s s := rfl

theorem require_bind {p : Prop} [Decidable p] (hp : p) (e : ε) (f : Unit → EStateM ε σ β) (s : σ) :
    (require p e >>= f) s = f () s := by
  rw [require, if_pos hp]
  rfl

@[simp] theorem wp_require {p : Prop} [Decidable p] {e : ε} {Q : Unit → σ → Prop}
    {E : ε → σ → Prop} {s : σ} :
    wp (require p e) Q E s ↔ (p → Q () s) ∧ (¬p → E e s) := by
  unfold require
  split <;> simp [*]

/-- `cleanup` is run in the end, also if `x` fails. -/
def ensure (x : EStateM ε σ α) (cleanup : EStateM ε σ Unit) : EStateM ε σ α := fun s =>
  match x s with
  | .ok a t => (cleanup >>= fun _ => pure a) t
  | .error e t => (cleanup >>= fun _ => throw e) t

theorem wp_ensure {x : EStateM ε σ α} {cleanup : EStateM ε σ Unit} {Q : α → σ → Prop}
    {E : ε → σ → Prop} {s : σ} :
    wp (ensure x cleanup) Q E s ↔
      wp x (fun a t => wp cleanup (fun _ u => Q a u) E t)
        (fun e t => wp cleanup (fun _ u => E e u) E t) s := by
  simp only [wp, ensure]
  cases x s with
  | ok a t => exact wp_bind cleanup fun _ => pure a
  | error e t => exact wp_bind cleanup fun _ => throw e

/-- Reads from the state without changing it. -/
def look (f : σ → Except ε α) : EStateM ε σ α := fun s =>
  match f s with
  | .ok a => .ok a s
  | .error e => .error e s

theorem wp_look {f : σ → Except ε α} {Q : α → σ → Prop} {E : ε → σ → Prop} {s : σ} :
    wp (look f) Q E s ↔ (∀ a, f s = .ok a → Q a s) ∧ (∀ e, f s = .error e → E e s) := by
  cases h : f s <;> simp [wp, look, h]

/-- `for (k = p; k < p + n; k++) body(k)` -/
def forRange (body : Nat → EStateM ε σ Unit) : Nat → Nat → EStateM ε σ Unit
  | 0, _ => pure ()
  | n + 1, p => do
    body p
    forRange body n (p + 1)

theorem wp_forRange {body : Nat → EStateM ε σ Unit} {E : ε → σ → Prop} (I : Nat → σ → Prop)
    (n p : Nat) (s : σ) (h0 : I p s)
    (hbody : ∀ k t, p ≤ k → k < p + n → I k t → wp (body k) (fun _ => I (k + 1)) E t) :
    wp (forRange body n p) (fun _ => I (p + n)) E s := by
  induction n generalizing p s with
  | zero => exact h0
  | succ n ih =>
    rw [forRange, wp_bind]
    refine (hbody p s (Nat.le_refl p) (by omega) h0).mono (fun _ t ht => ?_) (fun _ _ h => h)
    have hrest := ih (p + 1) t ht fun k u hk hk' => hbody k u (by omega) (by omega)
    rwa [show p + 1 + n = p + (n + 1) by omega] at hrest

/-- `I done` is what holds when the body has seen the part `done` of the list. -/
theorem wp_foldlM {body : β → α → EStateM ε σ β} {E : ε → σ → Prop} (I : List α → β → σ → Prop)
    (l : List α) (b : β) (s : σ) (h0 : I [] b s)
    (hbody : ∀ done x rest c t, l = done ++ x :: rest → I done c t →
      wp (body c x) (fun d => I (done ++ [x]) d) E t) :
    wp (l.foldlM body b) (I l) E s := by
  have hrest : ∀ rest done c t, l = done ++ rest → I done c t →
      wp (rest.foldlM body c) (I l) E t := by
    intro rest
    induction rest with
    | nil =>
      intro done c t hl hI
      rw [List.append_nil] at hl
      rw [hl]
      exact hI
    | cons x rest ih =>
      intro done c t hl hI
      rw [List.foldlM_cons, wp_bind]
      refine (hbody done x rest c t hl hI).mono (fun d u hu => ?_) (fun _ _ h => h)
      apply ih (done ++ [x]) d u _ hu
      rw [hl, List.append_assoc, List.singleton_append]
  exact hrest l [] b s rfl h0

/-- What holds before the program holds after it, also when it fails. -/
def Keeps (I : σ → Prop) (x : EStateM ε σ α) : Prop :=
  ∀ s, I s → wp x (fun _ t => I t) (fun _ t => I t) s

section Keeps

variable {I : σ → Prop}

theorem keeps_pure (a : α) : Keeps I (pure a : EStateM ε σ α) := fun _ h => h

theorem keeps_throw (e : ε) : Keeps I (throw e : EStateM ε σ α) := fun _ h => h

theorem keeps_get : Keeps I (get : EStateM ε σ σ) := fun _ h => h

theorem keeps_require {p : Prop} [Decidable p] (e : ε) : Keeps I (require p e) := by
  unfold require
  split
  · exact keeps_pure ()
  · exact keeps_throw e

theorem keeps_look (f : σ → Except ε α) : Keeps I (look f) := by
  intro s h
  rw [wp_look]
  exact ⟨fun _ _ => h, fun _ _ => h⟩

theorem Keeps.bind {x : EStateM ε σ α} {f : α → EStateM ε σ β} (hx : Keeps I x)
    (hf : ∀ a, Keeps I (f a)) : Keeps I (x >>= f) := by
  intro s h
  rw [wp_bind]
  exact (hx s h).mono (fun a t ht => hf a t ht) fun _ _ ht => ht

theorem keeps_get_bind {f : σ → EStateM ε σ α}
    (hf : ∀ s, I s → wp (f s) (fun _ t => I t) (fun _ t => I t) s) : Keeps I (get >>= f) :=
  fun s h => (wp_bind get f).2 (hf s h)

theorem Keeps.forRange {body : Nat → EStateM ε σ Unit} (hbody : ∀ k, Keeps I (body k))
    (n p : Nat) : Keeps I (forRange body n p) :=
  fun s h => wp_forRange (fun _ t => I t) n p s h fun k t _ _ ht => hbody k t ht

theorem Keeps.forM {f : α → EStateM ε σ Unit} (hf : ∀ a, Keeps I (f a)) (l : List α) :
    Keeps I (l.forM f) := by
  induction l with
  | nil => exact keeps_pure ()
  | cons a l ih => exact (hf a).bind fun _ => ih

theorem Keeps.final {x : EStateM ε σ α} {s : σ} (hx : Keeps I x) (h : I s) :
    I (Program.final (x s)) :=
  (hx s h).final

end Keeps

section Runs

variable (test : Nat → σ → Except ε Bool)

/-- `while (q < hi && test(q)) q++`, with `hi - q` steps to spare -/
def runEnd (hi : Nat) : Nat → Nat → EStateM ε σ Nat
  | 0, q => pure q
  | n + 1, q =>
    if q < hi then do
      if ← look (test q) then runEnd hi n (q + 1) else pure q
    else pure q

/-- `for (; p < hi;) { if (!test(p)) { p++; continue; } q = end of the run; body(p, q); p = q; }` -/
def forRuns (body : Nat → Nat → EStateM ε σ Unit) (hi : Nat) : Nat → Nat → EStateM ε σ Unit
  | 0, _ => pure ()
  | n + 1, p =>
    if p < hi then do
      if ← look (test p) then
        let q ← runEnd test hi (hi - p) p
        body p q
        forRuns body hi n q
      else forRuns body hi n (p + 1)
    else pure ()

variable {test} {body : Nat → Nat → EStateM ε σ Unit} {E : ε → σ → Prop} {hi : Nat}

theorem wp_runEnd (n q : Nat) (s : σ) (hq : q ≤ hi) (hn : hi - q ≤ n)
    (herr : ∀ k e, q ≤ k → k < hi → test k s = .error e → E e s) :
    wp (runEnd test hi n q)
      (fun r t => t = s ∧ q ≤ r ∧ r ≤ hi ∧ (∀ k, q ≤ k → k < r → test k s = .ok true) ∧
        (r < hi → test r s = .ok false)) E s := by
  induction n generalizing q with
  | zero => exact ⟨rfl, Nat.le_refl q, hq, fun k _ _ => by omega, fun _ => by omega⟩
  | succ n ih =>
    rw [runEnd, wp_ite]
    refine ⟨fun hlt => ?_, fun hge => ?_⟩
    · rw [wp_bind, wp_look]
      refine ⟨fun b hb => ?_, fun e he => herr q e (Nat.le_refl q) hlt he⟩
      cases b with
      | false => exact ⟨rfl, Nat.le_refl q, hq, fun k _ _ => by omega, fun _ => hb⟩
      | true =>
        refine (ih (q + 1) hlt (by omega) fun k e hk => herr k e (by omega)).mono
          (fun r t ⟨ht, hr, hr', hrun, hend⟩ => ?_) (fun _ _ h => h)
        refine ⟨ht, by omega, hr', fun k hk hk' => ?_, hend⟩
        rcases Nat.eq_or_lt_of_le hk with rfl | hk
        · exact hb
        · exact hrun k hk hk'
    · exact ⟨rfl, Nat.le_refl q, hq, fun k _ _ => by omega, fun _ => by omega⟩

/-- The body sees each maximal run once, in order; `I p` is what holds when all indices
below `p` are dealt with. -/
theorem wp_forRuns (I : Nat → σ → Prop)
    (hskip : ∀ p s, I p s → p < hi → test p s = .ok false → I (p + 1) s)
    (hbody : ∀ p q s, I p s → p < q → q ≤ hi → (∀ k, p ≤ k → k < q → test k s = .ok true) →
      (q < hi → test q s = .ok false) → wp (body p q) (fun _ => I q) E s)
    (herr : ∀ p k s e, I p s → p ≤ k → k < hi → test k s = .error e → E e s)
    (n p : Nat) (s : σ) (hp : p ≤ hi) (hn : hi - p ≤ n) (h0 : I p s) :
    wp (forRuns test body hi n p) (fun _ => I hi) E s := by
  induction n generalizing p s with
  | zero =>
    have hphi : p = hi := by omega
    subst hphi
    exact h0
  | succ n ih =>
    rw [forRuns, wp_ite]
    refine ⟨fun hlt => ?_, fun hge => ?_⟩
    · rw [wp_bind, wp_look]
      refine ⟨fun b hb => ?_, fun e he => herr p p s e h0 (Nat.le_refl p) hlt he⟩
      cases b with
      | false => exact ih (p + 1) s hlt (by omega) (hskip p s h0 hlt hb)
      | true =>
        simp only [if_true, wp_bind]
        refine (wp_runEnd _ p s hp (Nat.le_refl _) fun k e hk => herr p k s e h0 hk).mono
          (fun q t ⟨ht, hpq, hqhi, hrun, hend⟩ => ?_) (fun _ _ h => h)
        subst ht
        have hlt' : p < q := by
          rcases Nat.eq_or_lt_of_le hpq with rfl | h
          · rw [hb] at hend
            exact absurd (hend hlt) (by simp)
          · exact h
        exact (hbody p q t h0 hlt' hqhi hrun hend).mono
          (fun _ u hu => ih q u hqhi (by omega) hu) (fun _ _ h => h)
    · have hphi : p = hi := by omega
      subst hphi
      exact h0

end Runs

end Utlib.Program
