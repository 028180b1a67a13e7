import Utlib.Compressible.Rle

/-! What is left of a byte sequence that is decoded twice.  `rle3` decodes where its name says
that it encodes, so this is what a round trip through that codec does. -/

namespace Utlib.Compressible

def firstRun (n : Nat) (prev : UInt8) (repetitions : Nat) :
    List UInt8 → Option (List UInt8 × UInt8 × List UInt8)
  | [] => none
  | b :: buffer =>
    let repetitions := if prev ≠ b then 1 else repetitions + 1
    if repetitions = n then some ([b], b, buffer)
    else (firstRun n b repetitions buffer).map fun (plain, a, rest) => (b :: plain, a, rest)

/-- Every run that the decoder sees is a run of ones followed by a one, or the end. -/
inductive Kept (n : Nat) : List UInt8 → Prop
  | plain {v : List UInt8} : firstRun n 0 0 v = none → Kept n v
  | last {v plain : List UInt8} {a : UInt8} : firstRun n 0 0 v = some (plain, a, []) → Kept n v
  | ones {v plain rest : List UInt8} :
    firstRun n 0 0 v = some (plain, 1, 1 :: rest) → Kept n rest → Kept n v

def Doubtful (a : UInt8) : List UInt8 → Prop
  | c :: d :: _ => c = 0 ∧ d = 0 ∨ a = 0 ∧ (c = 0 ∨ c = 1) ∧ d = 1
  | _ => False

/-- Past such runs of ones, the decoder sees a run and a run length that a second decoding may
or may not give back. -/
inductive Unsettled (n : Nat) : List UInt8 → Prop
  | run {v plain rest : List UInt8} {a : UInt8} :
    firstRun n 0 0 v = some (plain, a, rest) → Doubtful a rest → Unsettled n v
  | ones {v plain rest : List UInt8} :
    firstRun n 0 0 v = some (plain, 1, 1 :: rest) → Unsettled n rest → Unsettled n v

theorem unrleLoop_of_firstRun_none {n r : Nat} {p : UInt8} {v : List UInt8}
    (h : firstRun n p r v = none) (result : List UInt8) : unrleLoop n p r v result = result ++ v := by
  induction v generalizing p r result with
  | nil => exact (List.append_nil result).symm
  | cons b v ih =>
    simp only [firstRun] at h
    simp only [unrleLoop]
    generalize (if p ≠ b then 1 else r + 1) = count at *
    split at h
    · exact absurd h (by simp)
    · next hr =>
      rw [if_neg hr, ih (Option.map_eq_none_iff.1 h), List.append_assoc]
      rfl

theorem firstRun_eq_append {n r : Nat} {p a : UInt8} {v plain rest : List UInt8}
    (h : firstRun n p r v = some (plain, a, rest)) : v = plain ++ rest := by
  induction v generalizing p r plain with
  | nil => exact absurd h (by simp [firstRun])
  | cons b v ih =>
    simp only [firstRun] at h
    generalize (if p ≠ b then 1 else r + 1) = count at h
    split at h
    · cases h
      rfl
    · obtain ⟨⟨plain', a', rest'⟩, h', heq⟩ := Option.map_eq_some_iff.1 h
      cases heq
      rw [ih h']
      rfl

theorem unrleLoop_of_firstRun {n r : Nat} {p a : UInt8} {v plain rest : List UInt8}
    (h : firstRun n p r v = some (plain, a, rest)) (w result : List UInt8) :
    unrleLoop n p r (plain ++ w) result = unrleRuns n a w (result ++ plain) := by
  induction v generalizing p r plain result with
  | nil => exact absurd h (by simp [firstRun])
  | cons b v ih =>
    have hstep : ∀ x, unrleLoop n p r (b :: x) result =
      if (if p ≠ b then 1 else r + 1) = n then unrleRuns n b x (result ++ [b])
      else unrleLoop n b (if p ≠ b then 1 else r + 1) x (result ++ [b]) := fun _ => rfl
    simp only [firstRun] at h
    generalize (if p ≠ b then 1 else r + 1) = count at *
    split at h
    · next hr =>
      cases h
      rw [List.singleton_append, hstep, if_pos hr]
    · next hr =>
      obtain ⟨⟨plain', a', rest'⟩, h', heq⟩ := Option.map_eq_some_iff.1 h
      cases heq
      rw [List.cons_append, hstep, if_neg hr, ih h', List.append_assoc]
      rfl

section Once

variable {n : Nat}

theorem unrleLoop_zero (n : Nat) (a : UInt8) (v result : List UInt8) :
    unrleLoop n a 0 v result = unrle n v result := by
  cases v with
  | nil => rfl
  | cons b v =>
    calc unrleLoop n a 0 (b :: v) result
      _ = unrleLoop n b 0 (b :: v) result := unrleLoop_fresh (Or.inl rfl) n v result
      _ = unrle n (b :: v) result := (unrleLoop_fresh (Or.inl rfl) n v result).symm

theorem unrleRuns_nil (n : Nat) (a : UInt8) (v result : List UInt8) :
    unrleRuns n a v result = result ++ unrleRuns n a v [] := by
  have h := (unrleLoop_append n a 0 v result []).2
  rwa [List.append_nil] at h

theorem unrleRuns_cons {c : UInt8} (h : c ≠ 255) (n : Nat) (a : UInt8) (v : List UInt8) :
    unrleRuns n a (c :: v) [] = List.replicate c.toNat a ++ unrle n v [] := by
  have hc : (c.toNat : Int) ≠ maxRunlength := by
    intro hc
    exact h (UInt8.toNat_inj.1 (Int.ofNat_inj.1 hc))
  simp only [unrleRuns]
  rw [if_pos hc, unrleLoop_zero, unrle_append]
  rfl

theorem unrleRuns_max (n : Nat) (a : UInt8) (v : List UInt8) :
    unrleRuns n a (255 :: v) [] = List.replicate 255 a ++ unrleRuns n a v [] := by
  simp only [unrleRuns]
  rw [if_neg (by decide), unrleRuns_nil]
  rfl

theorem unrle_of_firstRun {a : UInt8} {v plain rest : List UInt8}
    (h : firstRun n 0 0 v = some (plain, a, rest)) (w : List UInt8) :
    unrle n (plain ++ w) [] = plain ++ unrleRuns n a w [] := by
  rw [unrle, unrleLoop_of_firstRun h, unrleRuns_nil]
  rfl

theorem Kept.unrle_eq {v : List UInt8} (h : Kept n v) : unrle n v [] = v := by
  induction h with
  | plain h => exact unrleLoop_of_firstRun_none h []
  | last h =>
    have hv := firstRun_eq_append h
    rw [hv, unrle_of_firstRun h]
    rfl
  | @ones v plain rest h _ ih =>
    rw [firstRun_eq_append h, unrle_of_firstRun h, unrleRuns_cons (by decide), ih]
    rfl

end Once

section Twice

variable {n : Nat} {a : UInt8}

theorem head?_unrle (n : Nat) (v : List UInt8) : (unrle n v []).head? = v.head? := by
  cases v with
  | nil => rfl
  | cons b v =>
    simp only [unrle, unrleLoop, List.nil_append, List.head?_cons]
    generalize (if (0 : UInt8) ≠ b then 1 else 0 + 1) = count
    split
    · rw [unrleRuns_nil]
      rfl
    · have h := (unrleLoop_append n b count v [b] []).1
      rw [List.append_nil] at h
      rw [h]
      rfl

theorem replicate_prefix_append {j : Nat} {u : List UInt8} (h : List.replicate j a <+: u)
    (t : Nat) : List.replicate (t + j) a <+: List.replicate t a ++ u := by
  rw [List.replicate_add]
  exact (List.prefix_append_right_inj _).2 h

theorem replicate_prefix_of_le {i j : Nat} (h : i ≤ j) {u : List UInt8}
    (hu : List.replicate j a <+: u) : List.replicate i a <+: u := by
  obtain ⟨k, rfl⟩ := Nat.exists_eq_add_of_le h
  rw [List.replicate_add] at hu
  exact (List.prefix_append _ _).trans hu

theorem replicate_prefix_unrleRuns (n : Nat) (a c : UInt8) (v : List UInt8) :
    List.replicate c.toNat a <+: unrleRuns n a (c :: v) [] := by
  by_cases hc : c = 255
  · rw [hc, unrleRuns_max]
    exact List.prefix_append _ _
  · rw [unrleRuns_cons hc]
    exact List.prefix_append _ _

/-- What the decoder does behind a run length that equals the byte of its run. -/
def afterSelf (n : Nat) (a : UInt8) (v : List UInt8) : List UInt8 :=
  if a = 255 then unrleRuns n a v [] else unrle n v []

theorem unrleRuns_self (n : Nat) (a : UInt8) (v : List UInt8) :
    unrleRuns n a (a :: v) [] = List.replicate a.toNat a ++ afterSelf n a v := by
  by_cases ha : a = 255
  · rw [afterSelf, if_pos ha, ha, unrleRuns_max]
    rfl
  · rw [afterSelf, if_neg ha, unrleRuns_cons ha]

theorem replicate_prefix_decode (ha : 0 < a.toNat) (j r : Nat) (w : List UInt8) :
    List.replicate j a <+: unrleLoop n a r (List.replicate j a ++ w) [] ∧
      List.replicate j a <+: unrleRuns n a (List.replicate j a ++ w) [] := by
  induction j generalizing r with
  | zero => exact ⟨List.nil_prefix, List.nil_prefix⟩
  | succ j ih =>
    rw [List.replicate_succ, List.cons_append]
    constructor
    · simp only [unrleLoop, ne_eq, not_true_eq_false, if_false, List.nil_append]
      split
      · rw [unrleRuns_nil]
        exact (List.cons_prefix_cons).2 ⟨rfl, (ih r).2⟩
      · have h := (unrleLoop_append n a (r + 1) (List.replicate j a ++ w) [a] []).1
        rw [List.append_nil] at h
        rw [h]
        exact (List.cons_prefix_cons).2 ⟨rfl, (ih (r + 1)).1⟩
    · have hrest : List.replicate j a <+: afterSelf n a (List.replicate j a ++ w) := by
        rw [afterSelf]
        split
        · exact (ih 0).2
        · rw [← unrleLoop_zero n a]
          exact (ih 0).1
      rw [unrleRuns_self, ← List.replicate_succ]
      exact replicate_prefix_of_le (by omega) (replicate_prefix_append hrest a.toNat)

theorem replicate_prefix_afterSelf (ha : 0 < a.toNat) {j : Nat} {u : List UInt8}
    (h : List.replicate j a <+: u) : List.replicate j a <+: afterSelf n a u := by
  obtain ⟨w, rfl⟩ := h
  rw [afterSelf]
  split
  · exact (replicate_prefix_decode ha j 0 w).2
  · rw [← unrleLoop_zero n a]
    exact (replicate_prefix_decode ha j 0 w).1

theorem unrleRuns_twice_self_ne (ha : 2 ≤ a.toNat) (rest : List UInt8) :
    unrleRuns n a (unrleRuns n a (a :: rest) []) [] ≠ a :: rest := by
  intro h
  obtain ⟨t, ht⟩ := Nat.exists_eq_add_of_le' (le_trans one_le_two ha)
  have hrest : rest = List.replicate t a ++
      afterSelf n a (List.replicate t a ++ afterSelf n a rest) := by
    rw [unrleRuns_self, ht, List.replicate_succ, List.cons_append, unrleRuns_self, ht,
      List.replicate_succ, List.cons_append] at h
    exact (List.cons.inj h).2.symm
  -- each decoding puts `t` more copies of `a` in front of those that `rest` starts with
  have hall : ∀ j, List.replicate j a <+: rest := by
    intro j
    induction j with
    | zero => exact List.nil_prefix
    | succ j ih =>
      rw [hrest]
      have h₁ := replicate_prefix_append (replicate_prefix_afterSelf (n := n) (by omega) ih) t
      have h₂ := replicate_prefix_append (replicate_prefix_afterSelf (n := n) (by omega) h₁) t
      exact replicate_prefix_of_le (by omega) h₂
  have hlen := (hall (rest.length + 1)).length_le
  rw [List.length_replicate] at hlen
  omega

theorem head?_unrleRuns {c : UInt8} (hc : c ≠ 0) (v : List UInt8) :
    (unrleRuns n a (c :: v) []).head? = some a := by
  have hpos : 1 ≤ c.toNat := Nat.one_le_iff_ne_zero.2 fun h => hc (UInt8.toNat_inj.1 h)
  obtain ⟨t, h⟩ := replicate_prefix_of_le hpos (replicate_prefix_unrleRuns n a c v)
  rw [← h]
  rfl

theorem unrleRuns_zero (n : Nat) (a : UInt8) (v : List UInt8) :
    unrleRuns n a (0 :: v) [] = unrle n v [] := by
  rw [unrleRuns_cons (by decide)]
  rfl

theorem two_le_toNat {c : UInt8} (h₀ : c ≠ 0) (h₁ : c ≠ 1) : 2 ≤ c.toNat := by
  have h₀ : c.toNat ≠ 0 := fun h => h₀ (UInt8.toNat_inj.1 h)
  have h₁ : c.toNat ≠ 1 := fun h => h₁ (UInt8.toNat_inj.1 h)
  omega

theorem unrleRuns_twice_zero_ne {rest : List UInt8} (h : ¬Doubtful a (0 :: rest)) :
    unrleRuns n a (unrleRuns n a (0 :: rest) []) [] ≠ 0 :: rest := by
  rw [unrleRuns_zero]
  cases rest with
  | nil => exact (List.cons_ne_nil _ _).symm
  | cons d rest =>
    obtain ⟨y, hy⟩ := List.head?_eq_some_iff.1 (head?_unrle n (d :: rest))
    rw [hy]
    intro heq
    have hd : d ≠ 0 := fun hd => h (Or.inl ⟨rfl, hd⟩)
    have ha : a = 0 := by
      have hhead := head?_unrleRuns (n := n) (a := a) hd y
      rw [heq] at hhead
      exact (Option.some.inj hhead).symm
    have hd' : d ≠ 1 := fun hd => h (Or.inr ⟨ha, Or.inl rfl, hd⟩)
    obtain ⟨t, ht⟩ := replicate_prefix_of_le (two_le_toNat hd hd')
      (replicate_prefix_unrleRuns n a d y)
    rw [← ht, ha] at heq
    exact hd (List.cons.inj (List.cons.inj heq).2).1.symm

theorem unrleRuns_twice_ne {c : UInt8} {rest : List UInt8} (hone : ¬(a = 1 ∧ c = 1))
    (h : ¬Doubtful a (c :: rest)) :
    unrleRuns n a (unrleRuns n a (c :: rest) []) [] ≠ c :: rest := by
  by_cases hc : c = 0
  · rw [hc] at h ⊢
    exact unrleRuns_twice_zero_ne h
  intro heq
  obtain ⟨y, hy⟩ := List.head?_eq_some_iff.1 (head?_unrleRuns (n := n) (a := a) hc rest)
  have hhead : a ≠ 0 → c = a := by
    intro ha
    have hhead := head?_unrleRuns (n := n) (a := a) ha y
    rw [← hy, heq] at hhead
    exact Option.some.inj hhead
  by_cases ha : a = 0
  · by_cases hc' : c = 1
    · subst ha hc'
      rw [unrleRuns_cons (by decide)] at heq
      have heq : unrle n (unrle n rest []) [] = 1 :: rest := by
        rwa [show List.replicate (1 : UInt8).toNat (0 : UInt8) = [0] from rfl,
          List.singleton_append, unrleRuns_zero] at heq
      have hrest := congrArg List.head? heq
      rw [head?_unrle, head?_unrle] at hrest
      obtain ⟨rest', rfl⟩ := List.head?_eq_some_iff.1 hrest
      exact h (Or.inr ⟨rfl, Or.inr rfl, rfl⟩)
    · obtain ⟨t, ht⟩ := replicate_prefix_of_le (two_le_toNat hc hc')
        (replicate_prefix_unrleRuns n a c rest)
      rw [← ht, ha] at heq
      have heq : unrle n (0 :: t) [] = c :: rest := by
        rwa [show List.replicate 2 (0 : UInt8) ++ t = 0 :: 0 :: t from rfl, unrleRuns_zero] at heq
      have hhead := congrArg List.head? heq
      rw [head?_unrle] at hhead
      exact hc (Option.some.inj hhead).symm
  · have hca := hhead ha
    subst hca
    exact unrleRuns_twice_self_ne (two_le_toNat hc fun h' => hone ⟨h', h'⟩) rest heq

theorem unrle_twice_eq_iff {v plain rest : List UInt8} (h : firstRun n 0 0 v = some (plain, a, rest))
    {w : List UInt8} (hw : unrle n v [] = plain ++ w) :
    unrle n (unrle n v []) [] = v ↔ unrleRuns n a w [] = rest := by
  rw [hw, unrle_of_firstRun h, firstRun_eq_append h]
  exact List.append_right_inj plain

theorem Kept.unrle_twice {v : List UInt8} (h : Kept n v) : unrle n (unrle n v []) [] = v := by
  rw [h.unrle_eq, h.unrle_eq]

theorem kept_or_unsettled_of_unrle_twice {v : List UInt8} (h : unrle n (unrle n v []) [] = v) :
    Kept n v ∨ Unsettled n v := by
  induction hl : v.length using Nat.strong_induction_on generalizing v with
  | _ l ih =>
    cases hrun : firstRun n 0 0 v with
    | none => exact Or.inl (.plain hrun)
    | some found =>
      obtain ⟨plain, a, rest⟩ := found
      cases rest with
      | nil => exact Or.inl (.last hrun)
      | cons c rest =>
        have hv := firstRun_eq_append hrun
        have hw := unrle_of_firstRun hrun (c :: rest)
        rw [← hv] at hw
        have heq := (unrle_twice_eq_iff hrun hw).1 h
        by_cases hone : a = 1 ∧ c = 1
        · obtain ⟨rfl, rfl⟩ := hone
          rw [unrleRuns_cons (by decide), show List.replicate (1 : UInt8).toNat (1 : UInt8) = [1]
            from rfl, List.singleton_append, unrleRuns_cons (by decide)] at heq
          have hlt : rest.length < l := by
            rw [← hl, hv, List.length_append, List.length_cons]
            omega
          exact (ih rest.length hlt (List.cons.inj heq).2 rfl).imp (.ones hrun) (.ones hrun)
        · by_cases hdoubt : Doubtful a (c :: rest)
          · exact Or.inr (.run hrun hdoubt)
          · exact absurd heq (unrleRuns_twice_ne hone hdoubt)

example : unrle 3 (unrle 3 [5, 5, 5, 0, 0, 0, 0, 0, 0, 0, 0, 2, 2, 2, 2, 2] []) [] =
    [5, 5, 5, 0, 0, 0, 0, 0, 0, 0, 0, 2, 2, 2, 2, 2] := by decide

example : unrle 3 (unrle 3 [5, 5, 5, 0, 0] []) [] ≠ [5, 5, 5, 0, 0] := by decide

end Twice

end Utlib.Compressible
