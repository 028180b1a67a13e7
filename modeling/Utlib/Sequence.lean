import Mathlib.Data.List.GetD
import Mathlib.Data.List.TakeDrop

/-! Lists read with a filler: beyond its end a list shows `z` throughout. -/

universe u

namespace Utlib.Sequence

variable {α : Type u} {z : α}

def overwrite (z : α) (xs : List α) (offset : Nat) (ys : List α) : List α :=
  xs.takeD offset z ++ ys ++ xs.drop (offset + ys.length)

def slice (xs : List α) (offset len : Nat) : List α := (xs.drop offset).take len

/-- The first `n` bytes to arrive of the writes `ws`, and what has not arrived yet. -/
def drain (z : α) : Nat → List (Nat × List α) → List α → List α × List (Nat × List α)
  | _, [], xs => (xs, [])
  | n, (offset, ys) :: ws, xs =>
    if ys.length ≤ n then drain z (n - ys.length) ws (overwrite z xs offset ys)
    else (overwrite z xs offset (ys.take n), (offset + n, ys.drop n) :: ws)

def settle (z : α) (ws : List (Nat × List α)) (xs : List α) : List α :=
  ws.foldl (fun xs w => overwrite z xs w.1 w.2) xs

/-- Where the writes `ws` all arrive, or the first `n` bytes of them when a step fails. -/
def deliver (z : α) (fails : Bool) (n : Nat) (ws : List (Nat × List α)) (xs : List α) : List α :=
  if fails then (drain z n ws xs).1 else settle z ws xs

@[simp] theorem deliver_nil (fails : Bool) (n : Nat) (xs : List α) :
    deliver z fails n [] xs = xs := by
  cases fails <;> rfl

theorem getD_takeD (xs : List α) (n i : Nat) :
    (xs.takeD n z).getD i z = if i < n then xs.getD i z else z := by
  induction n generalizing xs i with
  | zero => simp
  | succ n ih =>
    cases i with
    | zero => cases xs <;> simp
    | succ i =>
      have hstep := ih xs.tail i
      cases xs with
      | nil => simp at hstep ⊢
      | cons x xs => simpa using hstep

theorem getD_take (xs : List α) (n i : Nat) :
    (xs.take n).getD i z = if i < n then xs.getD i z else z := by
  simp only [List.getD_eq_getElem?_getD, List.getElem?_take]
  split <;> rfl

theorem getD_map_range (g : Nat → α) (n i : Nat) :
    ((List.range n).map g).getD i z = if i < n then g i else z := by
  split
  · rename_i h
    rw [List.getD_eq_getElem _ _ (by simpa using h), List.getElem_map, List.getElem_range]
  · rename_i h
    exact List.getD_eq_default _ _ (by simpa using h)

theorem ext_getD {xs ys : List α} (hlen : xs.length = ys.length)
    (h : ∀ i, i < xs.length → xs.getD i z = ys.getD i z) : xs = ys := by
  apply List.ext_getElem hlen
  intro i hx hy
  have hi := h i hx
  rwa [List.getD_eq_getElem _ _ hx, List.getD_eq_getElem _ _ hy] at hi

theorem takeD_eq_append {xs : List α} {n : Nat} (h : xs.length ≤ n) :
    xs.takeD n z = xs ++ List.replicate (n - xs.length) z := by
  apply ext_getD
  · simp only [List.takeD_length, List.length_append, List.length_replicate]
    omega
  · intro i hi
    rw [List.takeD_length] at hi
    rw [getD_takeD, if_pos hi]
    by_cases hlow : i < xs.length
    · rw [List.getD_append _ _ _ _ hlow]
    · rw [List.getD_append_right _ _ _ _ (by omega), List.getD_replicate _ (by omega)]
      exact List.getD_eq_default _ _ (by omega)

@[simp] theorem length_overwrite (xs : List α) (offset : Nat) (ys : List α) :
    (overwrite z xs offset ys).length = max xs.length (offset + ys.length) := by
  simp only [overwrite, List.length_append, List.takeD_length, List.length_drop]
  omega

theorem getD_overwrite (xs : List α) (offset : Nat) (ys : List α) (i : Nat) :
    (overwrite z xs offset ys).getD i z =
      if offset ≤ i ∧ i < offset + ys.length then ys.getD (i - offset) z else xs.getD i z := by
  unfold overwrite
  by_cases hlow : i < offset
  · rw [List.append_assoc, List.getD_append _ _ _ _ (by simpa using hlow), getD_takeD,
      if_pos hlow, if_neg (by omega)]
  · rw [List.append_assoc, List.getD_append_right _ _ _ _ (by simpa using hlow),
      List.takeD_length]
    by_cases hmid : i < offset + ys.length
    · rw [if_pos ⟨by omega, hmid⟩, List.getD_append _ _ _ _ (by omega)]
    · rw [if_neg (by omega), List.getD_append_right _ _ _ _ (by omega)]
      simp only [List.getD_eq_getElem?_getD, List.getElem?_drop]
      rw [show offset + ys.length + (i - offset - ys.length) = i by omega]

theorem getD_overwrite_of_mem {xs : List α} {offset i : Nat} {ys : List α} (h : offset ≤ i)
    (h' : i < offset + ys.length) :
    (overwrite z xs offset ys).getD i z = ys.getD (i - offset) z := by
  rw [getD_overwrite, if_pos ⟨h, h'⟩]

theorem getD_overwrite_of_notMem {xs : List α} {offset i : Nat} {ys : List α}
    (h : i < offset ∨ offset + ys.length ≤ i) :
    (overwrite z xs offset ys).getD i z = xs.getD i z := by
  rw [getD_overwrite, if_neg (by omega)]

@[simp] theorem length_slice (xs : List α) (offset len : Nat) :
    (slice xs offset len).length = min len (xs.length - offset) := by
  simp [slice]

theorem getD_slice (xs : List α) (offset len i : Nat) :
    (slice xs offset len).getD i z = if i < len then xs.getD (offset + i) z else z := by
  rw [slice, getD_take]
  simp only [List.getD_eq_getElem?_getD, List.getElem?_drop]

@[simp] theorem settle_cons (w : Nat × List α) (ws : List (Nat × List α)) (xs : List α) :
    settle z (w :: ws) xs = settle z ws (overwrite z xs w.1 w.2) := rfl

theorem getD_settle_of_agree {ws : List (Nat × List α)} {i : Nat} {v : α} (xs : List α)
    (hv : ∀ w ∈ ws, w.1 ≤ i ∧ i < w.1 + w.2.length → w.2.getD (i - w.1) z = v)
    (hmem : (∃ w ∈ ws, w.1 ≤ i ∧ i < w.1 + w.2.length) ∨ xs.getD i z = v) :
    (settle z ws xs).getD i z = v := by
  induction ws generalizing xs with
  | nil =>
    rcases hmem with ⟨w, hw, _⟩ | h
    · cases hw
    · exact h
  | cons w ws ih =>
    rw [settle_cons]
    apply ih _ fun u hu => hv u (List.mem_cons_of_mem _ hu)
    by_cases hin : w.1 ≤ i ∧ i < w.1 + w.2.length
    · right
      rw [getD_overwrite, if_pos hin]
      exact hv w List.mem_cons_self hin
    · rcases hmem with ⟨u, hu, huin⟩ | h
      · rcases List.mem_cons.1 hu with rfl | hu
        · exact absurd huin hin
        · exact Or.inl ⟨u, hu, huin⟩
      · right
        rw [getD_overwrite, if_neg hin, h]

section Untouched

variable {n : Nat} {ws : List (Nat × List α)} {i : Nat}

theorem getD_settle (xs : List α) (h : ∀ w ∈ ws, i < w.1 ∨ w.1 + w.2.length ≤ i) :
    (settle z ws xs).getD i z = xs.getD i z := by
  induction ws generalizing xs with
  | nil => rfl
  | cons w ws ih =>
    rw [settle_cons, ih _ fun v hv => h v (List.mem_cons_of_mem _ hv)]
    exact getD_overwrite_of_notMem (h w List.mem_cons_self)

theorem length_settle (xs : List α) (h : ∀ w ∈ ws, w.1 + w.2.length ≤ xs.length) :
    (settle z ws xs).length = xs.length := by
  induction ws generalizing xs with
  | nil => rfl
  | cons w ws ih =>
    have hw := h w List.mem_cons_self
    have hlen : (overwrite z xs w.1 w.2).length = xs.length := by simp; omega
    rw [settle_cons, ih _ fun v hv => by rw [hlen]; exact h v (List.mem_cons_of_mem _ hv), hlen]

theorem getD_drain (xs : List α) (h : ∀ w ∈ ws, i < w.1 ∨ w.1 + w.2.length ≤ i) :
    (drain z n ws xs).1.getD i z = xs.getD i z := by
  induction ws generalizing n xs with
  | nil => rfl
  | cons w ws ih =>
    have hw := h w List.mem_cons_self
    unfold drain
    split
    · rw [ih _ fun v hv => h v (List.mem_cons_of_mem _ hv)]
      exact getD_overwrite_of_notMem hw
    · exact getD_overwrite_of_notMem (by simp; omega)

theorem length_drain (xs : List α) (h : ∀ w ∈ ws, w.1 + w.2.length ≤ xs.length) :
    (drain z n ws xs).1.length = xs.length := by
  induction ws generalizing n xs with
  | nil => rfl
  | cons w ws ih =>
    have hw := h w List.mem_cons_self
    unfold drain
    split
    · have hlen : (overwrite z xs w.1 w.2).length = xs.length := by simp; omega
      rw [ih _ fun v hv => by rw [hlen]; exact h v (List.mem_cons_of_mem _ hv), hlen]
    · simp
      omega

/-- What has not arrived yet is the end of writes that were waiting. -/
theorem mem_drain_rest {xs : List α} {v : Nat × List α} (hv : v ∈ (drain z n ws xs).2) :
    ∃ w ∈ ws, w.1 ≤ v.1 ∧ v.1 + v.2.length = w.1 + w.2.length := by
  induction ws generalizing n xs with
  | nil => cases hv
  | cons w ws ih =>
    unfold drain at hv
    split at hv
    · obtain ⟨u, hu, hle⟩ := ih hv
      exact ⟨u, List.mem_cons_of_mem _ hu, hle⟩
    · rcases List.mem_cons.1 hv with rfl | hv
      · exact ⟨w, List.mem_cons_self, by simp, by simp; omega⟩
      · exact ⟨v, List.mem_cons_of_mem _ hv, Nat.le_refl _, rfl⟩

theorem untouched_drain_rest {xs : List α} (h : ∀ w ∈ ws, i < w.1 ∨ w.1 + w.2.length ≤ i) :
    ∀ w ∈ (drain z n ws xs).2, i < w.1 ∨ w.1 + w.2.length ≤ i := by
  intro v hv
  obtain ⟨w, hw, hle, hend⟩ := mem_drain_rest hv
  rcases h w hw with hlow | hhigh
  · exact Or.inl (Nat.lt_of_lt_of_le hlow hle)
  · exact Or.inr (by rwa [hend])

theorem inside_drain_rest {xs : List α} {m : Nat} (h : ∀ w ∈ ws, w.1 + w.2.length ≤ m) :
    ∀ w ∈ (drain z n ws xs).2, w.1 + w.2.length ≤ m := by
  intro v hv
  obtain ⟨w, hw, _, hend⟩ := mem_drain_rest hv
  rw [hend]
  exact h w hw

theorem getD_deliver (fails : Bool) (xs : List α)
    (h : ∀ w ∈ ws, i < w.1 ∨ w.1 + w.2.length ≤ i) :
    (deliver z fails n ws xs).getD i z = xs.getD i z := by
  cases fails with
  | false => exact getD_settle xs h
  | true => exact getD_drain xs h

theorem length_deliver (fails : Bool) (xs : List α)
    (h : ∀ w ∈ ws, w.1 + w.2.length ≤ xs.length) :
    (deliver z fails n ws xs).length = xs.length := by
  cases fails with
  | false => exact length_settle xs h
  | true => exact length_drain xs h

end Untouched

end Utlib.Sequence
