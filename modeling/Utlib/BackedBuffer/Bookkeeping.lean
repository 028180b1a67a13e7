import Utlib.BackedBuffer.System

namespace Utlib.BackedBuffer

open Program

variable {Path : Type}

section

/-- No allocation of a page table fails. -/
def TableHolds (s : System Path) (f : Faults) : Act Path → Prop
  | .call k op => ¬TableFails f (s.world k) op
  | .move _ _ => True

theorem bookkept_put {s : System Path} {k : Nat} {w : World Path}
    (hb : ∀ i, Bookkept (s.bufs i)) :
    (∀ i, Bookkept ((s.put k w).bufs i)) ↔ Bookkept w.buf := by
  constructor
  · intro h
    have hk := h k
    rwa [System.bufs_put_self] at hk
  · intro h i
    by_cases hi : i = k
    · subst hi
      rwa [System.bufs_put_self]
    · rw [System.bufs_put_of_ne s w hi]
      exact hb i

variable [DecidableEq Path] {f : Faults} {a : Act Path} {s : System Path}

theorem wp_run_bookkept (hs : ∀ k, Steady (s.world k)) (hb : ∀ k, Bookkept (s.bufs k))
    (hpre : a.pre s) :
    wp (a.run f) (fun _ t => (∀ k, Bookkept (t.bufs k)) ∧ TableHolds s f a)
      (fun e t => (∃ x, e = .throws x) ∧ ((∀ k, Bookkept (t.bufs k)) ↔ TableHolds s f a)) s := by
  cases a with
  | call k op =>
    rw [Act.run, wp_bind, wp_withBuf]
    apply (wp_call (hs k) hpre).mono
    · rintro _ w' ⟨_, hbook⟩
      obtain ⟨hbook, hgood⟩ := hbook (hb k)
      exact ⟨(bookkept_put hb).2 hbook, hgood⟩
    · rintro e w' ⟨_, hbook⟩
      obtain ⟨hthrow, hbook⟩ := hbook (hb k)
      exact ⟨hthrow, (bookkept_put hb).trans hbook⟩
  | move i j =>
    rw [Act.run, wp_ite]
    constructor
    · intro _
      exact ⟨hb, trivial⟩
    · intro hij
      rw [wp_bind, wp_get, wp_bind, wp_withBuf]
      apply (wp_moveFrom (hs i).idle).mono (fun rest w' h => ?_) (fun _ _ h => h)
      obtain ⟨hbuf, _, _, failed, rfl⟩ := h
      rw [wp_modify]
      refine ⟨fun k => ?_, trivial⟩
      have hput : ∀ k, Bookkept ((s.put i w').bufs k) := by
        rw [bookkept_put hb, hbuf]
        exact hb j
      by_cases hk : k = j
      · subst hk
        simp only [Function.update_self]
        exact bookkept_empty failed
      · simp only [Function.update_of_ne hk]
        exact hput k

/-- As long as page tables can be allocated, every call that fails leaves the bookkeeping
intact, and no assertion or index fails; the first one that cannot be allocated breaks it. -/
theorem reach_bookkept (h : Reach TableHolds s) :
    (∀ k, Bookkept (s.bufs k)) ∧ ∀ f a, a.pre s →
      (wp (a.run f) (fun _ t => ∀ k, Bookkept (t.bufs k))
        (fun e t => (∃ x, e = .throws x) ∧ ∀ k, Bookkept (t.bufs k)) s ↔ TableHolds s f a) := by
  have hinv : (∀ k, Steady (s.world k)) ∧ ∀ k, Bookkept (s.bufs k) := by
    refine h.invariant (I := fun s => (∀ k, Steady (s.world k)) ∧ ∀ k, Bookkept (s.bufs k))
      (fun disk => ⟨(Reach.start disk : Reach TableHolds _).steady, fun _ => bookkept_empty false⟩) ?_
    rintro s f a ⟨hs, hb⟩ hpre hholds
    apply ((wp_run hs hpre).and (wp_run_bookkept hs hb hpre)).mono
    · rintro _ t ⟨heff, hbook, _⟩
      exact ⟨fun k => (heff.fate k).steady heff.footprint hs, hbook⟩
    · rintro e t ⟨heff, _, hbook⟩ _
      exact ⟨fun k => (heff.fate k).steady heff.footprint hs, hbook.2 hholds⟩
  refine ⟨hinv.2, fun f a hpre => ?_⟩
  have hspec := wp_run_bookkept (f := f) hinv.1 hinv.2 hpre
  cases hrun : a.run f s with
  | ok _ t =>
    obtain ⟨hbook, hholds⟩ := hspec.ok hrun
    rw [wp_of_ok hrun]
    exact ⟨fun _ => hholds, fun _ => hbook⟩
  | error e t =>
    obtain ⟨hthrow, hbook⟩ := hspec.error hrun
    rw [wp_of_error hrun, ← hbook]
    exact ⟨fun h => h.2, fun h => ⟨hthrow, h⟩⟩

end

theorem reach_bookkept_after_storage_failure : ∃ s : System Unit,
    Act.run { storage := true } (.call 0 (.init 1)) (System.start fun _ => none) =
      .error (.throws .badAlloc) s ∧ ∀ k, Bookkept (s.bufs k) := by
  have hpre : (Act.call 0 (.init 1)).pre (System.start fun _ : Unit => none) := trivial
  have hrun : Act.run { storage := true } (.call 0 (.init 1))
      (System.start fun _ : Unit => none) = .error (.throws .badAlloc) _ := rfl
  refine ⟨_, hrun, (reach_bookkept (.throws (.start _) hpre ?_ hrun)).1⟩
  rintro ⟨hstorage, _⟩
  cases hstorage

/-- The page table of a new buffer cannot be allocated, and its first view is out of range. -/
theorem table_failure_out_of_range : ∃ s : System Unit, Reach (fun _ _ _ => True) s ∧
    (s.bufs 0).pages.length ≠ pageCount (s.bufs 0).bytes ∧
    (Act.call 0 (.byteView 0 1)).pre s ∧
    ∃ t, Act.run {} (.call 0 (.byteView 0 1)) s = .error .outOfBounds t := by
  have hpre : (Act.call 0 (.init 1)).pre (System.start fun _ : Unit => none) := trivial
  have hrun : Act.run { table := true } (.call 0 (.init 1)) (System.start fun _ : Unit => none) =
      .error (.throws .badAlloc) _ := rfl
  refine ⟨_, .throws (.start _) hpre trivial hrun, ?_, ?_, _, rfl⟩
  · decide
  · exact Nat.le_refl 1

end Utlib.BackedBuffer
