import Utlib.BackedBuffer.System

namespace Utlib.BackedBuffer

open Program Sequence

variable {Path : Type}

section

variable [DecidableEq Path] {f : Faults} {size : Nat} {w : World Path}
  {s : System Path}

/-- A `resize` that throws might as well not have been called. -/
def Atomic (f : Faults) (size : Nat) (w : World Path) : Prop :=
  wp (resize f size) (fun _ _ => True)
    (fun _ w' => w'.buf.bytes = w.buf.bytes ∧ w'.buf.pages = w.buf.pages ∧
      w'.buf.dirtyPages = w.buf.dirtyPages ∧ ∀ g offset len view,
        (∃ t, byteView g offset len w' = .ok view t) ↔ ∃ t, byteView g offset len w = .ok view t) w

/-- A failing `realloc` changes nothing, and every later failure changes the size. -/
theorem resize_atomic_iff (h : Reach (fun _ _ _ => True) s) (k : Nat) (f : Faults) (size : Nat) :
    Atomic f size (s.world k) ↔ ¬Torn f size (s.world k) := by
  have hcounted := (h.steady k).counted
  generalize s.world k = w at *
  unfold Atomic
  cases hrun : resize f size w with
  | ok _ t =>
    rw [wp_of_ok hrun, true_iff]
    exact ((wp_resize hcounted).ok hrun).1
  | error e t =>
    rw [wp_of_error hrun]
    obtain ⟨_, ⟨_, hfail, rfl⟩ | ⟨htorn, hshape, _⟩⟩ := (wp_resize hcounted).error hrun
    · refine ⟨fun _ htorn => ?_, fun _ => ⟨rfl, rfl, rfl, fun _ _ _ _ => Iff.rfl⟩⟩
      rw [htorn.2.1] at hfail
      cases hfail
    · refine ⟨fun hsame => ?_, fun hnot => absurd htorn hnot⟩
      rw [hshape.bytes] at hsame
      exact absurd hsame.1 htorn.1

end

theorem resize_atomic_edited : Atomic { storage := true } 2 (edited.world 0) := by
  refine (resize_atomic_iff (reach_edited trivial trivial) 0 { storage := true } 2).2 ?_
  rintro ⟨_, hstorage, _⟩
  cases hstorage

def viewed : System Unit := (Act.call 0 (.byteView 0 1)).after {} (attachedTo 1 [7, 8])

/-- The file has 8 at offset 1; the read that should fetch it fails, and the view shows what
the fresh memory held. -/
theorem torn_resize_shows_junk : Reach (fun _ _ _ => True) viewed ∧
    ¬Atomic { read := fun _ => some 0, junk := fun _ => 85 } 2 (viewed.world 0) ∧
    ∃ t u : World Unit, resize { read := fun _ => some 0, junk := fun _ => 85 } 2 (viewed.world 0) =
        .error (.throws (.ioError .fileCantRead (some ()))) t ∧
      byteView {} 1 1 t = .ok [85] u := by
  refine ⟨?_, fun h => ?_, _, _, rfl, rfl⟩
  · have hattached : Reach (fun _ _ _ => True) (attachedTo 1 [7, 8]) := by
      refine .returns (f := {}) (a := .call 0 (.initFile 1 () false))
        (.start fun _ => some [7, 8]) ?_ trivial rfl
      exact trivial
    refine .returns (f := {}) (a := .call 0 (.byteView 0 1)) hattached ?_ trivial rfl
    exact Nat.le_refl 1
  · have hbytes := (wp.error h rfl).1
    cases hbytes

end Utlib.BackedBuffer
