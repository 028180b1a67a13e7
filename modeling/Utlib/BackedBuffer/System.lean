import Utlib.BackedBuffer.Calls

namespace Utlib.BackedBuffer

open Program Sequence

variable {Path : Type}

/-- Any number of buffers over one file system. -/
structure System (Path : Type) where
  bufs : Nat → BackedBuffer Path
  disk : Disk Path
  log : List (FileStep × Bool)

inductive Act (Path : Type) where
  | call (k : Nat) (op : Op Path)
  | move (i j : Nat)

section

def System.start (disk : Disk Path) : System Path := ⟨fun _ => {}, disk, []⟩

def System.world (s : System Path) (k : Nat) : World Path := ⟨s.bufs k, s.disk, s.log⟩

def System.put (s : System Path) (k : Nat) (w : World Path) : System Path :=
  ⟨Function.update s.bufs k w.buf, w.disk, w.log⟩

def Act.pre (s : System Path) : Act Path → Prop
  | .call k op => op.pre (s.bufs k)
  | .move _ _ => True

def Act.target : Act Path → Nat
  | .call k _ => k
  | .move i _ => i

def Act.touches : Act Path → Nat → Prop
  | .call k _, i => i = k
  | .move j k, i => j ≠ k ∧ (i = j ∨ i = k)

def withBuf {α : Type} (k : Nat) (x : Action Path α) :
    EStateM (Failure Path) (System Path) α := fun s =>
  match x (s.world k) with
  | .ok a w => .ok a (s.put k w)
  | .error e w => .error e (s.put k w)

/-- `move i j` is `bufs[i] = std::move(bufs[j])`. -/
def Act.run [DecidableEq Path] (f : Faults) :
    Act Path → EStateM (Failure Path) (System Path) Unit
  | .call k op => do
    let _ ← withBuf k (BackedBuffer.call f op)
  | .move i j =>
    if i = j then pure ()
    else do
      let s ← get
      let rest ← withBuf i (moveFrom f (s.bufs j))
      modify fun s => { s with bufs := Function.update s.bufs j rest }

/-- The states that calls and moves lead to, whether they return or throw; `allowed` says
which steps and which faults are considered. -/
inductive Reach [DecidableEq Path] (allowed : System Path → Faults → Act Path → Prop) :
    System Path → Prop where
  | start (disk : Disk Path) : Reach allowed (System.start disk)
  | returns {s t : System Path} {f : Faults} {a : Act Path} : Reach allowed s → a.pre s →
      allowed s f a → a.run f s = .ok () t → Reach allowed t
  | throws {s t : System Path} {f : Faults} {a : Act Path} {e : Exn Path} : Reach allowed s →
      a.pre s → allowed s f a → a.run f s = .error (.throws e) t → Reach allowed t

theorem wp_withBuf {α : Type} {k : Nat} {x : Action Path α} {Q : α → System Path → Prop}
    {E : Failure Path → System Path → Prop} {s : System Path} :
    wp (withBuf k x) Q E s ↔
      wp x (fun a w => Q a (s.put k w)) (fun e w => E e (s.put k w)) (s.world k) := by
  simp only [wp, withBuf]
  cases x (s.world k) <;> rfl

theorem System.world_put (s : System Path) (k : Nat) (w : World Path) : (s.put k w).world k = w := by
  simp [System.world, System.put]

theorem System.bufs_put_self (s : System Path) (k : Nat) (w : World Path) :
    (s.put k w).bufs k = w.buf :=
  Function.update_self _ _ _

theorem System.bufs_put_of_ne (s : System Path) {k i : Nat} (w : World Path) (h : i ≠ k) :
    (s.put k w).bufs i = s.bufs i :=
  Function.update_of_ne h _ _

end

section Steps

variable {f : Faults} {a : Act Path} {s t : System Path}

/-- What becomes of buffer `k` in one step. -/
inductive Fate (f : Faults) (a : Act Path) (s t : System Path) (k : Nat) : Prop where
  | called (op : Op Path) (ha : a = .call k op) (h : Preserved f op (s.world k) (t.world k))
  | received (j : Nat) (ha : a = .move k j) (hj : j ≠ k) (h : t.bufs k = s.bufs j)
  | emptied (h : Blank (t.bufs k))
  | kept (hk : ¬a.touches k) (h : t.bufs k = s.bufs k) (hdisk : k ≠ a.target ∨ t.disk = s.disk)

structure Effect (f : Faults) (a : Act Path) (s t : System Path) : Prop where
  footprint : Footprint (s.bufs a.target).file s.disk t.disk
  fate : ∀ k, Fate f a s t k

theorem Fate.steady {k : Nat} (h : Fate f a s t k)
    (hfoot : Footprint (s.bufs a.target).file s.disk t.disk) (hs : ∀ k, Steady (s.world k)) : Steady (t.world k) := by
  have hcarry : ∀ j, t.bufs k = s.bufs j → Steady (t.world k) := by
    intro j hj
    have hworld : (t.world k).buf = (s.world j).buf := hj
    refine ⟨?_, ?_, ?_⟩
    · rw [hworld]
      exact (hs j).counted
    · rw [hworld]
      exact (hs j).idle
    · intro path hpath
      have hthere : (s.disk path).isSome := (hs j).onDisk path (by rw [← hworld, hpath])
      rwa [← hfoot.present] at hthere
  cases h with
  | called op ha h => exact h.steady
  | received j ha hj h => exact hcarry j h
  | emptied h =>
    refine ⟨h.counted, h.toFresh.idle, fun path hpath => ?_⟩
    have hnone : (t.world k).buf.file = none := h.file
    rw [hnone] at hpath
    cases hpath
  | kept _ h _ => exact hcarry k h

end Steps

section Ownership

variable {f : Faults} {a : Act Path} {s t : System Path}

/-- The file is ours while the buffer uses it. -/
def Exclusive (s : System Path) : Act Path → Prop
  | .call k (.initFile _ path _) => ∀ j, j ≠ k → (s.bufs j).file ≠ some path
  | _ => True

def Owned (s : System Path) : Prop :=
  ∀ i j path, i ≠ j → (s.bufs i).file = some path → (s.bufs j).file ≠ some path

/-- `P` looks at the buffer and at its own file only. -/
def Local (P : World Path → Prop) : Prop :=
  ∀ w w' : World Path, w'.buf = w.buf →
    (∀ path, w.buf.file = some path → w'.disk path = w.disk path) → P w → P w'

theorem content_local {w w' : World Path} (hbuf : w'.buf = w.buf)
    (hdisk : ∀ path, w.buf.file = some path → w'.disk path = w.disk path) :
    w'.content = w.content := by
  rw [World.content, World.content, hbuf]
  cases hfile : w.buf.file with
  | none => rfl
  | some path => rw [Option.bind_some, Option.bind_some, hdisk path hfile]

theorem local_attached : Local fun w : World Path => Attached w := by
  intro w w' hbuf hdisk hatt
  refine ⟨?_, ?_⟩
  · rw [hbuf]
    exact hatt.inStream
  · rw [content_local hbuf hdisk, hbuf]
    exact hatt.known

theorem Effect.owned (h : Effect f a s t) (hs : Owned s) (hexcl : Exclusive s a) : Owned t := by
  intro i j path hij hi hj
  have horigin : ∀ k, (t.bufs k).file = some path →
      (¬a.touches k ∧ (s.bufs k).file = some path) ∨
      (∃ l, a = .move k l ∧ l ≠ k ∧ (s.bufs l).file = some path) ∨
      ((s.bufs k).file = some path ∧ ∃ op, a = .call k op) ∨
      ∃ size readOnly, a = .call k (.initFile size path readOnly) := by
    intro k hk
    cases h.fate k with
    | called op ha hpres =>
      rcases hpres.file with hsame | hnone | ⟨size, p, readOnly, rfl, hp⟩
      · exact Or.inr (Or.inr (Or.inl ⟨hsame.symm.trans hk, op, ha⟩))
      · have hnone : (t.bufs k).file = none := hnone
        rw [hnone] at hk
        cases hk
      · have hp : (t.bufs k).file = some p := hp
        rw [hp, Option.some_inj] at hk
        subst hk
        exact Or.inr (Or.inr (Or.inr ⟨_, _, ha⟩))
    | received l ha hl hbuf => exact Or.inr (Or.inl ⟨l, ha, hl, by rw [← hbuf, hk]⟩)
    | emptied hblank =>
      rw [hblank.file] at hk
      cases hk
    | kept hk' hbuf _ => exact Or.inl ⟨hk', by rw [← hbuf, hk]⟩
  rcases horigin i hi with ⟨hi', hif⟩ | ⟨l, rfl, hl, hif⟩ | ⟨hif, op, rfl⟩ | ⟨_, _, rfl⟩
  · rcases horigin j hj with ⟨_, hjf⟩ | ⟨l, rfl, hl, hjf⟩ | ⟨hjf, _⟩ | ⟨_, _, rfl⟩
    · exact hs i j path hij hif hjf
    · exact hs i l path (fun hil => hi' ⟨hl.symm, Or.inr hil⟩) hif hjf
    · exact hs i j path hij hif hjf
    · exact hexcl i hij hif
  · rcases horigin j hj with ⟨hj', hjf⟩ | ⟨l', heq, _, _⟩ | ⟨_, _, heq⟩ | ⟨_, _, heq⟩
    · exact hs l j path (fun hlj => hj' ⟨hl.symm, Or.inr hlj.symm⟩) hif hjf
    · exact hij (by injection heq)
    · cases heq
    · cases heq
  · rcases horigin j hj with ⟨_, hjf⟩ | ⟨l, heq, _, _⟩ | ⟨hjf, _⟩ | ⟨_, _, heq⟩
    · exact hs i j path hij hif hjf
    · cases heq
    · exact hs i j path hij hif hjf
    · exact hij (by injection heq)
  · rcases horigin j hj with ⟨_, hjf⟩ | ⟨l, heq, _, _⟩ | ⟨hjf, _⟩ | ⟨_, _, heq⟩
    · exact hexcl j (Ne.symm hij) hjf
    · cases heq
    · exact hexcl j (Ne.symm hij) hjf
    · exact hij (by injection heq)

/-- The induction for what each buffer keeps about itself and its own file. -/
theorem Effect.forall_of_local {P : World Path → Prop} (h : Effect f a s t) (hs : Owned s)
    (hlocal : Local P) (hblank : ∀ w : World Path, Blank w.buf → P w)
    (hcall : ∀ k op, a = .call k op → Preserved f op (s.world k) (t.world k) → P (s.world k) →
      P (t.world k)) (hP : ∀ k, P (s.world k)) (k : Nat) : P (t.world k) := by
  cases h.fate k with
  | called op ha hpres => exact hcall k op ha hpres (hP k)
  | received j ha hj hbuf =>
    apply hlocal (s.world j) (t.world k) hbuf _ (hP j)
    intro path hpath
    apply h.footprint.elsewhere
    rw [ha]
    exact hs j k path hj hpath
  | emptied hb => exact hblank _ hb
  | kept hk hbuf hdisk =>
    apply hlocal (s.world k) (t.world k) hbuf _ (hP k)
    intro path hpath
    rcases hdisk with hne | hsame
    · apply h.footprint.elsewhere
      exact hs k a.target path hne hpath
    · exact congrFun hsame path

end Ownership

section Runs

variable [DecidableEq Path] {allowed : System Path → Faults → Act Path → Prop}
  {f : Faults} {a : Act Path} {s t : System Path}

theorem Reach.invariant {I : System Path → Prop} (h0 : ∀ disk, I (System.start disk))
    (hstep : ∀ s f a, I s → a.pre s → allowed s f a →
      wp (a.run f) (fun _ => I) (fun e t => (∃ x, e = .throws x) → I t) s)
    (h : Reach allowed s) : I s := by
  induction h with
  | start disk => exact h0 disk
  | returns _ hpre hallowed hrun ih => exact (hstep _ _ _ ih hpre hallowed).ok hrun
  | throws _ hpre hallowed hrun ih => exact (hstep _ _ _ ih hpre hallowed).error hrun ⟨_, rfl⟩

theorem wp_run (hs : ∀ k, Steady (s.world k)) (hpre : a.pre s) :
    wp (a.run f) (fun _ => Effect f a s) (fun _ => Effect f a s) s := by
  cases a with
  | call k op =>
    have heffect : ∀ w', Preserved f op (s.world k) w' → Effect f (.call k op) s (s.put k w') := by
      intro w' h
      refine ⟨h.footprint, fun i => ?_⟩
      by_cases hi : i = k
      · subst hi
        exact .called op rfl (by rwa [System.world_put])
      · exact .kept hi (System.bufs_put_of_ne s w' hi) (Or.inl hi)
    rw [Act.run, wp_bind, wp_withBuf]
    exact (wp_call (hs k) hpre).mono (fun _ w' h => heffect w' h.1) (fun _ w' h => heffect w' h.1)
  | move i j =>
    rw [Act.run, wp_ite]
    constructor
    · rintro rfl
      exact ⟨Footprint.of_eq rfl, fun k => .kept (fun h => h.1 rfl) rfl (Or.inr rfl)⟩
    · intro hij
      rw [wp_bind, wp_get, wp_bind, wp_withBuf]
      apply (wp_moveFrom (hs i).idle).mono (fun rest w' h => ?_) (fun _ _ h => h)
      obtain ⟨hbuf, hfoot, _, failed, rfl⟩ := h
      rw [wp_modify]
      refine ⟨hfoot, fun k => ?_⟩
      by_cases hkj : k = j
      · subst hkj
        apply Fate.emptied
        simp only [Function.update_self]
        exact blank_empty failed
      · have hk : Function.update (s.put i w').bufs j { out := { failed := failed } } k =
            (s.put i w').bufs k := Function.update_of_ne hkj _ _
        by_cases hki : k = i
        · subst hki
          refine .received j rfl (Ne.symm hkj) (hk.trans ?_)
          rw [System.bufs_put_self, hbuf]
        · exact .kept (fun h => h.2.elim hki hkj) (hk.trans (System.bufs_put_of_ne s w' hki))
            (Or.inl hki)

theorem Reach.steady (h : Reach allowed s) (k : Nat) : Steady (s.world k) := by
  have hall : ∀ k, Steady (s.world k) := by
    refine h.invariant (I := fun s => ∀ k, Steady (s.world k)) (fun disk k => ?_) ?_
    · have hblank : Blank ((System.start disk).world k).buf :=
        blank_mk false rfl (by simp) (Nat.zero_le _)
      exact ⟨hblank.counted, hblank.toFresh.idle, nofun⟩
    · intro s f a hs hpre _
      exact (wp_run hs hpre).mono (fun _ t ht k => (ht.fate k).steady ht.footprint hs)
        (fun _ t ht _ k => (ht.fate k).steady ht.footprint hs)
  exact hall k

/-- What a buffer keeps about itself and its own file holds in every state. -/
theorem Reach.local_invariant {P : World Path → Prop} (h : Reach allowed s)
    (hexcl : ∀ s f a, allowed s f a → Exclusive s a) (hlocal : Local P)
    (hblank : ∀ w : World Path, Blank w.buf → P w)
    (hcall : ∀ s f k op w', allowed s f (.call k op) → Preserved f op (s.world k) w' →
      P (s.world k) → P w') (k : Nat) : P (s.world k) := by
  have hall : (∀ k, Steady (s.world k)) ∧ Owned s ∧ ∀ k, P (s.world k) := by
    refine h.invariant (I := fun s => (∀ k, Steady (s.world k)) ∧ Owned s ∧
      ∀ k, P (s.world k)) (fun disk => ⟨(Reach.start disk : Reach allowed _).steady, ?_,
        fun k => hblank _ (blank_empty false)⟩) ?_
    · intro i j path _ hi
      cases hi
    · rintro s f a ⟨hs, ho, hP⟩ hpre hallowed
      have hnext : ∀ t, Effect f a s t →
          (∀ k, Steady (t.world k)) ∧ Owned t ∧ ∀ k, P (t.world k) := by
        intro t ht
        refine ⟨fun k => (ht.fate k).steady ht.footprint hs, ht.owned ho (hexcl _ _ _ hallowed),
          ht.forall_of_local ho hlocal hblank (fun k op ha hpres => ?_) hP⟩
        subst ha
        exact hcall s f k op _ hallowed hpres
      exact (wp_run hs hpre).mono (fun _ => hnext) (fun _ t ht _ => hnext t ht)
  exact hall.2.2 k

end Runs

section Example

def Act.after {Path : Type} [DecidableEq Path] (a : Act Path) (f : Faults) (s : System Path) :
    System Path :=
  match a.run f s with
  | .ok _ t => t
  | .error _ t => t

/-- A buffer over a file, as large as the file is in the cases below. -/
def attachedTo (size : Nat) (content : List UInt8) : System Unit :=
  (Act.call 0 (.initFile size () false)).after {} (System.start fun _ => some content)

/-- Its first byte has been written. -/
def edited : System Unit := (Act.call 0 (.write 0 [9])).after {} (attachedTo 1 [7])

theorem reach_edited {allowed : System Unit → Faults → Act Unit → Prop}
    (hinit : allowed (System.start fun _ => some [7]) {} (.call 0 (.initFile 1 () false)))
    (hwrite : allowed (attachedTo 1 [7]) {} (.call 0 (.write 0 [9]))) : Reach allowed edited := by
  have hattached : Reach allowed (attachedTo 1 [7]) := by
    refine .returns (.start _) ?_ hinit rfl
    exact trivial
  refine .returns hattached ?_ hwrite rfl
  exact Nat.le_refl 1

end Example

end Utlib.BackedBuffer
