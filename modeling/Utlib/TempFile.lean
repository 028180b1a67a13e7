import Utlib.Ownership
import Utlib.Path
import Utlib.Transitions

/-! `TempFile` (io/TempFile.h): files in the directory for temporary files that are removed together
with the objects that hold them. -/

namespace Utlib.TempFile

open Ownership Transitions

/-- What is at which path; the same file is not looked for under two names. -/
abbrev Disk := Path → Option (Node (List UInt8))

def emptyPath : Path := ⟨false, []⟩

/-- A random name in the directory for temporary files -/
def candidate (dir : Path) (suffix : List Char) (random : UInt64) : Path :=
  dir / Path.parse (['u', 't', 'l', '-'] ++ Nat.toDigits 10 random.toNat ++ suffix)

/-- An object is there with its file name, or its constructor is looking for one with so many
attempts left, or is about to open the file whose name it has found to be free. -/
inductive Object
  | looking (dir : Path) (suffix : List Char) (attempts : ℕ)
  | chosen (dir : Path) (suffix : List Char) (random : UInt64)
  | made (file : Path)

/-- The objects that have been begun and not been destroyed -/
abbrev Objects (V : Type) := V → Option Object

inductive Call
  | create
  | remove (removed : Bool)
deriving DecidableEq

/-- A file is there from its creation to its removal. -/
def Call.next : Bool → Call → Option Bool
  | false, create => some true
  | true, remove _ => some false
  | _, _ => none

def fileProtocol : Protocol Bool Call where
  next := Call.next
  absent := false
  ready := true

/-- The objects and the disk. The program does not see the rest: what it has created and removed,
which files it could not remove, and the disk without the temporary files. -/
structure State (V : Type) where
  object : Objects V
  disk : Disk
  log : List (Path × Call)
  left : Path → Bool
  others : Disk

def State.start {V : Type} (d : Disk) : State V := ⟨fun _ => none, d, [], fun _ => false, d⟩

/-- A file that has been created and not been removed, by whomsoever -/
def State.temporary {V : Type} (s : State V) (p : Path) : Bool :=
  fileProtocol.phase p s.log = some true || s.left p

section Methods

variable {V : Type} [DecidableEq V]

def construct (v : V) (dir : Path) (suffix : List Char) (s : State V) : State V :=
  { s with object := Function.update s.object v (some (.looking dir suffix 64)) }

/-- A round of the loop. After the last one comes the `IOError` with the fault `FILE_CANT_WRITE`. -/
def attempt (v : V) (random : UInt64) (s : State V) : State V :=
  match s.object v with
  | some (.looking _ _ 0) => { s with object := Function.update s.object v none }
  | some (.looking dir suffix (n + 1)) =>
    if (s.disk (candidate dir suffix random)).isSome then
      { s with object := Function.update s.object v (some (.looking dir suffix n)) }
    else { s with object := Function.update s.object v (some (.chosen dir suffix random)) }
  | _ => s

/-- The search for a name ends with an exception. -/
def abandon (v : V) (s : State V) : State V :=
  { s with object := Function.update s.object v none }

/-- `std::ofstream out(candidate, std::ios::binary);` empties a file that is there by now. -/
def create (v : V) (opens : Bool) (s : State V) : State V :=
  match s.object v with
  | some (.chosen dir suffix random) =>
    if opens then
      { s with
        object := Function.update s.object v (some (.made (candidate dir suffix random)))
        disk := Function.update s.disk (candidate dir suffix random) (some (.file []))
        log := s.log ++ [(candidate dir suffix random, .create)] }
    else { s with object := Function.update s.object v none }
  | _ => s

def defaultConstruct (v : V) (s : State V) : State V :=
  { s with object := Function.update s.object v (some (.made emptyPath)) }

/-- The removal may fail, which is not reported. -/
def reset (v : V) (removed : Bool) (s : State V) : State V :=
  match s.object v with
  | some (.made path) =>
    if path ≠ emptyPath then
      { s with
        object := Function.update s.object v (some (.made emptyPath))
        disk := if removed then Function.update s.disk path none else s.disk
        log := s.log ++ [(path, .remove removed)]
        left := if removed then s.left else Function.update s.left path true }
    else s
  | _ => s

def destroy (v : V) (removed : Bool) (s : State V) : State V :=
  let s := reset v removed s
  { s with object := Function.update s.object v none }

/-- `file = std::move(other.file); other.file.clear();` -/
def takeOver (v other : V) (s : State V) : State V :=
  { s with
    object := Function.update (Function.update s.object v (s.object other)) other
      (some (.made emptyPath)) }

def moveConstruct (v other : V) (s : State V) : State V := takeOver v other s

def moveAssign (v other : V) (removed : Bool) (s : State V) : State V :=
  if v ≠ other then takeOver v other (reset v removed s) else s

/-- Others change what is at a path. It is a change of the disk without the temporary files unless
it is made to one of these. -/
def outside (p : Path) (c : Option (Node (List UInt8))) (s : State V) : State V :=
  { s with
    disk := Function.update s.disk p c
    left := if c.isNone then Function.update s.left p false else s.left
    others := if s.temporary p then s.others else Function.update s.others p c }

end Methods

section Names

theorem parts_parse_ne_nil {c : Char} (hc : c ≠ '/') (s : List Char) :
    (Path.parse (c :: s)).parts ≠ [] := by
  obtain ⟨l, ls, hsplit⟩ := List.exists_cons_of_ne_nil (List.splitOn_ne_nil '/' s)
  rw [Path.parse, Fields.splitOn_cons_ne hc, hsplit, List.modifyHead_cons]
  simp only
  split <;> simp

theorem append_ne_empty {q : Path} (dir : Path) (hrelative : q.absolute = false)
    (hparts : q.parts ≠ []) : dir / q ≠ emptyPath := by
  intro h
  have hnil : (Path.append dir q).parts = [] := congrArg Path.parts h
  rw [Path.append, hrelative, if_neg Bool.false_ne_true, if_neg (fun h => hparts h.1)] at hnil
  exact hparts (List.append_eq_nil_iff.1 hnil).2

theorem candidate_ne_empty (dir : Path) (suffix : List Char) (random : UInt64) :
    candidate dir suffix random ≠ emptyPath :=
  append_ne_empty dir rfl (parts_parse_ne_nil (c := 'u') (by decide)
    (['t', 'l', '-'] ++ Nat.toDigits 10 random.toNat ++ suffix))

end Names

section Files

variable {V : Type}

/-- The file name of an object, as far as `empty` says that there is one -/
def Object.file : Object → Option Path
  | made path => if path ≠ emptyPath then some path else none
  | _ => none

def holds (object : Objects V) (v : V) : Option Path := (object v).bind Object.file

theorem file_made {path : Path} (h : path ≠ emptyPath) : (Object.made path).file = some path :=
  if_pos h

theorem file_moved : (Object.made emptyPath).file = none := by
  rw [Object.file, if_neg (not_not.2 rfl)]

theorem holds_of_eq {s : State V} {v : V} {o : Option Object} (hv : s.object v = o)
    (ho : o.bind Object.file = none) : holds s.object v = none := by
  rw [holds, hv, ho]

/-- What is at a path, and what would be there without temporary files: there is a file that an
object holds, or one that could not be removed, or what the others have made. -/
inductive Fits : Option Bool → Bool → Option (Node (List UInt8)) → Option (Node (List UInt8)) → Prop
  | held {x : Node (List UInt8)} : Fits (some true) false (some x) none
  | left {x : Node (List UInt8)} : Fits (some false) true (some x) none
  | apart {c : Option (Node (List UInt8))} : Fits (some false) false c c

structure Sound (s : State V) : Prop where
  kept : Kept fileProtocol (holds s.object) s.log
  fits : ∀ p, Fits (fileProtocol.phase p s.log) (s.left p) (s.disk p) (s.others p)

variable {s t : State V} {v other : V} {p path : Path}

theorem Sound.held_iff (hs : Sound s) :
    Held (holds s.object) p ↔ fileProtocol.phase p s.log = some true := by
  constructor
  · rintro ⟨v, hv⟩
    exact hs.kept.ready v p hv
  · intro hphase
    by_contra hnot
    rw [hs.kept.absent p hnot] at hphase
    cases hphase

theorem sound_start (d : Disk) : Sound (State.start d : State V) :=
  ⟨Kept.start, fun _ => .apart⟩

/-- The objects change, the files that they hold do not. -/
theorem Sound.congr {object : Objects V} (hs : Sound s)
    (heq : ∀ v, holds object v = holds s.object v) : Sound { s with object } := by
  have hholds : holds object = holds s.object := funext heq
  exact ⟨hholds ▸ hs.kept, hs.fits⟩

variable [DecidableEq V]

theorem holds_update_self (object : Objects V) (v : V) (o : Option Object) :
    holds (Function.update object v o) v = o.bind Object.file := by
  rw [holds, Function.update_self]

theorem holds_update_of_ne (object : Objects V) {v w : V} (hne : w ≠ v) (o : Option Object) :
    holds (Function.update object v o) w = holds object w := by
  rw [holds, Function.update_of_ne hne, holds]

/-- An object that holds no file becomes another one that holds none. -/
theorem Sound.congr_update (hs : Sound s) {o : Option Object} (hv : holds s.object v = none)
    (ho : o.bind Object.file = none) :
    Sound { s with object := Function.update s.object v o } := by
  refine hs.congr fun w => ?_
  by_cases hw : w = v
  · rw [hw, holds_update_self, ho, hv]
  · exact holds_update_of_ne s.object hw o

theorem Sound.attempt (hs : Sound s) (random : UInt64) : Sound (attempt v random s) := by
  unfold TempFile.attempt
  split
  · next hv => exact hs.congr_update (holds_of_eq hv rfl) rfl
  · next hv =>
    split
    · exact hs.congr_update (holds_of_eq hv rfl) rfl
    · exact hs.congr_update (holds_of_eq hv rfl) rfl
  · exact hs

/-- A file is created where none is. -/
theorem Sound.acquire (hs : Sound s) (hv : holds s.object v = none) (hne : path ≠ emptyPath)
    (hfree : s.disk path = none) :
    Sound { s with
      object := Function.update s.object v (some (.made path))
      disk := Function.update s.disk path (some (.file []))
      log := s.log ++ [(path, .create)] } := by
  have hfits := hs.fits path
  rw [hfree] at hfits
  generalize hphase : fileProtocol.phase path s.log = phase at hfits
  generalize hleft : s.left path = left at hfits
  generalize hothers : s.others path = others at hfits
  cases hfits with
  | apart =>
    have hself : holds (Function.update s.object v (some (.made path))) v = some path := by
      rw [holds_update_self]
      exact file_made hne
    have hfresh : ¬Held (holds s.object) path := fun hheld => by
      rw [hs.held_iff, hphase] at hheld
      cases hheld
    have hcreated : fileProtocol.follow false [.create] = some true := rfl
    have hkept := hs.kept.acquire hv hfresh hself (fun w hw => holds_update_of_ne s.object hw _)
      hcreated
    refine ⟨hkept, fun p => ?_⟩
    change Fits (fileProtocol.phase p (s.log ++ [.create].map (path, ·))) (s.left p)
      (Function.update s.disk path _ p) (s.others p)
    by_cases hp : p = path
    · rw [hp, hkept.ready v path hself, hleft, hothers, Function.update_self]
      exact .held
    · rw [Protocol.phase_append_of_ne (Ne.symm hp), Function.update_of_ne hp]
      exact hs.fits p

theorem Sound.create {dir : Path} {suffix : List Char} {random : UInt64} (hs : Sound s)
    (hv : s.object v = some (.chosen dir suffix random))
    (hfree : s.disk (candidate dir suffix random) = none) (opens : Bool) :
    Sound (create v opens s) := by
  have hnone := holds_of_eq hv rfl
  rw [TempFile.create, hv]
  cases opens with
  | true => exact hs.acquire hnone (candidate_ne_empty dir suffix random) hfree
  | false => exact hs.congr_update hnone rfl

/-- An object that has no file stays as it is, and one that has a file loses it. -/
theorem reset_cases (v : V) (removed : Bool) (s : State V) :
    (s.object v).bind Object.file = none ∧ reset v removed s = s ∨
      ∃ path, path ≠ emptyPath ∧ s.object v = some (.made path) ∧
        reset v removed s = { s with
          object := Function.update s.object v (some (.made emptyPath))
          disk := if removed then Function.update s.disk path none else s.disk
          log := s.log ++ [(path, .remove removed)]
          left := if removed then s.left else Function.update s.left path true } := by
  rw [reset]
  cases hv : s.object v with
  | none => exact .inl ⟨rfl, rfl⟩
  | some o =>
    cases o with
    | looking dir suffix n => exact .inl ⟨rfl, rfl⟩
    | chosen dir suffix random => exact .inl ⟨rfl, rfl⟩
    | made path =>
      simp only
      by_cases hpath : path = emptyPath
      · rw [if_neg (not_not.2 hpath), hpath]
        exact .inl ⟨file_moved, rfl⟩
      · rw [if_pos hpath]
        exact .inr ⟨path, hpath, rfl, rfl⟩

theorem holds_reset (v : V) (removed : Bool) (s : State V) :
    holds (reset v removed s).object v = none := by
  rcases reset_cases v removed s with ⟨hnone, heq⟩ | ⟨path, -, -, heq⟩
  · rw [heq]
    exact hnone
  · rw [heq]
    exact (holds_update_self _ _ _).trans file_moved

theorem Sound.reset (hs : Sound s) (removed : Bool) : Sound (reset v removed s) := by
  rcases reset_cases v removed s with ⟨-, heq⟩ | ⟨path, hpath, hv, heq⟩
  · rw [heq]
    exact hs
  rw [heq]
  have hself : holds s.object v = some path := by
    rw [holds, hv]
    exact file_made hpath
  have hnone : holds (Function.update s.object v (some (.made emptyPath))) v = none :=
    (holds_update_self _ _ _).trans file_moved
  have hphase := hs.kept.ready v path hself
  have hremoved : fileProtocol.follow true [.remove removed] = some false := rfl
  have hgone := Protocol.phase_append_self hphase hremoved
  refine ⟨hs.kept.release hself hnone (fun w hw => holds_update_of_ne s.object hw _) hremoved,
    fun p => ?_⟩
  change Fits (fileProtocol.phase p (s.log ++ [.remove removed].map (path, ·)))
    ((if removed then s.left else Function.update s.left path true) p)
    ((if removed then Function.update s.disk path none else s.disk) p) (s.others p)
  by_cases hp : p = path
  · have hfits := hs.fits path
    rw [show fileProtocol.phase path s.log = some true from hphase] at hfits
    generalize hleft : s.left path = left at hfits
    generalize hdisk : s.disk path = found at hfits
    generalize hothers : s.others path = others at hfits
    cases hfits with
    | held =>
      rw [hp, hgone, hothers]
      cases removed with
      | false =>
        rw [if_neg Bool.false_ne_true, if_neg Bool.false_ne_true, Function.update_self, hdisk]
        exact .left
      | true =>
        rw [if_pos rfl, if_pos rfl, Function.update_self, hleft]
        exact .apart
  · rw [Protocol.phase_append_of_ne (Ne.symm hp)]
    cases removed with
    | false =>
      rw [if_neg Bool.false_ne_true, if_neg Bool.false_ne_true, Function.update_of_ne hp]
      exact hs.fits p
    | true =>
      rw [if_pos rfl, if_pos rfl, Function.update_of_ne hp]
      exact hs.fits p

theorem Sound.takeOver (hs : Sound s) (hv : holds s.object v = none) :
    Sound (takeOver v other s) := by
  have hmoved : holds (Function.update (Function.update s.object v (s.object other)) other
      (some (.made emptyPath))) other = none := (holds_update_self _ _ _).trans file_moved
  have hself : holds (Function.update (Function.update s.object v (s.object other)) other
      (some (.made emptyPath))) v = holds s.object other := by
    by_cases hother : v = other
    · subst hother
      exact hmoved.trans hv.symm
    · rw [holds_update_of_ne _ hother, holds_update_self, holds]
  have hswap := move_eq_swap hv hself hmoved fun w hwv hother => by
    rw [holds_update_of_ne _ hother, holds_update_of_ne _ hwv]
  exact ⟨(hs.kept.rename (Equiv.swap v other)).congr hswap, hs.fits⟩

omit [DecidableEq V] in
theorem Sound.outside {c : Option (Node (List UInt8))} (hs : Sound s)
    (hallowed : ¬(Held (holds s.object) p ∧ c = none)) : Sound (outside p c s) := by
  refine ⟨hs.kept, fun q => ?_⟩
  change Fits (fileProtocol.phase q s.log)
    ((if c.isNone then Function.update s.left p false else s.left) q) (Function.update s.disk p c q)
    ((if s.temporary p then s.others else Function.update s.others p c) q)
  by_cases hq : q = p
  · have hfits := hs.fits p
    rw [hs.held_iff] at hallowed
    rw [hq, State.temporary, Function.update_self]
    generalize fileProtocol.phase p s.log = phase at hfits hallowed
    generalize hleft : s.left p = left at hfits
    generalize s.disk p = found at hfits
    generalize hothers : s.others p = others at hfits
    cases hfits with
    | held =>
      cases c with
      | none => exact absurd ⟨rfl, rfl⟩ hallowed
      | some x =>
        change Fits (some true) (s.left p) (some x) (s.others p)
        rw [hleft, hothers]
        exact .held
    | left =>
      cases c with
      | none =>
        change Fits (some false) (Function.update s.left p false p) none (s.others p)
        rw [Function.update_self, hothers]
        exact .apart
      | some x =>
        change Fits (some false) (s.left p) (some x) (s.others p)
        rw [hleft, hothers]
        exact .left
    | apart =>
      have hstays : (if c.isNone then Function.update s.left p false else s.left) p = false := by
        split
        · exact Function.update_self _ _ _
        · exact hleft
      rw [hstays]
      change Fits (some false) false c (Function.update s.others p c p)
      rw [Function.update_self]
      exact .apart
  · have hleft : (if c.isNone then Function.update s.left p false else s.left) q = s.left q := by
      split
      · exact Function.update_of_ne hq _ _
      · rfl
    have hothers : (if s.temporary p then s.others else Function.update s.others p c) q =
        s.others q := by
      split
      · rfl
      · exact Function.update_of_ne hq _ _
    rw [hleft, hothers, Function.update_of_ne hq]
    exact hs.fits q

end Files

section Runs

variable {V : Type}

inductive Operation (V : Type)
  | construct (v : V) (dir : Path) (suffix : List Char)
  | attempt (v : V) (random : UInt64)
  | abandon (v : V)
  | create (v : V) (opens : Bool)
  | defaultConstruct (v : V)
  | moveConstruct (v other : V)
  | moveAssign (v other : V) (removed : Bool)
  | reset (v : V) (removed : Bool)
  | destroy (v : V) (removed : Bool)
  | outside (p : Path) (c : Option (Node (List UInt8)))

def Object.IsMade : Option Object → Prop
  | some (.made _) => True
  | _ => False

namespace Operation

/-- An object is constructed where none is, and the others are used while they are there. A name
that has been found to be free still is when the file is opened, and nobody else removes a file that
an object holds. -/
def Allowed (s : State V) : Operation V → Prop
  | construct v _ _ => s.object v = none
  | attempt v _ => ∃ dir suffix n, s.object v = some (.looking dir suffix n)
  | abandon v => ∃ dir suffix n, s.object v = some (.looking dir suffix n)
  | create v _ => ∃ dir suffix random, s.object v = some (.chosen dir suffix random) ∧
    s.disk (candidate dir suffix random) = none
  | defaultConstruct v => s.object v = none
  | moveConstruct v other => s.object v = none ∧ Object.IsMade (s.object other)
  | moveAssign v other _ => Object.IsMade (s.object v) ∧ Object.IsMade (s.object other)
  | reset v _ => Object.IsMade (s.object v)
  | destroy v _ => Object.IsMade (s.object v)
  | outside p c => ¬(Held (holds s.object) p ∧ c = none)

def run [DecidableEq V] (s : State V) : Operation V → State V
  | construct v dir suffix => TempFile.construct v dir suffix s
  | attempt v random => TempFile.attempt v random s
  | abandon v => TempFile.abandon v s
  | create v opens => TempFile.create v opens s
  | defaultConstruct v => TempFile.defaultConstruct v s
  | moveConstruct v other => TempFile.moveConstruct v other s
  | moveAssign v other removed => TempFile.moveAssign v other removed s
  | reset v removed => TempFile.reset v removed s
  | destroy v removed => TempFile.destroy v removed s
  | outside p c => TempFile.outside p c s

/-- What an operation makes of a disk on which there are no temporary files. -/
def change (d : Disk) : Operation V → Disk
  | outside p c => Function.update d p c
  | _ => d

end Operation

variable [DecidableEq V] {s t : State V} {op : Operation V} {v other : V} {p : Path}

def Step (s : State V) (op : Operation V) (t : State V) : Prop := op.Allowed s ∧ op.run s = t

theorem Sound.step (hs : Sound s) (hstep : Step s op t) : Sound t := by
  obtain ⟨hallowed, rfl⟩ := hstep
  cases op with
  | construct v dir suffix => exact hs.congr_update (holds_of_eq hallowed rfl) rfl
  | attempt v random => exact hs.attempt random
  | abandon v =>
    obtain ⟨dir, suffix, n, hv⟩ := hallowed
    exact hs.congr_update (holds_of_eq hv rfl) rfl
  | create v opens =>
    obtain ⟨dir, suffix, random, hv, hfree⟩ := hallowed
    exact hs.create hv hfree opens
  | defaultConstruct v => exact hs.congr_update (holds_of_eq hallowed rfl) file_moved
  | moveConstruct v other => exact hs.takeOver (holds_of_eq hallowed.1 rfl)
  | moveAssign v other removed =>
    change Sound (TempFile.moveAssign v other removed s)
    rw [moveAssign]
    split
    · exact (hs.reset removed).takeOver (holds_reset v removed s)
    · exact hs
  | reset v removed => exact hs.reset removed
  | destroy v removed => exact (hs.reset removed).congr_update (holds_reset v removed s) rfl
  | outside p c => exact hs.outside hallowed

section Untouched

omit [DecidableEq V]

/-- No temporary file has been at the path, or what is known of it has not changed. -/
def Untouched (p : Path) (s t : State V) : Prop :=
  (p, .create) ∉ t.log →
    (p, .create) ∉ s.log ∧ (s.left p = false → t.left p = false) ∧ t.others p = s.others p

theorem Untouched.refl : Untouched p s s := fun h => ⟨h, id, rfl⟩

theorem Untouched.trans {u : State V} (h : Untouched p s t) (h' : Untouched p t u) :
    Untouched p s u := by
  intro hu
  obtain ⟨ht, hleft', hothers'⟩ := h' hu
  obtain ⟨hs, hleft, hothers⟩ := h ht
  exact ⟨hs, hleft' ∘ hleft, hothers'.trans hothers⟩

theorem create_mem {log : List (Path × Call)} (h : fileProtocol.phase p log = some true) :
    (p, .create) ∈ log := by
  rw [Protocol.phase] at h
  cases hcalls : callsOf p log with
  | nil =>
    rw [hcalls] at h
    cases h
  | cons c calls =>
    have hmem : c ∈ callsOf p log := hcalls ▸ List.mem_cons_self
    obtain ⟨e, he, rfl⟩ := List.mem_map.1 hmem
    obtain ⟨hlog, hpath⟩ := List.mem_filter.1 he
    rw [decide_eq_true_iff] at hpath
    rw [hcalls, Protocol.follow, List.foldlM_cons] at h
    obtain ⟨q, c⟩ := e
    obtain rfl : q = p := hpath
    cases c with
    | create => exact hlog
    | remove removed => cases h

end Untouched

theorem untouched_attempt (random : UInt64) : Untouched p s (attempt v random s) := by
  unfold attempt
  split
  · exact .refl
  · split
    · exact .refl
    · exact .refl
  · exact .refl

theorem untouched_create (opens : Bool) : Untouched p s (create v opens s) := by
  unfold create
  split
  · split
    · exact fun h => ⟨fun hmem => h (List.mem_append_left _ hmem), id, rfl⟩
    · exact .refl
  · exact .refl

theorem Sound.untouched_reset (hs : Sound s) (removed : Bool) :
    Untouched p s (TempFile.reset v removed s) := by
  rcases reset_cases v removed s with ⟨-, heq⟩ | ⟨path, hpath, hv, heq⟩
  · rw [heq]
    exact .refl
  rw [heq]
  intro h
  have hself : holds s.object v = some path := by
    rw [holds, hv]
    exact file_made hpath
  have hp : p ≠ path := by
    rintro rfl
    exact h (List.mem_append_left _ (create_mem (hs.kept.ready v p hself)))
  refine ⟨fun hmem => h (List.mem_append_left _ hmem), fun hleft => ?_, rfl⟩
  cases removed with
  | false => exact (Function.update_of_ne hp _ _).trans hleft
  | true => exact hleft

/-- At a path at which no temporary file has been, the others do what they would do without. -/
theorem Sound.step_others (hs : Sound s) (hstep : Step s op t) (hp : (p, .create) ∉ t.log) :
    (p, .create) ∉ s.log ∧ (s.left p = false → t.left p = false ∧
      ∀ d : Disk, s.others p = d p → t.others p = op.change d p) := by
  obtain ⟨-, rfl⟩ := hstep
  have hquiet (h : Untouched p s (op.run s)) (hchange : ∀ d, op.change d = d) :
      (p, .create) ∉ s.log ∧ (s.left p = false → (op.run s).left p = false ∧
        ∀ d : Disk, s.others p = d p → (op.run s).others p = op.change d p) := by
    obtain ⟨hlog, hleft, hothers⟩ := h hp
    exact ⟨hlog, fun h => ⟨hleft h, fun d hd => by rw [hchange, hothers, hd]⟩⟩
  cases op with
  | construct v dir suffix => exact hquiet .refl fun _ => rfl
  | attempt v random => exact hquiet (untouched_attempt random) fun _ => rfl
  | abandon v => exact hquiet .refl fun _ => rfl
  | create v opens => exact hquiet (untouched_create opens) fun _ => rfl
  | defaultConstruct v => exact hquiet .refl fun _ => rfl
  | moveConstruct v other => exact hquiet .refl fun _ => rfl
  | moveAssign v other removed =>
    refine hquiet ?_ fun _ => rfl
    change Untouched p s (TempFile.moveAssign v other removed s)
    rw [moveAssign]
    split
    · exact hs.untouched_reset removed
    · exact .refl
  | reset v removed => exact hquiet (hs.untouched_reset removed) fun _ => rfl
  | destroy v removed => exact hquiet (hs.untouched_reset removed) fun _ => rfl
  | outside q c =>
    refine ⟨hp, fun hleft => ⟨?_, fun d hd => ?_⟩⟩
    · change (if c.isNone then Function.update s.left q false else s.left) p = false
      split
      · by_cases hq : p = q
        · rw [hq, Function.update_self]
        · rw [Function.update_of_ne hq, hleft]
      · exact hleft
    · change (if s.temporary q then s.others else Function.update s.others q c) p =
        Function.update d q c p
      by_cases hq : p = q
      · subst hq
        have hnot : ¬s.temporary p := by
          rw [State.temporary, hleft, Bool.or_false, decide_eq_true_iff]
          exact fun hphase => hp (create_mem hphase)
        rw [if_neg hnot, Function.update_self, Function.update_self]
      · rw [Function.update_of_ne hq, ← hd]
        split
        · rfl
        · exact Function.update_of_ne hq _ _

/-- A run of the operations leads to the state, as far as the disk without temporary files goes. -/
structure Traced (d : Disk) (ops : List (Operation V)) (s : State V) : Prop where
  sound : Sound s
  others : ∀ p, (p, .create) ∉ s.log →
    s.left p = false ∧ s.others p = ops.foldl Operation.change d p

omit [DecidableEq V] in
theorem traced_start (d : Disk) : Traced d [] (State.start d : State V) :=
  ⟨sound_start d, fun _ _ => ⟨rfl, rfl⟩⟩

theorem Traced.step {d : Disk} {ops : List (Operation V)} (h : Traced d ops s)
    (hstep : Step s op t) : Traced d (ops ++ [op]) t := by
  refine ⟨h.sound.step hstep, fun p hp => ?_⟩
  obtain ⟨hlog, hrest⟩ := h.sound.step_others hstep hp
  obtain ⟨hleft, hothers⟩ := h.others p hlog
  obtain ⟨hleft', hothers'⟩ := hrest hleft
  rw [List.foldl_append]
  exact ⟨hleft', hothers' _ hothers⟩

omit [DecidableEq V] in
theorem Sound.disk (hs : Sound s) (p : Path) :
    (Held (holds s.object) p ∨ s.left p = true → (s.disk p).isSome ∧ s.others p = none) ∧
      (¬(Held (holds s.object) p ∨ s.left p = true) → s.disk p = s.others p) := by
  have hfits := hs.fits p
  rw [hs.held_iff]
  generalize fileProtocol.phase p s.log = phase at hfits
  generalize s.left p = left at hfits
  generalize s.disk p = found at hfits
  generalize s.others p = others at hfits
  cases hfits with
  | held => exact ⟨fun _ => ⟨rfl, rfl⟩, fun hnot => absurd (.inl rfl) hnot⟩
  | left => exact ⟨fun _ => ⟨rfl, rfl⟩, fun hnot => absurd (.inr rfl) hnot⟩
  | apart => simp

/-- No two objects hold one file, and a file that an object holds exists and has been created once
more than it has been removed. At the paths of these files, and of those that could not be removed,
there would be nothing without the objects, and everywhere else the disk is what the others have
made of it: all that they have done, at a path where no object has ever created a file. -/
theorem temporary_files_apart {d : Disk} {ops : List (Operation V)}
    (h : Runs Step (State.start d) ops s) :
    (∀ v w p, holds s.object v = some p → holds s.object w = some p → v = w) ∧
      (∀ p, Held (holds s.object) p →
        (s.disk p).isSome ∧ fileProtocol.phase p s.log = some true) ∧
      (∀ p, ¬Held (holds s.object) p → fileProtocol.phase p s.log = some false) ∧
      (∀ p, Held (holds s.object) p ∨ s.left p = true → (s.disk p).isSome ∧ s.others p = none) ∧
      (∀ p, ¬(Held (holds s.object) p ∨ s.left p = true) → s.disk p = s.others p) ∧
      ∀ p, (p, .create) ∉ s.log → s.disk p = ops.foldl Operation.change d p := by
  have htraced := h.invariant (fun _ _ _ _ htraced hstep => htraced.step hstep) (traced_start d)
  have hs := htraced.sound
  refine ⟨hs.kept.exclusive, fun p hp => ?_, hs.kept.absent, fun p => (hs.disk p).1,
    fun p => (hs.disk p).2, fun p hp => ?_⟩
  · exact ⟨((hs.disk p).1 (.inl hp)).1, hs.held_iff.1 hp⟩
  · obtain ⟨hleft, hothers⟩ := htraced.others p hp
    refine ((hs.disk p).2 ?_).trans hothers
    rintro (hheld | htrue)
    · exact hp (create_mem (hs.held_iff.1 hheld))
    · rw [hleft] at htrue
      cases htrue

/-- A name that is taken is passed over, others make a file while the constructor is at work, and a
file that has been handed over is still there when the first object is gone. -/
theorem temporary_files_apart_moved :
    let dir : Path := ⟨true, [['t']]⟩
    let taken : Disk := Function.update (fun _ => none) (candidate dir ['x'] 6) (some .dir)
    let ops : List (Operation ℕ) :=
      [.construct 0 dir ['x'], .attempt 0 6, .attempt 0 7, .outside ⟨true, [['y']]⟩ (some .dir),
        .create 0 true, .moveConstruct 1 0, .destroy 0 true]
    ∃ s : State ℕ, Runs Step (State.start taken) ops s ∧
      ((s.disk (candidate dir ['x'] 7)).isSome ∧
        fileProtocol.phase (candidate dir ['x'] 7) s.log = some true) ∧
      s.disk ⟨true, [['y']]⟩ = ops.foldl Operation.change taken ⟨true, [['y']]⟩ := by
  intro dir taken ops
  have hruns : Runs (Step (V := ℕ)) (State.start taken) ops _ :=
    .head ⟨rfl, rfl⟩ (.head ⟨⟨_, _, _, rfl⟩, rfl⟩ (.head ⟨⟨_, _, _, rfl⟩, rfl⟩
      (.head ⟨fun h => (by cases h.2), rfl⟩ (.head ⟨⟨_, _, _, rfl, rfl⟩, rfl⟩
        (.head ⟨⟨rfl, trivial⟩, rfl⟩ (.head ⟨trivial, rfl⟩ .refl))))))
  have hall := temporary_files_apart hruns
  exact ⟨_, hruns, hall.2.1 _ ⟨1, rfl⟩, hall.2.2.2.2.2 ⟨true, [['y']]⟩ (by decide)⟩

end Runs

end Utlib.TempFile
