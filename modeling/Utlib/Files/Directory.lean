import Mathlib.Data.List.Dedup
import Mathlib.Data.List.Sort
import Utlib.FileTree

/-! `utl::syncDirectory`, `getPruneList`, `pruneDirectory` and `mirrorDirectory` (io/Files.cpp) over
a tree of directories and regular files. -/

namespace Utlib.Files

open Program

abbrev Name := List Char

/-- The innermost name comes first. -/
abbrev Location := List Name

structure File where
  bytes : List UInt8
  mtime : Int

abbrev Disk := FileTree Name File

inductive Operation
  | createDirectories
  | recursiveDirectoryIterator
  | fileSize
  | lastWriteTime
  | copyFile

inductive Error
  | dirNotFound (path : Location)
  | filesystemError (op : Operation) (path : Location)

abbrev Fs := EStateM Error Disk

/-- `path.native().size()` -/
def nativeSize (p : Location) : Nat :=
  p.foldr (fun name size => name.length + 1 + size) 0

/-- What the standard leaves open: the order of a directory iteration, the order of equal keys
under `std::sort`, and the times at which files are copied. -/
structure Platform where
  walk : Disk → Location → List Location
  walk_nodup : ∀ t d, (walk t d).Nodup
  mem_walk : ∀ t d p, p ∈ walk t d ↔ (∃ a rel, p = a :: rel ++ d) ∧ (t.node p).isSome
  sort : List Location → List Location
  sort_perm : ∀ l, List.Perm (sort l) l
  sort_pairwise : ∀ l, (sort l).Pairwise fun a b => nativeSize b ≤ nativeSize a
  clock : Nat → Int

def Longer (a b : Location) : Prop := nativeSize b ≤ nativeSize a

instance : DecidableRel Longer := fun a b =>
  inferInstanceAs (Decidable (nativeSize b ≤ nativeSize a))

instance : Std.Total Longer := ⟨fun a b => Nat.le_total (nativeSize b) (nativeSize a)⟩

instance : IsTrans Location Longer := ⟨fun _ _ _ hab hbc => Nat.le_trans hbc hab⟩

def Platform.ofClock (clock : Nat → Int) : Platform where
  walk t d := t.places.dedup.filter fun p => d <:+ p ∧ p ≠ d
  walk_nodup t d := (List.nodup_dedup t.places).filter _
  mem_walk := by
    intro t d p
    simp only [List.mem_filter, List.mem_dedup, t.mem_places, decide_eq_true_eq]
    constructor
    · rintro ⟨hsome, ⟨rel, rfl⟩, hne⟩
      cases rel with
      | nil => exact absurd rfl hne
      | cons a rel => exact ⟨⟨a, rel, rfl⟩, hsome⟩
    · rintro ⟨⟨a, rel, rfl⟩, hsome⟩
      refine ⟨hsome, List.suffix_append _ _, ?_⟩
      intro heq
      have hlen := congrArg List.length heq
      simp at hlen
      omega
  sort := List.insertionSort Longer
  sort_perm := List.perm_insertionSort Longer
  sort_pairwise := List.pairwise_insertionSort Longer
  clock := clock

/-- `fs::relative(path, base)` for a path below `base` -/
def relative (path base : Location) : Location :=
  path.take (path.length - base.length)

@[simp] theorem relative_append (rel base : Location) : relative (rel ++ base) base = rel := by
  simp [relative]

section Filesystem

def createDirectories (path : Location) : Fs Unit := fun t =>
  match t.makeDirs path with
  | some u => .ok () u
  | none => .error (.filesystemError .createDirectories path) t

def remove (path : Location) : Fs Bool := fun t =>
  match t.removeLeaf path with
  | some u => .ok true u
  | none => .ok false t

def fileSize (t : Disk) (path : Location) : Except Error Nat :=
  match t.node path with
  | some (.file f) => .ok f.bytes.length
  | _ => .error (.filesystemError .fileSize path)

def lastWriteTime (t : Disk) (path : Location) : Except Error Int :=
  match t.node path with
  | some (.file f) => .ok f.mtime
  | _ => .error (.filesystemError .lastWriteTime path)

/-- `fs::copy_file(src, dst, overwrite_existing)` at the time `now` -/
def copyFile (src dst : Location) (now : Int) : Fs Unit := fun t =>
  match t.node src, dst with
  | some (.file f), a :: p =>
    if hp : t.node p = some .dir then
      if hfree : t.node (a :: p) ≠ some .dir then
        .ok () (t.putFile a p ⟨f.bytes, now⟩ hp hfree)
      else .error (.filesystemError .copyFile dst) t
    else .error (.filesystemError .copyFile dst) t
  | _, _ => .error (.filesystemError .copyFile dst) t

end Filesystem

section Mirroring

variable (P : Platform)

def needsUpdate (t : Disk) (src dst : Location) : Except Error Bool :=
  if (t.node dst).isNone then .ok true
  else do
    if (← fileSize t src) ≠ (← fileSize t dst) then .ok true
    else .ok ((← lastWriteTime t src) > (← lastWriteTime t dst))

def syncEntry (source destination : Location) (count : Nat) (entry : Location) : Fs Nat := do
  let rel := relative entry source
  let dst := rel ++ destination
  match (← get).node entry with
  | some .dir => do
    createDirectories dst
    pure count
  | some (.file _) => do
    createDirectories dst.tail
    if ← look fun t => needsUpdate t entry dst then
      copyFile entry dst (P.clock count)
      pure (count + 1)
    else pure count
  | none => pure count

def syncDirectory (source destination : Location) : Fs Nat := do
  let t ← get
  require (t.node source = some .dir) (.dirNotFound source)
  createDirectories destination
  let t ← get
  (P.walk t source).foldlM (syncEntry P source destination) 0

def getPruneList (source destination : Location) : Fs (List Location) := do
  let t ← get
  require (t.node destination).isSome (.dirNotFound destination)
  require (t.node destination = some .dir)
    (.filesystemError .recursiveDirectoryIterator destination)
  pure (P.sort ((P.walk t destination).filter fun entry =>
    (t.node (relative entry destination ++ source)).isNone))

def pruneEntry (result : Nat) (path : Location) : Fs Nat := do
  if ← remove path then pure (result + 1) else pure result

def pruneDirectory (source destination : Location) : Fs Nat := do
  let t ← get
  require (t.node destination).isSome (.dirNotFound destination)
  let list ← getPruneList P source destination
  list.foldlM pruneEntry 0

/-- The operands of `+` evaluated from left to right. -/
def mirrorDirectory (source destination : Location) : Fs Nat := do
  let copied ← syncDirectory P source destination
  let removed ← pruneDirectory P source destination
  pure (copied + removed)

/-- The operands of `+` evaluated from right to left. -/
def mirrorDirectoryRightToLeft (source destination : Location) : Fs Nat := do
  let removed ← pruneDirectory P source destination
  let copied ← syncDirectory P source destination
  pure (copied + removed)

end Mirroring

section Specs

variable {t : Disk} {E : Error → Disk → Prop}

theorem wp_createDirectories {path : Location} {Q : Unit → Disk → Prop} :
    wp (createDirectories path) Q E t ↔
      (∀ u, t.makeDirs path = some u → Q () u) ∧
        (t.makeDirs path = none → E (.filesystemError .createDirectories path) t) := by
  cases h : t.makeDirs path <;> simp [wp, createDirectories, h]

theorem wp_remove {path : Location} {Q : Bool → Disk → Prop} :
    wp (remove path) Q E t ↔
      (∀ u, t.removeLeaf path = some u → Q true u) ∧ (t.removeLeaf path = none → Q false t) := by
  cases h : t.removeLeaf path <;> simp [wp, remove, h]

theorem wp_copyFile {src dst : Location} {now : Int} {Q : Unit → Disk → Prop} {f : File}
    (hsrc : t.node src = some (.file f)) (hne : dst ≠ []) (hdir : t.node dst.tail = some .dir)
    (hfree : t.node dst ≠ some .dir)
    (hQ : ∀ u : Disk, (∀ q, u.node q = if q = dst then some (.file ⟨f.bytes, now⟩) else t.node q) →
      Q () u) : wp (copyFile src dst now) Q E t := by
  cases dst with
  | nil => exact absurd rfl hne
  | cons a p =>
    have hp : t.node p = some .dir := hdir
    rw [wp_of_ok (a := ()) (t := t.putFile a p ⟨f.bytes, now⟩ hp hfree)]
    · apply hQ
      intro q
      exact Function.update_apply t.node (a :: p) _ q
    · simp [copyFile, hsrc, hp, hfree]

/-- What the update test asks for, given what is found at the destination. -/
def Outdated (f : File) : Option (Node File) → Prop
  | none => True
  | some .dir => False
  | some (.file g) => f.bytes.length ≠ g.bytes.length ∨ g.mtime < f.mtime

instance (f : File) : DecidablePred (Outdated f)
  | none => isTrue trivial
  | some .dir => isFalse id
  | some (.file g) =>
    inferInstanceAs (Decidable (f.bytes.length ≠ g.bytes.length ∨ g.mtime < f.mtime))

theorem needsUpdate_eq {src dst : Location} {f : File} (hsrc : t.node src = some (.file f)) :
    needsUpdate t src dst =
      if t.node dst = some .dir then .error (.filesystemError .fileSize dst)
      else .ok (decide (Outdated f (t.node dst))) := by
  rcases hdst : t.node dst with _ | _ | g
  · rw [needsUpdate, hdst]
    rfl
  · simp [needsUpdate, fileSize, hsrc, hdst, bind, Except.bind]
  · by_cases hlen : f.bytes.length = g.bytes.length
    · simp [needsUpdate, fileSize, lastWriteTime, hsrc, hdst, bind, Except.bind, Outdated, hlen]
    · simp [needsUpdate, fileSize, hsrc, hdst, bind, Except.bind, Outdated, hlen]

end Specs

end Utlib.Files
