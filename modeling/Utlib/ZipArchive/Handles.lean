import Mathlib.Algebra.Group.Nat.Defs
import Utlib.Ownership
import Utlib.Transitions
import Utlib.ZipArchive.Basic

/-! The objects of class `ZipArchive` (storage/ZipArchive.cpp), and the handles of the library that
they hold. -/

namespace Utlib.ZipArchive.Handles

open Program Ownership

variable {V H L : Type}

/-- What is asked of the library, of the file system and of the memory. `append` is for a name that
`listFiles` has found. -/
inductive Request (H : Type)
  | allocate
  | append (name : List Char)
  | pathExists (path : Path)
  | isDirectory (path : Path)
  | createDirectories (path : Path)
  | relative (item root : Path)
  | rename (old new : Path)
  | zipOpen (path : Path) (level : Nat) (mode : Char)
  | zipClose (zip : H)
  | entriesTotal (zip : H)
  | entryOpen (zip : H) (name : List Char)
  | entryOpenByIndex (zip : H) (index : Nat)
  | entryName (zip : H)
  | entryRead (zip : H)
  | entryFread (zip : H) (path : Path)
  | entryFwrite (zip : H) (path : Path)
  | entryClose (zip : H)

namespace Request

/-- The answer of `pathExists`, `isDirectory` and `relative` is `none`, and that of `rename`, of
`createDirectories` and of what needs memory is `false`, where an exception is thrown. -/
@[reducible] def Reply : Request H → Type
  | allocate => Bool
  | append _ => Bool
  | pathExists _ => Option Bool
  | isDirectory _ => Option Bool
  | createDirectories _ => Bool
  | relative _ _ => Option (List (List Char))
  | rename _ _ => Bool
  | zipOpen _ _ _ => Option H
  | zipClose _ => Unit
  | entriesTotal _ => Int
  | entryOpen _ _ => Int
  | entryOpenByIndex _ _ => Int
  | entryName _ => Option (List Char)
  | entryRead _ => Int × List UInt8
  | entryFread _ _ => Int
  | entryFwrite _ _ => Int
  | entryClose _ => Unit

end Request

/-- What the calls of the library do with a handle -/
inductive Call
  | zipOpen
  | zipClose
  | entriesTotal
  | entryOpen (opened : Bool)
  | entryUse
  | entryClose
deriving DecidableEq

inductive Phase
  | closed
  | idle
  | entry
deriving DecidableEq

def Phase.next : Phase → Call → Option Phase
  | closed, .zipOpen => some idle
  | idle, .entriesTotal => some idle
  | idle, .entryOpen true => some entry
  | idle, .entryOpen false => some idle
  | idle, .zipClose => some closed
  | entry, .entryUse => some entry
  | entry, .entryClose => some idle
  | _, _ => none

/-- An archive is opened before it is used and closed once; an entry is opened before it is used,
and closed before the next one is opened and before the archive is closed. -/
def zipProtocol : Protocol Phase Call where
  next := Phase.next
  absent := .closed
  ready := .idle

/-- What a request does with a handle, once the reply is there -/
def Request.calls : (r : Request H) → r.Reply → List (H × Call)
  | zipOpen _ _ _, (zip : Option H) => zip.toList.map (·, .zipOpen)
  | zipClose h, _ => [(h, .zipClose)]
  | entriesTotal h, _ => [(h, .entriesTotal)]
  | entryOpen h _, (ec : Int) => [(h, .entryOpen (ec = 0))]
  | entryOpenByIndex h _, (ec : Int) => [(h, .entryOpen (ec = 0))]
  | entryName h, _ => [(h, .entryUse)]
  | entryRead h, _ => [(h, .entryUse)]
  | entryFread h _, _ => [(h, .entryUse)]
  | entryFwrite h _, _ => [(h, .entryUse)]
  | entryClose h, _ => [(h, .entryClose)]
  | _, _ => []

/-- The library and the file system, with what the code relies on: a handle is new when it is
given out, and it stays allocated until it is closed. -/
structure Library (H L : Type) where
  answer : (r : Request H) → L → r.Reply × L
  Allocated : L → H → Prop
  fresh : ∀ path level mode l h, (answer (.zipOpen path level mode) l).1 = some h →
    ¬Allocated l h ∧ Allocated (answer (.zipOpen path level mode) l).2 h
  stays : ∀ r l h, Allocated l h → r ≠ .zipClose h → Allocated (answer r l).2 h

/-- The memory suffices for the names that `listFiles` appends. -/
def Roomy (lib : Library H L) : Prop := ∀ name l, (lib.answer (.append name) l).1 = true

structure Object (H : Type) where
  path : Path
  zip : Option H

/-- The objects that have been constructed and not been destroyed, temporary ones too -/
abbrev Objects (V H : Type) := V → Option (Object H)

def zipOf (object : Objects V H) (v : V) : Option H := (object v).bind Object.zip

structure State (V H L : Type) where
  object : Objects V H
  library : L
  log : List (H × Call)

inductive Failure
  | error (e : Error)
  | invalidZipMode (access : Char)
  | assertion
  | badAlloc

abbrev M (V H L α : Type) := EStateM Failure (State V H L) α

def State.start (l : L) : State V H L := ⟨fun _ => none, l, []⟩

namespace State

variable (s : State V H L) (v : V)

def zip : Option H := zipOf s.object v

def path : Path := ((s.object v).map Object.path).getD ⟨false, []⟩

def put [DecidableEq V] (o : Option (Object H)) : State V H L :=
  { s with object := Function.update s.object v o }

end State

section Methods

variable [DecidableEq V] (lib : Library H L)

def ask (r : Request H) : M V H L r.Reply := fun s =>
  .ok (lib.answer r s.library).1
    { s with
      library := (lib.answer r s.library).2
      log := s.log ++ r.calls (lib.answer r s.library).1 }

/-- A string, a path or a vector is made. -/
def reserve : M V H L Unit := do
  let allocated : Bool ← ask lib .allocate
  require (allocated = true) .badAlloc

/-- `zip = zip_open(...)` -/
def openAt (v : V) (path : Path) (level : Nat) (mode : Char) : M V H L Unit := do
  reserve lib
  let zip ← ask lib (.zipOpen path level mode)
  modify (·.put v (some ⟨path, zip⟩))

/-- What a question about a path leads to, if it is answered -/
def answered (path : Path) : Option Bool → M V H L Bool
  | none => throw (.error (.filesystemError path))
  | some found => pure found

def checkFound (path : Path) (access : Char) : M V H L Unit :=
  if access = 'r' then do
    let found ← answered path (← ask lib (.pathExists path))
    require (found = true) (.error (.ioError IOError.fileNotFound path))
  else pure ()

def openWith (v : V) (path : Path) (access : Char) : M V H L Unit :=
  match access with
  | 'r' => openAt lib v path 0 'r'
  | 'w' => openAt lib v path 6 'w'
  | 'a' => openAt lib v path 6 'a'
  | _ => throw (.invalidZipMode access)

/-- An object whose constructor throws has not been constructed. -/
def construct (v : V) (path : Path) (access : Char) : M V H L Unit := do
  reserve lib
  checkFound lib path access
  openWith lib v path access
  if ((← get).zip v).isNone then
    modify (·.put v none)
    throw (.error (.zipPathError ZipError.invalidArchive path))

def moveConstruct (v other : V) : M V H L Unit :=
  modify fun s => (s.put v (s.object other)).put other (some ⟨⟨false, []⟩, none⟩)

def close (v : V) : M V H L Unit := do
  match (← get).zip v with
  | none => pure ()
  | some h =>
    ask lib (.zipClose h)
    modify fun s => s.put v (some ⟨s.path v, none⟩)

def destroy (v : V) : M V H L Unit := do
  close lib v
  modify (·.put v none)

def swap (v other : V) : M V H L Unit :=
  modify fun s => { s with object := fun u => s.object (Equiv.swap v other u) }

def moveAssign (v other temporary : V) : M V H L Unit :=
  if v ≠ other then do
    moveConstruct temporary other
    swap v temporary
    destroy lib temporary
  else pure ()

def size (v : V) : M V H L Int := do
  match (← get).zip v with
  | none => pure 0
  | some h => ask lib (.entriesTotal h)

/-- `struct ZipEntry`: the entry is closed at the end of the block, also after an exception. -/
def withEntry {α : Type} (zip : Option H) (fileName : List Char) (body : H → M V H L α) :
    M V H L α :=
  match zip with
  | none => throw (.error (.zipError ZipError.kubaZipError ZipError.enoinit))
  | some h => do
    let ec : Int ← ask lib (.entryOpen h fileName)
    require (ec = 0) (.error (.zipError ZipError.kubaZipError ec))
    ensure (body h) (ask lib (.entryClose h))

/-- `if (name) result.emplace_back(name);` -/
def emplaceBack (result : List (List Char)) : Option (List Char) → M V H L (List (List Char))
  | none => pure result
  | some name => do
    let appended : Bool ← ask lib (.append name)
    require (appended = true) .badAlloc
    pure (result ++ [name])

/-- No `ZipEntry` closes the entry here when an exception is thrown. -/
def listFrom (h : H) : Nat → Nat → List (List Char) → M V H L (List (List Char))
  | 0, _, result => pure result
  | n + 1, i, result => do
    let ec : Int ← ask lib (.entryOpenByIndex h i)
    require (ec = 0) (.error (.zipError ZipError.kubaZipError ec))
    let name : Option (List Char) ← ask lib (.entryName h)
    let result ← emplaceBack lib result name
    ask lib (.entryClose h)
    listFrom h n (i + 1) result

/-- The number of entries is taken as an `int`. -/
def listFiles (v : V) : M V H L (List (List Char)) := do
  match (← get).zip v with
  | none => throw .assertion
  | some h =>
    let n ← size lib v
    listFrom lib h (n.bmod (2 ^ 32)).toNat 0 []

def uncompress (v : V) (fileName : List Char) : M V H L (List UInt8) := do
  match (← get).zip v with
  | none => throw .assertion
  | some h =>
    withEntry lib (some h) fileName fun h => do
      let (ec, data) : Int × List UInt8 ← ask lib (.entryRead h)
      require (¬ec < 0) (.error (.zipError ZipError.kubaZipError ec))
      reserve lib
      pure data

def uncompressTo (v : V) (targetDir : Path) (fileName : List Char) : M V H L Unit := do
  let directory ← answered targetDir (← ask lib (.isDirectory targetDir))
  require (directory = true) (.error (.ioError ZipError.notADirectory targetDir))
  reserve lib
  let targetFile := targetDir / Path.parse fileName
  let created : Bool ← ask lib (.createDirectories targetFile.parentPath)
  require (created = true) (.error (.filesystemError targetFile.parentPath))
  withEntry lib ((← get).zip v) fileName fun h => do
    reserve lib
    let ec : Int ← ask lib (.entryFread h targetFile)
    require (¬ec < 0) (.error (.zipError ZipError.kubaZipError ec))

def uncompressAll (v : V) (targetDir : Path) : M V H L Unit := do
  (← listFiles lib v).forM (uncompressTo lib v targetDir)

/-- A round of `write` -/
def writeItem (v : V) (root item : Path) : M V H L Unit := do
  let rel : Option (List (List Char)) ← ask lib (.relative item root)
  match rel with
  | none => throw (.error (.filesystemError item))
  | some rel =>
    require (¬(rel = [] ∨ rel.head? = some Path.dotdot))
      (.error (.ioError IOError.fileNotFound item))
    reserve lib
    withEntry lib ((← get).zip v) (List.intercalate ['/'] rel) fun h => do
      reserve lib
      let ec : Int ← ask lib (.entryFwrite h item)
      require (¬ec < 0) (.error (.zipError ZipError.kubaZipError ec))

def write (v : V) (files : List Path) (root : Path) : M V H L Unit :=
  files.forM (writeItem lib v root)

/-- What `replace` does with the temporary archive -/
def replaceWith (v : V) (files : List Path) (root : Path) (temporary : V) : M V H L Unit := do
  write lib temporary files root
  close lib temporary
  close lib v
  let s ← get
  let renamed : Bool ← ask lib (.rename (s.path temporary) (s.path v))
  require (renamed = true) (.error (.filesystemError (s.path temporary)))
  openAt lib v (s.path v) 0 'r'
  require (((← get).zip v).isSome) (.error (.zipPathError ZipError.invalidArchive (s.path v)))

/-- The temporary archive is destroyed at the end of the block, also after an exception. -/
def replace (v : V) (files : List Path) (root : Path) (temporary : V) : M V H L Unit := do
  reserve lib
  modify fun s => s.put v (some ⟨(s.path v).concat ['.', 't', 'm', 'p'], s.zip v⟩)
  construct lib temporary ((← get).path v) 'w'
  ensure (replaceWith lib v files root temporary) (destroy lib temporary)

end Methods

section Sound

variable {lib : Library H L} {object : Objects V H} {s : State V H L} {r : Request H} {v : V}
  {h : H} {p : Phase} [DecidableEq H]

/-- What holds between two calls of the library in which no entry is open -/
structure Sound (lib : Library H L) (object : Objects V H) (s : State V H L) : Prop where
  object_eq : s.object = object
  kept : Kept zipProtocol (zipOf object) s.log
  allocated : ∀ v h, zipOf object v = some h → lib.Allocated s.library h

/-- What holds while a handle is used that is in a phase of its own -/
structure During (lib : Library H L) (object : Objects V H) (h : H) (p : Phase)
    (s : State V H L) : Prop where
  object_eq : s.object = object
  kept : ∃ log calls, Kept zipProtocol (zipOf object) log ∧
    zipProtocol.follow .idle calls = some p ∧ s.log = log ++ calls.map (h, ·)
  allocated : ∀ v h, zipOf object v = some h → lib.Allocated s.library h

theorem Sound.during (hs : Sound lib object s) (h : H) : During lib object h .idle s :=
  ⟨hs.object_eq, ⟨s.log, [], hs.kept, rfl, (List.append_nil _).symm⟩, hs.allocated⟩

theorem During.sound (hs : During lib object h .idle s) (hv : zipOf object v = some h) :
    Sound lib object s := by
  obtain ⟨log, calls, hkept, hcalls, hlog⟩ := hs.kept
  exact ⟨hs.object_eq, hlog ▸ hkept.use hv hcalls, hs.allocated⟩

theorem Sound.ask (hs : Sound lib object s) (hcalls : r.calls (lib.answer r s.library).1 = [])
    (hne : ∀ h, r ≠ .zipClose h) : Sound lib object (final (ask lib r s)) := by
  refine ⟨hs.object_eq, ?_, fun v h hv => lib.stays r _ h (hs.allocated v h hv) (hne h)⟩
  change Kept _ _ (s.log ++ r.calls _)
  rw [hcalls, List.append_nil]
  exact hs.kept

theorem keeps_ask (hcalls : ∀ reply, r.calls reply = []) (hne : ∀ h, r ≠ .zipClose h) :
    Keeps (Sound lib object) (ask lib r : M V H L r.Reply) :=
  fun _ hs => hs.ask (hcalls _) hne

theorem keeps_reserve : Keeps (Sound lib object) (reserve lib : M V H L Unit) :=
  (keeps_ask (fun _ => rfl) (by simp)).bind fun _ => keeps_require _

theorem keeps_answered (path : Path) (reply : Option Bool) :
    Keeps (Sound lib object) (answered path reply : M V H L Bool) := by
  cases reply with
  | none => exact keeps_throw _
  | some found => exact keeps_pure found

theorem During.ask (hs : During lib object h p s) (hcalls : r.calls (lib.answer r s.library).1 = [])
    (hne : ∀ h, r ≠ .zipClose h) : During lib object h p (final (ask lib r s)) := by
  obtain ⟨log, calls, hkept, hfollow, hlog⟩ := hs.kept
  refine ⟨hs.object_eq, ⟨log, calls, hkept, hfollow, ?_⟩,
    fun v h hv => lib.stays r _ h (hs.allocated v h hv) (hne h)⟩
  change s.log ++ r.calls _ = _
  rw [hcalls, List.append_nil, hlog]

/-- What does not use the handle leaves it in its phase. -/
theorem keeps_ask_apart (hcalls : ∀ reply, r.calls reply = []) (hne : ∀ h, r ≠ .zipClose h) :
    Keeps (During lib object h p) (ask lib r : M V H L r.Reply) :=
  fun _ hs => hs.ask (hcalls _) hne

theorem keeps_reserve_during : Keeps (During lib object h p) (reserve lib : M V H L Unit) :=
  (keeps_ask_apart (fun _ => rfl) (by simp)).bind fun _ => keeps_require _

theorem wp_ask_during {E : Failure → State V H L → Prop} {q : r.Reply → Phase}
    (hs : During lib object h p s) (hne : ∀ h, r ≠ .zipClose h)
    (hcalls : ∀ reply, ∃ c, r.calls reply = [(h, c)] ∧ Phase.next p c = some (q reply)) :
    wp (ask lib r) (fun reply t => During lib object h (q reply) t) E s := by
  obtain ⟨log, calls, hkept, hfollow, hlog⟩ := hs.kept
  obtain ⟨c, hc, hnext⟩ := hcalls (lib.answer r s.library).1
  refine ⟨hs.object_eq, ⟨log, calls ++ [c], hkept, ?_, ?_⟩,
    fun v h hv => lib.stays r _ h (hs.allocated v h hv) (hne h)⟩
  · rw [Protocol.follow_append, hfollow, Option.bind_some]
    simp [Protocol.follow, zipProtocol, hnext]
  · change s.log ++ r.calls _ = _
    rw [hc, hlog, List.append_assoc, List.map_append]
    rfl

theorem keeps_ask_during (hne : ∀ h, r ≠ .zipClose h)
    (hcalls : ∀ reply, ∃ c, r.calls reply = [(h, c)] ∧ Phase.next p c = some p) :
    Keeps (During lib object h p) (ask lib r : M V H L r.Reply) :=
  fun _ hs => wp_ask_during hs hne hcalls

section Entries

variable {α : Type} {zip : Option H}

theorem next_entryOpen (ec : Int) :
    Phase.next .idle (.entryOpen (ec = 0)) = some (if ec = 0 then .entry else .idle) := by
  by_cases hec : ec = 0
  · rw [decide_eq_true hec, if_pos hec]
    rfl
  · rw [decide_eq_false hec, if_neg hec]
    rfl

theorem wp_entryClose {E : Failure → State V H L → Prop} (hs : During lib object h .entry s)
    (hv : zipOf object v = some h) :
    wp (ask lib (.entryClose h)) (fun _ t => Sound lib object t) E s :=
  (wp_ask_during (q := fun _ => .idle) hs (by simp) fun _ => ⟨_, rfl, rfl⟩).mono
    (fun _ _ ht => ht.sound hv) fun _ _ ht => ht

theorem keeps_withEntry {body : H → M V H L α} (hzip : zipOf object v = zip)
    (hbody : ∀ h, Keeps (During lib object h .entry) (body h)) (fileName : List Char) :
    Keeps (Sound lib object) (withEntry lib zip fileName body) := by
  cases zip with
  | none => exact keeps_throw _
  | some h =>
    intro s hs
    rw [withEntry, wp_bind]
    refine (wp_ask_during (hs.during h) (by simp) fun ec => ⟨_, rfl, next_entryOpen ec⟩).mono
      (fun ec t ht => ?_) fun _ _ ht => ht
    rw [wp_bind, wp_require]
    refine ⟨fun hec => ?_, fun hec => ?_⟩
    · rw [if_pos hec] at ht
      rw [wp_ensure]
      exact (hbody h t ht).mono (fun _ _ hu => wp_entryClose hu hzip)
        fun _ _ hu => wp_entryClose hu hzip
    · rw [if_neg hec] at ht
      exact ht.sound hzip

theorem wp_emplaceBack (hs : During lib object h p s) (result : List (List Char))
    (name : Option (List Char)) :
    wp (emplaceBack lib result name) (fun _ t => During lib object h p t)
      (fun e t => e = .badAlloc ∧ ¬Roomy lib ∧ During lib object h p t) s := by
  cases name with
  | none => exact hs
  | some name =>
    have happend : During lib object h p (final (ask lib (.append name) s)) := hs.ask rfl (by simp)
    rw [emplaceBack, wp_bind]
    change wp (require _ _ >>= fun _ => _) _ _ (final (ask lib (.append name) s))
    rw [wp_bind, wp_require]
    refine ⟨fun _ => happend, fun hfull => ⟨rfl, fun hroomy => hfull (hroomy _ _), happend⟩⟩

/-- A name that cannot be appended leaves the entry open, and nothing else does. -/
theorem wp_listFrom (hs : Sound lib object s) (hv : zipOf object v = some h) (n i : Nat)
    (result : List (List Char)) :
    wp (listFrom lib h n i result : M V H L _) (fun _ t => Sound lib object t)
      (fun e t => e ≠ .badAlloc ∧ Sound lib object t ∨
        e = .badAlloc ∧ ¬Roomy lib ∧ During lib object h .entry t) s := by
  induction n generalizing i result s with
  | zero => exact hs
  | succ n ih =>
    rw [listFrom, wp_bind]
    refine (wp_ask_during (hs.during h) (by simp) fun ec => ⟨_, rfl, next_entryOpen ec⟩).mono
      (fun ec t ht => ?_) fun _ _ ht => ht
    rw [wp_bind, wp_require]
    refine ⟨fun hec => ?_, fun hec => ?_⟩
    · rw [if_pos hec] at ht
      rw [wp_bind]
      refine (wp_ask_during (q := fun _ => .entry) ht (by simp) fun _ => ⟨_, rfl, rfl⟩).mono
        (fun name u hu => ?_) fun _ _ hu => hu
      rw [wp_bind]
      refine (wp_emplaceBack hu result name).mono (fun result w hw => ?_) fun _ _ hw => .inr hw
      rw [wp_bind]
      exact (wp_entryClose hw hv).mono (fun _ w hw => ih hw (i + 1) _) fun _ _ hw => hw
    · rw [if_neg hec] at ht
      exact .inl ⟨by simp, ht.sound hv⟩

theorem keeps_listFrom (hroomy : Roomy lib) (hv : zipOf object v = some h) (n i : Nat)
    (result : List (List Char)) :
    Keeps (Sound lib object) (listFrom lib h n i result : M V H L _) := by
  intro s hs
  refine (wp_listFrom hs hv n i result).mono (fun _ _ ht => ht) fun _ _ ht => ?_
  rcases ht with ⟨-, ht⟩ | ⟨-, hfull, -⟩
  · exact ht
  · exact absurd hroomy hfull

theorem Sound.zip_eq (hs : Sound lib object s) (v : V) : s.zip v = zipOf object v := by
  rw [State.zip, hs.object_eq]

theorem keeps_size : Keeps (Sound lib object) (size lib v : M V H L Int) := by
  refine keeps_get_bind fun s hs => ?_
  rw [hs.zip_eq]
  cases hv : zipOf object v with
  | none => exact hs
  | some h =>
    exact (wp_ask_during (q := fun _ => .idle) (hs.during h) (by simp) fun _ => ⟨_, rfl, rfl⟩).mono
      (fun _ _ ht => ht.sound hv) fun _ _ ht => ht

theorem keeps_listFiles (hroomy : Roomy lib) :
    Keeps (Sound lib object) (listFiles lib v : M V H L _) := by
  refine keeps_get_bind fun s hs => ?_
  rw [hs.zip_eq]
  cases hv : zipOf object v with
  | none => exact hs
  | some h => exact (keeps_size.bind fun n => keeps_listFrom hroomy hv _ 0 []) s hs

theorem keeps_use {β : Type} {r : Request H} {f : r.Reply → M V H L β}
    (hne : ∀ h, r ≠ .zipClose h) (hcalls : ∀ reply, r.calls reply = [(h, .entryUse)])
    (hf : ∀ reply, Keeps (During lib object h .entry) (f reply)) :
    Keeps (During lib object h .entry) (ask lib r >>= f) :=
  (keeps_ask_during hne fun reply => ⟨_, hcalls reply, rfl⟩).bind hf

theorem keeps_uncompress (fileName : List Char) :
    Keeps (Sound lib object) (uncompress lib v fileName : M V H L _) := by
  refine keeps_get_bind fun s hs => ?_
  rw [hs.zip_eq]
  cases hv : zipOf object v with
  | none => exact hs
  | some h =>
    refine keeps_withEntry hv (fun h => ?_) fileName s hs
    refine keeps_use (by simp) (fun _ => rfl) fun reply => (keeps_require _).bind fun _ => ?_
    exact keeps_reserve_during.bind fun _ => keeps_pure _

theorem keeps_uncompressTo (targetDir : Path) (fileName : List Char) :
    Keeps (Sound lib object) (uncompressTo lib v targetDir fileName : M V H L _) := by
  refine (keeps_ask (fun _ => rfl) (by simp)).bind fun _ => (keeps_answered _ _).bind fun _ => ?_
  refine (keeps_require _).bind fun _ => keeps_reserve.bind fun _ => ?_
  refine (keeps_ask (fun _ => rfl) (by simp)).bind fun _ => (keeps_require _).bind fun _ => ?_
  refine keeps_get_bind fun s hs => keeps_withEntry (hs.zip_eq v).symm (fun h => ?_) fileName s hs
  refine keeps_reserve_during.bind fun _ => ?_
  exact keeps_use (by simp) (fun _ => rfl) fun _ => keeps_require _

theorem keeps_uncompressAll (hroomy : Roomy lib) (targetDir : Path) :
    Keeps (Sound lib object) (uncompressAll lib v targetDir : M V H L _) :=
  (keeps_listFiles hroomy).bind fun names => Keeps.forM (keeps_uncompressTo targetDir) names

theorem keeps_write (files : List Path) (root : Path) :
    Keeps (Sound lib object) (write lib v files root : M V H L _) := by
  refine Keeps.forM (fun item => ?_) files
  refine (keeps_ask (fun _ => rfl) (by simp)).bind fun rel => ?_
  cases rel with
  | none => exact keeps_throw _
  | some rel =>
    refine (keeps_require _).bind fun _ => keeps_reserve.bind fun _ => ?_
    refine keeps_get_bind fun s hs => keeps_withEntry (hs.zip_eq v).symm (fun h => ?_) _ s hs
    refine keeps_reserve_during.bind fun _ => ?_
    exact keeps_use (by simp) (fun _ => rfl) fun _ => keeps_require _

end Entries

section Objects

theorem Sound.congr {object' : Objects V H} {t : State V H L} (hs : Sound lib object s)
    (hzip : ∀ v, zipOf object' v = zipOf object v) (hobject : t.object = object')
    (hlibrary : t.library = s.library) (hlog : t.log = s.log) : Sound lib object' t := by
  refine ⟨hobject, hlog ▸ hs.kept.congr hzip, fun v h hv => ?_⟩
  rw [hlibrary]
  exact hs.allocated v h ((hzip v).symm.trans hv)

variable [DecidableEq V] {other temporary : V} {path : Path} {o : Option (Object H)}
  {E : Failure → State V H L → Prop}

omit [DecidableEq H] in
theorem zipOf_update_self (object : Objects V H) (v : V) (o : Option (Object H)) :
    zipOf (Function.update object v o) v = o.bind Object.zip := by
  rw [zipOf, Function.update_self]

omit [DecidableEq H] in
theorem zipOf_update_of_ne (object : Objects V H) {v w : V} (hne : w ≠ v)
    (o : Option (Object H)) : zipOf (Function.update object v o) w = zipOf object w := by
  rw [zipOf, Function.update_of_ne hne, zipOf]

/-- An object changes, the handle that it has does not. -/
theorem Sound.put (hs : Sound lib object s) (ho : o.bind Object.zip = zipOf object v) :
    Sound lib (Function.update object v o) (s.put v o) := by
  refine hs.congr (fun w => ?_) (by rw [State.put, hs.object_eq]) rfl rfl
  by_cases hw : w = v
  · rw [hw, zipOf_update_self, ho]
  · rw [zipOf_update_of_ne object hw]

theorem wp_openAt (hs : Sound lib object s) (hv : zipOf object v = none) (level : Nat)
    (mode : Char) :
    wp (openAt lib v path level mode)
      (fun _ t => ∃ zip, Sound lib (Function.update object v (some ⟨path, zip⟩)) t)
      (fun _ t => Sound lib object t) s := by
  rw [openAt, wp_bind]
  refine (keeps_reserve s hs).mono (fun _ s hs => ?_) fun _ _ ht => ht
  change ∃ zip, Sound lib _ ((final (ask lib (.zipOpen path level mode) s)).put v
    (some ⟨path, (lib.answer (.zipOpen path level mode) s.library).1⟩))
  cases hzip : (lib.answer (.zipOpen path level mode) s.library).1 with
  | none =>
    have hcalls : (Request.zipOpen path level mode).calls
        (lib.answer (.zipOpen path level mode) s.library).1 = [] := by
      rw [hzip]
      rfl
    exact ⟨none, (hs.ask hcalls (by simp)).put hv.symm⟩
  | some h =>
    obtain ⟨hnew, hallocated⟩ := lib.fresh path level mode s.library h hzip
    refine ⟨some h, ?_, ?_, fun w h' hw => ?_⟩
    · change Function.update s.object v _ = _
      rw [hs.object_eq]
    · change Kept _ _ (s.log ++ Request.calls _ (lib.answer _ _).1)
      rw [hzip]
      have hopen : zipProtocol.follow .closed [.zipOpen] = some .idle := rfl
      exact hs.kept.acquire hv (fun ⟨w, hw⟩ => hnew (hs.allocated w h hw))
        (zipOf_update_self object v _) (fun w hw => zipOf_update_of_ne object hw _) hopen
    · by_cases hwv : w = v
      · rw [hwv, zipOf_update_self] at hw
        obtain rfl : h = h' := Option.some.inj hw
        exact hallocated
      · rw [zipOf_update_of_ne object hwv] at hw
        exact lib.stays _ _ _ (hs.allocated w h' hw) (by simp)

theorem wp_close (hs : Sound lib object s) :
    wp (close lib v) (fun _ t => ∃ o, o.bind Object.zip = none ∧
      Sound lib (Function.update object v o) t) E s := by
  rw [close, wp_bind, wp_get, hs.zip_eq]
  cases hv : zipOf object v with
  | none =>
    refine ⟨object v, hv, ?_⟩
    rw [Function.update_eq_self]
    exact hs
  | some h =>
    refine ⟨some ⟨s.path v, none⟩, rfl, ?_, ?_, fun w h' hw => ?_⟩
    · rw [← hs.object_eq]
      rfl
    · have hclose : zipProtocol.follow .idle [.zipClose] = some .closed := rfl
      exact hs.kept.release hv (zipOf_update_self object v _)
        (fun w hw => zipOf_update_of_ne object hw _) hclose
    · have hwv : w ≠ v := by
        rintro rfl
        rw [zipOf_update_self] at hw
        cases hw
      rw [zipOf_update_of_ne object hwv] at hw
      refine lib.stays _ _ _ (hs.allocated w h' hw) fun heq => hwv ?_
      cases heq
      exact hs.kept.exclusive w v h hw hv

theorem wp_destroy (hs : Sound lib object s) :
    wp (destroy lib v) (fun _ t => Sound lib (Function.update object v none) t) E s := by
  rw [destroy, wp_bind]
  refine (wp_close hs).mono (fun _ t ⟨o, ho, ht⟩ => ?_) fun _ _ ht => ht
  rw [wp_modify]
  have hput := ht.put (v := v) (o := none) (by rw [zipOf_update_self, ho]; rfl)
  rwa [Function.update_idem] at hput

omit [DecidableEq H] [DecidableEq V] in
/-- An object that is not there holds nothing. -/
theorem zipOf_of_none (hv : object v = none) : zipOf object v = none := by
  rw [zipOf, hv]
  rfl

theorem wp_openWith (hs : Sound lib object s) (hv : zipOf object v = none) (access : Char) :
    wp (openWith lib v path access)
      (fun _ t => ∃ zip, Sound lib (Function.update object v (some ⟨path, zip⟩)) t)
      (fun _ t => Sound lib object t) s := by
  unfold openWith
  split
  · exact wp_openAt hs hv 0 'r'
  · exact wp_openAt hs hv 6 'w'
  · exact wp_openAt hs hv 6 'a'
  · exact hs

theorem wp_construct (hs : Sound lib object s) (hv : object v = none) (access : Char) :
    wp (construct lib v path access)
      (fun _ t => ∃ zip, Sound lib (Function.update object v (some ⟨path, zip⟩)) t)
      (fun _ t => Sound lib object t) s := by
  have hfound : Keeps (Sound lib object) (checkFound lib path access : M V H L Unit) := by
    unfold checkFound
    split
    · exact (keeps_ask (fun _ => rfl) (by simp)).bind fun _ =>
        (keeps_answered _ _).bind fun _ => keeps_require _
    · exact keeps_pure ()
  rw [construct, wp_bind]
  refine (keeps_reserve s hs).mono (fun _ s hs => ?_) fun _ _ ht => ht
  rw [wp_bind]
  refine (hfound s hs).mono (fun _ t ht => ?_) fun _ _ ht => ht
  rw [wp_bind]
  refine (wp_openWith ht (zipOf_of_none hv) access).mono (fun _ u ⟨zip, hu⟩ => ?_) fun _ _ hu => hu
  rw [wp_bind, wp_get, hu.zip_eq, zipOf_update_self, wp_ite]
  refine ⟨fun hnone => ?_, fun _ => ⟨zip, hu⟩⟩
  have hput := hu.put (v := v) (o := none)
    (by rw [zipOf_update_self]; exact (Option.isNone_iff_eq_none.1 hnone).symm)
  have hobject : Function.update object v none = object := by rw [← hv, Function.update_eq_self]
  rw [Function.update_idem, hobject] at hput
  exact hput

theorem wp_moveConstruct (hs : Sound lib object s) (hv : object v = none) :
    wp (moveConstruct v other)
      (fun _ t => Sound lib (Function.update (Function.update object v (object other)) other
        (some ⟨⟨false, []⟩, none⟩)) t) E s := by
  have hswap : Sound lib (fun u => object (Equiv.swap v other u))
      { s with object := fun u => object (Equiv.swap v other u) } :=
    ⟨rfl, hs.kept.rename (Equiv.swap v other), fun _ h hw => hs.allocated _ h hw⟩
  refine hswap.congr (move_eq_swap (zipOf_of_none hv) ?_ (zipOf_update_self _ _ _)
    fun u huv hother => ?_) (by rw [← hs.object_eq]; rfl) rfl rfl
  · by_cases hother : v = other
    · rw [← hother, zipOf_update_self, zipOf_of_none hv]
      rfl
    · rw [zipOf_update_of_ne _ hother, zipOf_update_self]
      rfl
  · rw [zipOf_update_of_ne _ hother, zipOf_update_of_ne object huv]

theorem wp_swap (hs : Sound lib object s) :
    wp (swap v other) (fun _ t => Sound lib (fun u => object (Equiv.swap v other u)) t) E s :=
  ⟨by rw [← hs.object_eq], hs.kept.rename (Equiv.swap v other), fun _ h hw => hs.allocated _ h hw⟩

/-- What holds after a call, whatever has happened to the objects -/
def Good (lib : Library H L) (s : State V H L) : Prop := ∃ object, Sound lib object s

theorem good_destroy (hs : Good lib s) :
    wp (destroy lib v) (fun _ t => Good lib t) E s := by
  obtain ⟨object, hs⟩ := hs
  exact (wp_destroy hs).mono (fun _ t ht => ⟨_, ht⟩) fun _ _ ht => ht

theorem good_moveAssign (hs : Sound lib object s) (htemporary : object temporary = none) :
    wp (moveAssign lib v other temporary) (fun _ t => Good lib t) (fun _ t => Good lib t) s := by
  rw [moveAssign, wp_ite]
  refine ⟨fun _ => ?_, fun _ => ⟨object, hs⟩⟩
  rw [wp_bind]
  refine (wp_moveConstruct hs htemporary).mono (fun _ t ht => ?_) fun _ _ ht => ht
  rw [wp_bind]
  exact (wp_swap ht).mono (fun _ u hu => good_destroy ⟨_, hu⟩) fun _ _ hu => hu

theorem good_replaceWith (hs : Sound lib object s) (files : List Path) (root : Path) :
    wp (replaceWith lib v files root temporary) (fun _ t => Good lib t)
      (fun _ t => Good lib t) s := by
  rw [replaceWith, wp_bind]
  refine (keeps_write files root s hs).mono (fun _ t ht => ?_) fun _ _ ht => ⟨_, ht⟩
  rw [wp_bind]
  refine (wp_close ht).mono (fun _ t ⟨o, _, ht⟩ => ?_) fun _ _ ht => ht
  rw [wp_bind]
  refine (wp_close ht).mono (fun _ t ⟨o', ho', ht⟩ => ?_) fun _ _ ht => ht
  rw [wp_bind, wp_get, wp_bind]
  refine (keeps_ask (fun _ => rfl) (by simp) t ht).mono (fun _ u hu => ?_) fun _ _ hu => ⟨_, hu⟩
  rw [wp_bind, wp_require]
  refine ⟨fun _ => ?_, fun _ => ⟨_, hu⟩⟩
  rw [wp_bind]
  refine (wp_openAt hu (by rw [zipOf_update_self, ho']) 0 'r').mono (fun _ w ⟨zip, hw⟩ => ?_)
    fun _ _ hw => ⟨_, hw⟩
  rw [wp_bind, wp_get, wp_require]
  exact ⟨fun _ => ⟨_, hw⟩, fun _ => ⟨_, hw⟩⟩

theorem good_replace (hs : Sound lib object s) (htemporary : object temporary = none)
    (hne : temporary ≠ v) (files : List Path) (root : Path) :
    wp (replace lib v files root temporary) (fun _ t => Good lib t) (fun _ t => Good lib t) s := by
  rw [replace, wp_bind]
  refine (keeps_reserve s hs).mono (fun _ s hs => ?_) fun _ _ ht => ⟨_, ht⟩
  rw [wp_bind, wp_modify, wp_bind, wp_get, wp_bind]
  have hput := hs.put (v := v) (o := some ⟨(s.path v).concat ['.', 't', 'm', 'p'], s.zip v⟩)
    (hs.zip_eq v)
  have hfree (o : Option (Object H)) : Function.update object v o temporary = none :=
    (Function.update_of_ne hne o object).trans htemporary
  refine (wp_construct hput (hfree _) 'w').mono (fun _ t ⟨zip, ht⟩ => ?_) fun _ _ ht => ⟨_, ht⟩
  rw [wp_ensure]
  exact (good_replaceWith ht files root).mono (fun _ _ hu => good_destroy hu)
    fun _ _ hu => good_destroy hu

end Objects

end Sound

section Runs

/-- The place of a temporary object is an argument of what makes one. -/
inductive Operation (V : Type)
  | construct (v : V) (path : Path) (access : Char)
  | moveConstruct (v other : V)
  | moveAssign (v other temporary : V)
  | destroy (v : V)
  | close (v : V)
  | swap (v other : V)
  | size (v : V)
  | listFiles (v : V)
  | uncompress (v : V) (fileName : List Char)
  | uncompressTo (v : V) (targetDir : Path) (fileName : List Char)
  | uncompressAll (v : V) (targetDir : Path)
  | write (v : V) (files : List Path) (root : Path)
  | replace (v : V) (files : List Path) (root : Path) (temporary : V)

namespace Operation

/-- An object is constructed where none is, and the others are used while they are there. -/
def Allowed (object : Objects V H) : Operation V → Prop
  | construct v _ _ => object v = none
  | moveConstruct v other => object v = none ∧ (object other).isSome
  | moveAssign v other temporary =>
    (object v).isSome ∧ (object other).isSome ∧ object temporary = none
  | destroy v => (object v).isSome
  | close v => (object v).isSome
  | swap v other => (object v).isSome ∧ (object other).isSome
  | size v => (object v).isSome
  | listFiles v => (object v).isSome
  | uncompress v _ => (object v).isSome
  | uncompressTo v _ _ => (object v).isSome
  | uncompressAll v _ => (object v).isSome
  | write v _ _ => (object v).isSome
  | replace v _ _ temporary => (object v).isSome ∧ object temporary = none

variable [DecidableEq V] (lib : Library H L)

/-- The state after an operation, which may have thrown an exception -/
def run (s : State V H L) : Operation V → State V H L
  | construct v path access => final (Handles.construct lib v path access s)
  | moveConstruct v other => final (Handles.moveConstruct v other s)
  | moveAssign v other temporary => final (Handles.moveAssign lib v other temporary s)
  | destroy v => final (Handles.destroy lib v s)
  | close v => final (Handles.close lib v s)
  | swap v other => final (Handles.swap v other s)
  | size v => final (Handles.size lib v s)
  | listFiles v => final (Handles.listFiles lib v s)
  | uncompress v fileName => final (Handles.uncompress lib v fileName s)
  | uncompressTo v targetDir fileName => final (Handles.uncompressTo lib v targetDir fileName s)
  | uncompressAll v targetDir => final (Handles.uncompressAll lib v targetDir s)
  | write v files root => final (Handles.write lib v files root s)
  | replace v files root temporary => final (Handles.replace lib v files root temporary s)

end Operation

variable [DecidableEq V] [DecidableEq H] {lib : Library H L} {object : Objects V H}
  {s t : State V H L} {op : Operation V}

def Step (lib : Library H L) (s : State V H L) (op : Operation V) (t : State V H L) : Prop :=
  op.Allowed s.object ∧ op.run lib s = t

theorem Sound.run (hroomy : Roomy lib) (hs : Sound lib object s) (hallowed : op.Allowed object) :
    Good lib (op.run lib s) := by
  have hkeeps {α : Type} {x : M V H L α} (hx : Keeps (Sound lib object) x) :
      Good lib (final (x s)) := ⟨object, hx.final hs⟩
  cases op with
  | construct v path access =>
    exact ((wp_construct hs hallowed access).mono (fun _ _ ⟨_, ht⟩ => ⟨_, ht⟩)
      fun _ _ ht => ⟨_, ht⟩).final
  | moveConstruct v other =>
    exact ((wp_moveConstruct hs hallowed.1).mono (fun _ _ ht => ⟨_, ht⟩) fun _ _ ht => ht).final
  | moveAssign v other temporary => exact (good_moveAssign hs hallowed.2.2).final
  | destroy v => exact (good_destroy ⟨object, hs⟩).final
  | close v =>
    exact ((wp_close hs).mono (fun _ _ ⟨_, _, ht⟩ => ⟨_, ht⟩) fun _ _ ht => ht).final
  | swap v other => exact ((wp_swap hs).mono (fun _ _ ht => ⟨_, ht⟩) fun _ _ ht => ht).final
  | size v => exact hkeeps keeps_size
  | listFiles v => exact hkeeps (keeps_listFiles hroomy)
  | uncompress v fileName => exact hkeeps (keeps_uncompress fileName)
  | uncompressTo v targetDir fileName => exact hkeeps (keeps_uncompressTo targetDir fileName)
  | uncompressAll v targetDir => exact hkeeps (keeps_uncompressAll hroomy targetDir)
  | write v files root => exact hkeeps (keeps_write files root)
  | replace v files root temporary =>
    refine (good_replace hs hallowed.2 ?_ files root).final
    rintro rfl
    rw [Operation.Allowed, hallowed.2] at hallowed
    exact absurd hallowed.1 (by simp)

omit [DecidableEq V] in
theorem sound_start (lib : Library H L) (l : L) :
    Sound lib (fun _ : V => none) (State.start l) :=
  ⟨rfl, Kept.start, fun _ _ h => by cases h⟩

theorem good_runs (hroomy : Roomy lib) {ops : List (Operation V)}
    (h : Transitions.Runs (Step lib) s ops t) (hs : Good lib s) : Good lib t := by
  induction h with
  | refl => exact hs
  | head hstep _ ih =>
    obtain ⟨object, hs⟩ := hs
    obtain ⟨hallowed, rfl⟩ := hstep
    exact ih (hs.run hroomy (hs.object_eq ▸ hallowed))

theorem count_next {p q : Phase} {c : Call} (h : Phase.next p c = some q) :
    (if c == .zipOpen then 1 else 0) + (if p = .closed then 0 else 1) =
      (if c == .zipClose then 1 else 0) + (if q = .closed then 0 else 1) := by
  cases p <;> rcases c with _ | _ | _ | (_ | _) | _ | _ <;> cases h <;> rfl

/-- An archive that is open has been opened once more than it has been closed. -/
theorem count_zipOpen {p q : Phase} {calls : List Call}
    (h : zipProtocol.follow p calls = some q) :
    calls.count .zipOpen + (if p = .closed then 0 else 1) =
      calls.count .zipClose + (if q = .closed then 0 else 1) := by
  induction calls generalizing p with
  | nil =>
    cases h
    rfl
  | cons c calls ih =>
    rw [Protocol.follow, List.foldlM_cons] at h
    obtain ⟨r, hr, h⟩ := Option.bind_eq_some_iff.1 h
    have hstep := count_next hr
    have hrest := ih h
    rw [List.count_cons, List.count_cons]
    omega

/-- Whatever is done with any number of archives, in any order and with any exceptions, that of a
name that `listFiles` cannot append apart: the calls of the library for each handle are in the order
that the library expects, each open handle is held by exactly one object, and it has been opened
once more than it has been closed. Those that no object holds, and all of them when the last object
is gone, have been closed as often as opened. -/
theorem handles_follow_protocol (hroomy : Roomy lib) {l : L} {ops : List (Operation V)}
    (h : Transitions.Runs (Step lib) (State.start l) ops s) :
    (∀ v w h, s.zip v = some h → s.zip w = some h → v = w) ∧
      ∀ h,
        ((∃ v, s.zip v = some h) → zipProtocol.phase h s.log = some .idle ∧
          (callsOf h s.log).count .zipOpen = (callsOf h s.log).count .zipClose + 1) ∧
        ((∀ v, s.zip v ≠ some h) → zipProtocol.phase h s.log = some .closed ∧
          (callsOf h s.log).count .zipOpen = (callsOf h s.log).count .zipClose) := by
  obtain ⟨object, hs⟩ := good_runs hroomy h ⟨_, sound_start lib l⟩
  refine ⟨fun v w h hv hw => ?_, fun h => ⟨?_, fun hnot => ?_⟩⟩
  · rw [hs.zip_eq] at hv hw
    exact hs.kept.exclusive v w h hv hw
  · rintro ⟨v, hv⟩
    rw [hs.zip_eq] at hv
    have hphase := hs.kept.ready v h hv
    exact ⟨hphase, count_zipOpen hphase⟩
  · have hphase := hs.kept.absent h fun ⟨v, hv⟩ => hnot v (by rw [hs.zip_eq, hv])
    exact ⟨hphase, count_zipOpen hphase⟩

/-- A library that numbers the handles and that succeeds all the time -/
def numbered : Library ℕ ℕ where
  answer
    | .allocate, n => (true, n)
    | .append _, n => (true, n)
    | .pathExists _, n => (some true, n)
    | .isDirectory _, n => (some true, n)
    | .createDirectories _, n => (true, n)
    | .relative item _, n => (some item.parts, n)
    | .rename _ _, n => (true, n)
    | .zipOpen _ _ _, n => (some n, n + 1)
    | .zipClose _, n => ((), n)
    | .entriesTotal _, n => (1, n)
    | .entryOpen _ _, n => (0, n)
    | .entryOpenByIndex _ _, n => (0, n)
    | .entryName _, n => (some ['b'], n)
    | .entryRead _, n => ((0, []), n)
    | .entryFread _ _, n => (0, n)
    | .entryFwrite _ _, n => (0, n)
    | .entryClose _, n => ((), n)
  Allocated n h := h < n
  fresh := by
    rintro path level mode n h heq
    obtain rfl : n = h := Option.some.inj heq
    exact ⟨Nat.lt_irrefl n, Nat.lt_succ_self n⟩
  stays := by
    intro r n h hlt _
    cases r with
    | zipOpen path level mode => exact Nat.lt_succ_of_lt hlt
    | _ => exact hlt

/-- The object that an archive has been moved from does not close it. -/
theorem handles_follow_protocol_moved :
    ∃ s : State ℕ ℕ ℕ,
      Transitions.Runs (Step numbered) (State.start 0)
        [.construct 0 ⟨true, [['a']]⟩ 'w', .moveConstruct 1 0, .write 1 [⟨true, [['b']]⟩] ⟨true, []⟩,
          .destroy 0, .listFiles 1] s ∧
        zipProtocol.phase 0 s.log = some .idle ∧
          (callsOf 0 s.log).count .zipOpen = (callsOf 0 s.log).count .zipClose + 1 := by
  have hruns : Transitions.Runs (Step numbered) (State.start 0)
      [.construct 0 ⟨true, [['a']]⟩ 'w', .moveConstruct 1 0, .write 1 [⟨true, [['b']]⟩] ⟨true, []⟩,
        .destroy 0, .listFiles 1] _ :=
    .head ⟨rfl, rfl⟩ (.head ⟨⟨rfl, rfl⟩, rfl⟩
      (.head ⟨rfl, rfl⟩ (.head ⟨rfl, rfl⟩ (.head ⟨rfl, rfl⟩ .refl))))
  exact ⟨_, hruns, ((handles_follow_protocol (fun _ _ => rfl) hruns).2 0).1 ⟨1, rfl⟩⟩

end Runs

end Utlib.ZipArchive.Handles
