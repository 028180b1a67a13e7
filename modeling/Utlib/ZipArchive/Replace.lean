import Utlib.ZipArchive.Basic

/-! `ZipArchive::replace` (storage/ZipArchive.cpp). -/

namespace Utlib.ZipArchive

open Program

inductive Mode
  | read
  | write

structure Member where
  name : List Char
  data : List UInt8

inductive Content
  | plain (bytes : List UInt8)
  | archive (members : List Member)

/-- What the code relies on: the bytes of a finished archive, `fs::relative`, and the files that
the operating system lets the process open. -/
structure Library where
  raw : List Member → List UInt8
  relative : Path → Path → List (List Char)
  opens : Path → Mode → Bool

/-- `zip_t` -/
structure Handle where
  path : Path
  mode : Mode
  members : List Member

/-- The members of the class. -/
structure Object where
  path : Path
  zip : Option Handle

structure State where
  filesystem : Filesystem Content
  object : Object

section Library

variable (L : Library)

def contentBytes : Node Content → List UInt8
  | .dir => []
  | .file (.plain bytes) => bytes
  | .file (.archive members) => L.raw members

/-- `zip_open` -/
def zipOpen (path : Path) (mode : Mode) (fs : Filesystem Content) :
    Option (Handle × Filesystem Content) :=
  if L.opens path mode then
    match mode with
    | .write => do
      let fs ← fs.writeFile path (.plain [])
      some (⟨path, .write, []⟩, fs)
    | .read =>
      match fs.status path with
      | some (.file (.archive members)) => some (⟨path, .read, members⟩, fs)
      | _ => none
  else none

/-- `zip_close` -/
def zipClose (handle : Handle) (fs : Filesystem Content) : Filesystem Content :=
  match handle.mode with
  | .read => fs
  | .write => (fs.writeFile handle.path (.archive handle.members)).getD fs

def entryName (rel : List (List Char)) : List Char :=
  (List.intercalate ['/'] rel).map fun c => if c = '\\' then '/' else c

/-- `fs::rename` of a file -/
def rename (old new : Path) (fs : Filesystem Content) : Option (Filesystem Content) :=
  match fs.status old with
  | some (.file content) =>
    if fs.resolve old = fs.resolve new then some fs
    else do
      let fs ← fs.writeFile new content
      let disk ← (fs.resolve old).bind fs.disk.removeLeaf
      some { fs with disk }
  | _ => none

end Library

section Adding

variable (L : Library) (fs : Filesystem Content) (root : Path)

/-- One round of `write`. The entry is closed when the round is left, by an exception too. -/
def addFile (members : List Member) (item : Path) : List Member × Option Error :=
  let rel := L.relative item root
  if rel = [] ∨ rel.head? = some Path.dotdot then
    (members, some (.ioError IOError.fileNotFound item))
  else if entryName rel = [] then
    (members, some (.zipError ZipError.kubaZipError ZipError.einventname))
  else
    match fs.status item with
    | none => (members ++ [⟨entryName rel, []⟩],
        some (.zipError ZipError.kubaZipError ZipError.enoent))
    | some node =>
      if L.opens item .read then (members ++ [⟨entryName rel, contentBytes L node⟩], none)
      else (members ++ [⟨entryName rel, []⟩],
        some (.zipError ZipError.kubaZipError ZipError.eopnfile))

def addFiles (members : List Member) : List Path → List Member × Option Error
  | [] => (members, none)
  | item :: files =>
    match addFile L fs root members item with
    | (members, none) => addFiles members files
    | (members, some e) => (members, some e)

end Adding

def tmp : List Char := ['.', 't', 'm', 'p']

/-- `ZipArchive::close` -/
def Object.close (object : Object) (fs : Filesystem Content) : Filesystem Content :=
  match object.zip with
  | none => fs
  | some handle => zipClose handle fs

/-- The end of `replace`, with both archives closed. -/
def renameAndReopen (L : Library) (old new : Path) (fs : Filesystem Content) :
    EStateM.Result Error State Unit :=
  match rename old new fs with
  | none => .error (.filesystemError old) ⟨fs, ⟨new, none⟩⟩
  | some fs =>
    match zipOpen L new .read fs with
    | none => .error (.zipPathError ZipError.invalidArchive new) ⟨fs, ⟨new, none⟩⟩
    | some (handle, fs) => .ok () ⟨fs, ⟨new, some handle⟩⟩

def replace (L : Library) (files : List Path) (root : Path) : EStateM Error State Unit := fun s =>
  -- `concat` changes the member, which both objects then have as their path
  let path := s.object.path.concat tmp
  match zipOpen L path .write s.filesystem with
  | none => .error (.zipPathError ZipError.invalidArchive path) ⟨s.filesystem, ⟨path, s.object.zip⟩⟩
  | some (handle, fs) =>
    match addFiles L fs root [] files with
    | (members, some e) =>
      -- the destructor closes the temporary archive
      .error e ⟨zipClose { handle with members } fs, ⟨path, s.object.zip⟩⟩
    | (members, none) =>
      renameAndReopen L path path (s.object.close (zipClose { handle with members } fs))

section Promise

variable {L : Library} {files : List Path} {root : Path} {s : State}

/-- The members of an archive that holds exactly the given files. -/
def membersOf (L : Library) (fs : Filesystem Content) (files : List Path) (root : Path) :
    List Member :=
  files.map fun item =>
    ⟨entryName (L.relative item root), (fs.status item).elim [] (contentBytes L)⟩

/-- The new archive was created, but one of the files cannot be added to it. -/
def AddingFails (L : Library) (files : List Path) (root : Path) (s : State) : Prop :=
  ∃ handle fs, zipOpen L (s.object.path.concat tmp) .write s.filesystem = some (handle, fs) ∧
    (addFiles L fs root [] files).2 ≠ none

/-- What a swap in place has to do. -/
structure Replaces (L : Library) (files : List Path) (root : Path) (s : State) : Prop where
  returns : ∀ u, replace L files root s = .ok () u →
    u.filesystem.status s.object.path =
        some (.file (.archive (membersOf L s.filesystem files root))) ∧
      u.object = ⟨s.object.path,
        some ⟨s.object.path, .read, membersOf L s.filesystem files root⟩⟩ ∧
      u.filesystem.status (s.object.path.concat tmp) = none
  fails : ∀ e u, AddingFails L files root s → replace L files root s = .error e u →
    u.filesystem.status s.object.path = s.filesystem.status s.object.path ∧ u.object = s.object

/-- The file can be added to an archive that is written at `path`. -/
def Addable (L : Library) (fs : Filesystem Content) (root path item : Path) : Prop :=
  L.relative item root ≠ [] ∧ (L.relative item root).head? ≠ some Path.dotdot ∧
    entryName (L.relative item root) ≠ [] ∧
      ((fs.status item).isSome ∨ fs.resolve item = fs.resolve path) ∧ L.opens item .read = true

theorem zipOpen_write {path : Path} {fs : Filesystem Content}
    {opened : Handle × Filesystem Content}
    (h : zipOpen L path .write fs = some opened) :
    opened.1 = ⟨path, .write, []⟩ ∧ fs.writeFile path (.plain []) = some opened.2 := by
  rw [zipOpen] at h
  split at h
  · cases hwrite : fs.writeFile path (.plain []) with
    | none => simp [hwrite] at h
    | some gs =>
      simp only [hwrite, Option.bind_eq_bind, Option.bind_some, Option.some.injEq] at h
      subst h
      exact ⟨rfl, rfl⟩
  · cases h

theorem addFile_eq_none_iff {path : Path} {fs gs : Filesystem Content} (L : Library)
    (root item : Path) (members : List Member) (hwrite : fs.writeFile path (.plain []) = some gs) :
    (addFile L gs root members item).2 = none ↔ Addable L fs root path item := by
  have hstatus := Filesystem.status_writeFile hwrite item
  rw [addFile, Addable]
  by_cases hrel : L.relative item root = [] ∨ (L.relative item root).head? = some Path.dotdot
  · simp only [if_pos hrel, reduceCtorEq, false_iff]
    rintro ⟨hne, hinside, _⟩
    exact hrel.elim hne hinside
  · rw [if_neg hrel]
    obtain ⟨hne, hinside⟩ := not_or.1 hrel
    by_cases hname : entryName (L.relative item root) = []
    · simp [hname]
    · rw [if_neg hname]
      by_cases hsame : fs.resolve item = fs.resolve path
      · rw [if_pos hsame] at hstatus
        rw [hstatus]
        cases hopens : L.opens item .read
        · simp [hsame, hname]
        · simp [hsame, hne, hinside, hname]
      · rw [if_neg hsame] at hstatus
        rw [hstatus]
        cases hitem : fs.status item with
        | none => simp [hsame]
        | some node =>
          cases hopens : L.opens item .read
          · simp [hname]
          · simp [hne, hinside, hname]

theorem addFiles_eq_none_iff {path : Path} {fs gs : Filesystem Content} (L : Library) (root : Path)
    (files : List Path) (members : List Member) (hwrite : fs.writeFile path (.plain []) = some gs) :
    (addFiles L gs root members files).2 = none ↔
      ∀ item ∈ files, Addable L fs root path item := by
  induction files generalizing members with
  | nil => simp [addFiles]
  | cons item files ih =>
    have hitem := addFile_eq_none_iff L root item members hwrite
    rw [addFiles, List.forall_mem_cons, ← hitem]
    rcases hadd : addFile L gs root members item with ⟨members', _ | e⟩
    · simp [ih members']
    · simp

def IsArchive (fs : Filesystem Content) (path : Path) : Prop :=
  ∃ members, fs.status path = some (.file (.archive members))

theorem IsArchive.zipClose {fs : Filesystem Content} {path : Path} (h : IsArchive fs path)
    (handle : Handle) : IsArchive (zipClose handle fs) path := by
  rw [ZipArchive.zipClose]
  cases handle.mode with
  | read => exact h
  | write =>
    cases hwrite : fs.writeFile handle.path (.archive handle.members) with
    | none => exact h
    | some gs =>
      obtain ⟨members, hmembers⟩ := h
      rw [IsArchive, Option.getD_some, Filesystem.status_writeFile hwrite]
      split
      · exact ⟨_, rfl⟩
      · exact ⟨members, hmembers⟩

theorem isArchive_zipClose {fs gs : Filesystem Content} {path : Path} (members : List Member)
    (hwrite : fs.writeFile path (.plain []) = some gs) :
    IsArchive (zipClose ⟨path, .write, members⟩ gs) path := by
  obtain ⟨hs, hwrite'⟩ := Filesystem.exists_writeFile (.archive members) hwrite
  refine ⟨members, ?_⟩
  rw [zipClose, hwrite', Option.getD_some, Filesystem.status_writeFile hwrite', if_pos rfl]

theorem IsArchive.rename {fs : Filesystem Content} {path : Path} (h : IsArchive fs path) :
    rename path path fs = some fs := by
  obtain ⟨members, hmembers⟩ := h
  rw [ZipArchive.rename, hmembers]
  exact if_pos rfl

theorem IsArchive.zipOpen {fs : Filesystem Content} {path : Path} (h : IsArchive fs path) :
    zipOpen L path .read fs = none ↔ L.opens path .read = false := by
  obtain ⟨members, hmembers⟩ := h
  rw [ZipArchive.zipOpen, hmembers]
  cases L.opens path .read <;> simp

theorem IsArchive.close {fs : Filesystem Content} {path : Path} (h : IsArchive fs path)
    (object : Object) : IsArchive (object.close fs) path := by
  rw [Object.close]
  cases object.zip with
  | none => exact h
  | some handle => exact h.zipClose handle

theorem IsArchive.renameAndReopen {fs : Filesystem Content} {path : Path} (h : IsArchive fs path) :
    (∃ u, renameAndReopen L path path fs = .ok () u) ↔ L.opens path .read = true := by
  have hopen := h.zipOpen (L := L)
  rw [ZipArchive.renameAndReopen, h.rename]
  cases hread : ZipArchive.zipOpen L path .read fs with
  | none =>
    rw [hopen.1 hread]
    simp [hread]
  | some opened =>
    have hopens : L.opens path .read = true := by
      by_contra hclosed
      rw [hopen.2 (Bool.eq_false_iff.2 hclosed)] at hread
      cases hread
    simp [hread, hopens]

/-- Whatever happens, the object is left with the path of the temporary file. -/
theorem path_replace (L : Library) (files : List Path) (root : Path) (s : State) :
    (final (replace L files root s)).object.path = s.object.path.concat tmp := by
  simp only [replace]
  split
  · rfl
  · split
    · rfl
    · rw [renameAndReopen]
      split
      · rfl
      · split <;> rfl

theorem object_path_ne {u : State} (h : final (replace L files root s) = u) :
    u.object.path ≠ s.object.path := by
  rw [← h, path_replace]
  exact Path.concat_ne _ (List.cons_ne_nil _ _)

/-- The way of `replace` once the new archive is created. -/
theorem replace_of_created {handle : Handle} {fs : Filesystem Content} (files : List Path)
    (root : Path)
    (hopen : zipOpen L (s.object.path.concat tmp) .write s.filesystem = some (handle, fs)) :
    ((addFiles L fs root [] files).2 ≠ none → ∃ e u, replace L files root s = .error e u) ∧
      ((addFiles L fs root [] files).2 = none →
        ((∃ u, replace L files root s = .ok () u) ↔
          L.opens (s.object.path.concat tmp) .read = true)) := by
  obtain ⟨hhandle, hwrite⟩ := zipOpen_write hopen
  simp only at hhandle hwrite
  simp only [replace, hopen, hhandle]
  rcases addFiles L fs root [] files with ⟨members, _ | e⟩
  · refine ⟨fun h => absurd rfl h, fun _ => ?_⟩
    exact ((isArchive_zipClose members hwrite).close s.object).renameAndReopen
  · exact ⟨fun _ => ⟨e, _, rfl⟩, fun h => by cases h⟩

theorem replaces_iff (L : Library) (files : List Path) (root : Path) (s : State) :
    Replaces L files root s ↔
      zipOpen L (s.object.path.concat tmp) .write s.filesystem = none ∨
        (∀ item ∈ files, Addable L s.filesystem root (s.object.path.concat tmp) item) ∧
          L.opens (s.object.path.concat tmp) .read = false := by
  cases hopen : zipOpen L (s.object.path.concat tmp) .write s.filesystem with
  | none =>
    simp only [true_or, iff_true]
    have hrun : replace L files root s = .error
        (.zipPathError ZipError.invalidArchive (s.object.path.concat tmp))
        ⟨s.filesystem, ⟨s.object.path.concat tmp, s.object.zip⟩⟩ := by
      simp only [replace, hopen]
    constructor
    case returns =>
      intro u h
      rw [hrun] at h
      cases h
    case fails =>
      rintro e u ⟨handle, fs, hcreated, _⟩
      rw [hopen] at hcreated
      cases hcreated
  | some opened =>
    obtain ⟨handle, fs⟩ := opened
    have hadd := addFiles_eq_none_iff L root files [] (zipOpen_write hopen).2
    obtain ⟨hfails, hreturns⟩ := replace_of_created files root hopen
    rw [← hadd]
    simp only [reduceCtorEq, false_or]
    constructor
    · intro h
      have hnone : (addFiles L fs root [] files).2 = none := by
        by_contra hsome
        obtain ⟨e, u, hrun⟩ := hfails hsome
        have hobject := (h.fails e u ⟨handle, fs, hopen, hsome⟩ hrun).2
        apply @object_path_ne L files root s u
        · rw [hrun]
          rfl
        · rw [hobject]
      refine ⟨hnone, ?_⟩
      rw [← Bool.not_eq_true, ← hreturns hnone]
      rintro ⟨u, hrun⟩
      have hobject := (h.returns u hrun).2.1
      apply @object_path_ne L files root s u
      · rw [hrun]
        rfl
      · rw [hobject]
    · rintro ⟨hnone, hclosed⟩
      constructor
      case returns =>
        intro u hrun
        have hopens := (hreturns hnone).1 ⟨u, hrun⟩
        rw [hclosed] at hopens
        cases hopens
      case fails =>
        rintro e u ⟨handle', fs', hcreated, hsome⟩
        rw [hopen] at hcreated
        cases hcreated
        exact absurd hnone hsome

/-- Every file can be opened, and `relative` is used with the root directory only. -/
def permissive : Library where
  raw _ := []
  relative item _ := item.parts
  opens _ _ := true

/-- An archive `/z` with one member, opened for reading, and a file `/f`. -/
def oneMember : State where
  filesystem := {
    disk := (FileTree.empty.putFile ['z'] [] (.archive [⟨['o'], [1]⟩]) rfl (by decide)).putFile
      ['f'] [] (.plain [2]) rfl (by decide)
    cwd := [] }
  object := ⟨⟨true, [['z']]⟩, some ⟨⟨true, [['z']]⟩, .read, [⟨['o'], [1]⟩]⟩⟩

theorem not_replaces_oneMember :
    ¬Replaces permissive [⟨true, [['f']]⟩] ⟨true, []⟩ oneMember := by
  intro h
  have hok : (answer (replace permissive [⟨true, [['f']]⟩] ⟨true, []⟩ oneMember)).isOk = true := by
    decide
  cases hrun : replace permissive [⟨true, [['f']]⟩] ⟨true, []⟩ oneMember with
  | ok _ u =>
    have hobject := (h.returns u hrun).2.1
    apply @object_path_ne permissive [⟨true, [['f']]⟩] ⟨true, []⟩ oneMember u
    · rw [hrun]
      rfl
    · rw [hobject]
  | error e u =>
    rw [hrun] at hok
    cases hok

end Promise

end Utlib.ZipArchive
