import Utlib.ZipArchive.Basic

/-! `ZipArchive::uncompress` into a directory, and `uncompressAll` (storage/ZipArchive.cpp). -/

namespace Utlib.ZipArchive

open Program Utlib.Path

/-- An entry of an archive that is read. If the archive is damaged there, `data` is what can be
read before that shows. -/
structure Entry where
  name : List Char
  directoryBit : Bool := false
  supported : Bool := true
  data : List UInt8
  damaged : Bool := false

/-- `mz_zip_reader_is_file_a_directory` -/
def Entry.isDirectory (entry : Entry) : Bool :=
  entry.name.getLast? = some '/' ∨ entry.directoryBit

abbrev World := Filesystem (List UInt8)

abbrev Extraction := EStateM Error World

section Filesystem

def createDirectory (path : Path) : Extraction Unit := fun w =>
  match w.resolve path with
  | some (a :: l) =>
    if hl : w.disk.node l = some .dir then
      .ok () { w with
        disk := w.disk.makeDir a l hl
        effects := w.effects ++ [.created path] }
    else .error (.filesystemError path) w
  | _ => .error (.filesystemError path) w

/-- The part of `create_directories` for the names behind `done`. -/
def createRest (absolute : Bool) (done : List (List Char)) : List (List Char) → Extraction Unit
  | [] => pure ()
  | c :: names => do
    let path : Path := ⟨absolute, done ++ [c]⟩
    match (← get).status path with
    | some .dir => createRest absolute (done ++ [c]) names
    | some (.file _) => throw (.filesystemError path)
    | none => do
      createDirectory path
      createRest absolute (done ++ [c]) names

def createDirectories (path : Path) : Extraction Unit :=
  createRest path.absolute [] path.parts

end Filesystem

/-- `mz_zip_reader_locate_file` without `MZ_ZIP_FLAG_CASE_SENSITIVE` -/
def locate (archive : List Entry) (name : List Char) : Option Entry :=
  archive.find? fun entry => entry.name.map Char.toLower = name.map Char.toLower

def entryOpen (archive : List Entry) (name : List Char) : Extraction Entry :=
  if name = [] then throw (.zipError ZipError.kubaZipError ZipError.einventname)
  else
    match locate archive name with
    | none => throw (.zipError ZipError.kubaZipError ZipError.enoent)
    | some entry => pure entry

def entryFread (entry : Entry) (path : Path) : Extraction Unit := fun w =>
  if entry.isDirectory then .error (.zipError ZipError.kubaZipError ZipError.einventtype) w
  else if ¬entry.supported then .error (.zipError ZipError.kubaZipError ZipError.enofile) w
  else
    match w.writeFile path entry.data with
    | none => .error (.zipError ZipError.kubaZipError ZipError.enofile) w
    | some w =>
      if entry.damaged then .error (.zipError ZipError.kubaZipError ZipError.enofile) w
      else .ok () w

def listFiles (archive : List Entry) : List (List Char) :=
  archive.map Entry.name

def uncompress (archive : List Entry) (fileName : List Char) (targetDir : Path) :
    Extraction Unit := do
  let w ← get
  require (w.status targetDir = some .dir) (.ioError ZipError.notADirectory targetDir)
  let targetFile := targetDir / parse fileName
  createDirectories targetFile.parentPath
  let entry ← entryOpen archive fileName
  entryFread entry targetFile

def uncompressList (archive : List Entry) (targetDir : Path) : List (List Char) → Extraction Unit
  | [] => pure ()
  | fileName :: names => do
    uncompress archive fileName targetDir
    uncompressList archive targetDir names

def uncompressAll (archive : List Entry) (targetDir : Path) : Extraction Unit :=
  uncompressList archive targetDir (listFiles archive)

section Creation

variable {w u : World} {path : Path} {done : List (List Char)}

/-- The directory is created: nothing is at its place, no earlier name leads there, and no file is
in the way. -/
def Missing (w : World) (path : Path) (pre : List (List Char)) : Prop :=
  pre <+: path.parts ∧ w.disk.node (w.place path.absolute pre) = none ∧
    ∀ pre', pre' <+: pre → pre' ≠ pre →
      w.place path.absolute pre' ≠ w.place path.absolute pre ∧
        ∀ f, w.disk.node (w.place path.absolute pre') ≠ some (.file f)

def Blocked (w : World) (path : Path) : Prop :=
  ∃ pre f, pre <+: path.parts ∧ w.disk.node (w.place path.absolute pre) = some (.file f)

/-- The world `u` is the world `w` after the directories up to `done` have been created. -/
structure Along (w : World) (path : Path) (done : List (List Char)) (u : World) : Prop where
  cwd_eq : u.cwd = w.cwd
  visited : ∀ pre, pre <+: done → u.disk.node (w.place path.absolute pre) = some .dir
  other : ∀ q, (∀ pre, pre <+: done → w.place path.absolute pre ≠ q) →
    u.disk.node q = w.disk.node q
  no_file : ∀ pre f, pre <+: done → w.disk.node (w.place path.absolute pre) ≠ some (.file f)
  effects : ∃ es, u.effects = w.effects ++ es ∧
    (∀ e, e ∈ es ↔ ∃ pre, pre <+: done ∧ Missing w path pre ∧ e = .created ⟨path.absolute, pre⟩) ∧
      (es = [] → u.disk = w.disk)

theorem place_concat (w : World) (absolute : Bool) (done : List (List Char)) (c : List Char) :
    w.place absolute (done ++ [c]) = step (w.place absolute done) c := by
  simp [Filesystem.place]

theorem Along.place_eq (h : Along w path done u) (names : List (List Char)) :
    u.place path.absolute names = w.place path.absolute names := by
  rw [Filesystem.place, Filesystem.place, h.cwd_eq]

theorem Along.resolve_eq (h : Along w path done u) {names : List (List Char)}
    (hne : names ≠ [] ∨ path.absolute = true)
    (hnames : ∀ pre, pre <+: names → pre ≠ names → pre <+: done) :
    u.resolve ⟨path.absolute, names⟩ = some (w.place path.absolute names) := by
  rw [Filesystem.resolve, if_neg]
  · rw [h.place_eq, Filesystem.place, List.foldl_nil, Filesystem.place]
    apply Path.resolve_eq
    intro pre hpre hproper
    exact h.visited pre (hnames pre hpre hproper)
  · rw [Path.mk.injEq]
    rintro ⟨habsolute, hnil⟩
    rcases hne with hne | hne
    · exact hne hnil
    · rw [hne] at habsolute
      cases habsolute

theorem Along.status_eq (h : Along w path done u) (c : List Char) :
    u.status ⟨path.absolute, done ++ [c]⟩ =
      u.disk.node (w.place path.absolute (done ++ [c])) := by
  rw [Filesystem.status, h.resolve_eq (.inl (by simp)), Option.bind_some]
  intro pre hpre hproper
  exact (List.prefix_concat_iff.1 hpre).resolve_left hproper

theorem along_nil (hstart : w.disk.node (w.place path.absolute []) = some .dir) :
    Along w path [] w := by
  constructor
  case cwd_eq => rfl
  case visited =>
    intro pre hpre
    rw [List.prefix_nil.1 hpre, hstart]
  case other => exact fun _ _ => rfl
  case no_file =>
    intro pre f hpre
    rw [List.prefix_nil.1 hpre, hstart]
    simp
  case effects =>
    refine ⟨[], by simp, ?_, fun _ => rfl⟩
    intro e
    simp only [List.not_mem_nil, false_iff]
    rintro ⟨pre, hpre, ⟨_, hnone, _⟩, _⟩
    rw [List.prefix_nil.1 hpre, hstart] at hnone
    cases hnone

theorem Along.missing_iff (h : Along w path done u) {c : List Char}
    (hparts : done ++ [c] <+: path.parts) :
    Missing w path (done ++ [c]) ↔ u.disk.node (w.place path.absolute (done ++ [c])) = none := by
  constructor
  · rintro ⟨_, hnone, hearlier⟩
    rw [h.other, hnone]
    intro pre hpre
    apply (hearlier pre (hpre.trans (List.prefix_append done [c])) _).1
    rintro rfl
    exact absurd hpre.length_le (by simp)
  · intro hnone
    have hnew : ∀ pre, pre <+: done →
        w.place path.absolute pre ≠ w.place path.absolute (done ++ [c]) := by
      intro pre hpre heq
      rw [← heq, h.visited pre hpre] at hnone
      cases hnone
    refine ⟨hparts, ?_, ?_⟩
    · rw [← h.other _ hnew, hnone]
    · intro pre hpre hproper
      have hdone := (List.prefix_concat_iff.1 hpre).resolve_left hproper
      exact ⟨hnew pre hdone, fun f => h.no_file pre f hdone⟩

theorem Along.concat {v : World} {c : List Char} (h : Along w path done u) (new : List Effect)
    (hparts : done ++ [c] <+: path.parts) (hcwd : v.cwd = u.cwd)
    (hdir : v.disk.node (w.place path.absolute (done ++ [c])) = some .dir)
    (hother : ∀ q, q ≠ w.place path.absolute (done ++ [c]) → v.disk.node q = u.disk.node q)
    (hfile : ∀ f, u.disk.node (w.place path.absolute (done ++ [c])) ≠ some (.file f))
    (heffects : v.effects = u.effects ++ new)
    (hnew : ∀ e, e ∈ new ↔ u.disk.node (w.place path.absolute (done ++ [c])) = none ∧
      e = .created ⟨path.absolute, done ++ [c]⟩)
    (hsame : new = [] → v.disk = u.disk) : Along w path (done ++ [c]) v := by
  constructor
  case cwd_eq => rw [hcwd, h.cwd_eq]
  case visited =>
    intro pre hpre
    rcases List.prefix_concat_iff.1 hpre with rfl | hdone
    · exact hdir
    · by_cases heq : w.place path.absolute pre = w.place path.absolute (done ++ [c])
      · rw [heq, hdir]
      · rw [hother _ heq, h.visited pre hdone]
  case other =>
    intro q hq
    rw [hother, h.other]
    · intro pre hpre
      exact hq pre (hpre.trans (List.prefix_append done [c]))
    · exact (hq _ (List.prefix_refl _)).symm
  case no_file =>
    intro pre f hpre hnode
    rcases List.prefix_concat_iff.1 hpre with rfl | hdone
    · apply hfile f
      rw [h.other, hnode]
      intro pre' hpre' heq
      exact h.no_file pre' f hpre' (heq ▸ hnode)
    · exact h.no_file pre f hdone hnode
  case effects =>
    obtain ⟨es, hes, hmem, hdisk⟩ := h.effects
    refine ⟨es ++ new, by rw [heffects, hes, List.append_assoc], ?_, ?_⟩
    · intro e
      rw [List.mem_append, hmem, hnew, ← h.missing_iff hparts]
      constructor
      · rintro (⟨pre, hpre, hmissing, rfl⟩ | ⟨hmissing, rfl⟩)
        · exact ⟨pre, hpre.trans (List.prefix_append done [c]), hmissing, rfl⟩
        · exact ⟨_, List.prefix_refl _, hmissing, rfl⟩
      · rintro ⟨pre, hpre, hmissing, rfl⟩
        rcases List.prefix_concat_iff.1 hpre with rfl | hdone
        · exact .inr ⟨hmissing, rfl⟩
        · exact .inl ⟨pre, hdone, hmissing, rfl⟩
    · intro hnil
      rw [List.append_eq_nil_iff] at hnil
      rw [hsame hnil.2, hdisk hnil.1]

theorem Along.skip {c : List Char} (h : Along w path done u) (hparts : done ++ [c] <+: path.parts)
    (hdir : u.disk.node (w.place path.absolute (done ++ [c])) = some .dir) :
    Along w path (done ++ [c]) u := by
  apply h.concat [] hparts rfl hdir (fun _ _ => rfl)
  · simp [hdir]
  · simp
  · simp [hdir]
  · exact fun _ => rfl

/-- The creation of a directory whose parent is there. -/
theorem Along.create {c : List Char} (h : Along w path done u) (hparts : done ++ [c] <+: path.parts)
    (hnone : u.disk.node (w.place path.absolute (done ++ [c])) = none) :
    ∃ v, createDirectory ⟨path.absolute, done ++ [c]⟩ u = .ok () v ∧
      Along w path (done ++ [c]) v := by
  have hparent := h.visited done (List.prefix_refl _)
  have hplace : w.place path.absolute (done ++ [c]) = c :: w.place path.absolute done := by
    rw [place_concat]
    apply Path.node_step_of_dir hparent
    rw [← place_concat, hnone]
    simp
  have hresolve : u.resolve ⟨path.absolute, done ++ [c]⟩ =
      some (c :: w.place path.absolute done) := by
    rw [h.resolve_eq (.inl (by simp)), hplace]
    intro pre hpre hproper
    exact (List.prefix_concat_iff.1 hpre).resolve_left hproper
  refine ⟨{ u with
    disk := u.disk.makeDir c (w.place path.absolute done) hparent
    effects := u.effects ++ [.created ⟨path.absolute, done ++ [c]⟩] }, ?_, ?_⟩
  · simp only [createDirectory, hresolve, dif_pos hparent]
  · apply h.concat [.created ⟨path.absolute, done ++ [c]⟩] hparts
    · rfl
    · rw [hplace]
      exact Function.update_self _ _ _
    · intro q hq
      rw [hplace] at hq
      exact Function.update_of_ne hq _ _
    · simp [hnone]
    · rfl
    · simp [hnone]
    · simp

/-- What `createDirectories` has done, however it ended. -/
def Created (w : World) (path : Path) (u : World) : Prop :=
  ∃ es, u.effects = w.effects ++ es ∧
    ∀ e, e ∈ es ↔ ∃ pre, Missing w path pre ∧ e = .created ⟨path.absolute, pre⟩

theorem Along.created_of_blocked {c : List Char} {f : List UInt8} (h : Along w path done u)
    (hfile : w.disk.node (w.place path.absolute (done ++ [c])) = some (.file f))
    (hparts : done ++ [c] <+: path.parts) : Created w path u := by
  obtain ⟨es, hes, hmem, _⟩ := h.effects
  refine ⟨es, hes, ?_⟩
  intro e
  rw [hmem]
  constructor
  · rintro ⟨pre, _, hmissing, rfl⟩
    exact ⟨pre, hmissing, rfl⟩
  · rintro ⟨pre, hmissing, rfl⟩
    refine ⟨pre, ?_, hmissing, rfl⟩
    obtain ⟨hpre, hnone, hearlier⟩ := hmissing
    rcases List.prefix_or_prefix_of_prefix hpre hparts with hshort | hlong
    · apply (List.prefix_concat_iff.1 hshort).resolve_left
      rintro rfl
      rw [hfile] at hnone
      cases hnone
    · by_cases heq : done ++ [c] = pre
      · rw [← heq, hfile] at hnone
        cases hnone
      · exact absurd hfile ((hearlier _ hlong heq).2 f)

theorem wp_createRest (names : List (List Char)) (hparts : path.parts = done ++ names)
    (h : Along w path done u) :
    wp (createRest path.absolute done names) (fun _ v => Along w path path.parts v)
      (fun _ v => Blocked w path ∧ Created w path v) u := by
  induction names generalizing done u with
  | nil =>
    rw [List.append_nil] at hparts
    rw [hparts]
    exact h
  | cons c names ih =>
    have hsplit : path.parts = done ++ [c] ++ names := by
      rw [hparts, List.append_assoc, List.singleton_append]
    have hstart : done ++ [c] <+: path.parts := hsplit ▸ List.prefix_append _ names
    rw [createRest, wp_bind, wp_get, h.status_eq]
    rcases hnode : u.disk.node (w.place path.absolute (done ++ [c])) with _ | _ | f
    · obtain ⟨v, hrun, hv⟩ := h.create hstart hnode
      simp only [wp_bind]
      rw [wp_of_ok hrun]
      exact ih hsplit hv
    · exact ih hsplit (h.skip hstart hnode)
    · have hfile : w.disk.node (w.place path.absolute (done ++ [c])) = some (.file f) := by
        rw [← hnode, h.other]
        intro pre hpre heq
        rw [← heq, h.visited pre hpre] at hnode
        cases hnode
      exact ⟨⟨_, f, hstart, hfile⟩, h.created_of_blocked hfile hstart⟩

theorem wp_createDirectories
    (hstart : w.disk.node (w.place path.absolute []) = some .dir) :
    wp (createDirectories path) (fun _ v => Along w path path.parts v)
      (fun _ v => Blocked w path ∧ Created w path v) w :=
  wp_createRest path.parts rfl (along_nil hstart)

end Creation

end Utlib.ZipArchive
