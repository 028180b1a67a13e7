import Utlib.Path

/-! What `ZipArchive` (storage/ZipArchive.cpp) needs of the file system and of its error codes. -/

namespace Utlib.ZipArchive

open Utlib.Path

inductive Effect
  | created (path : Path)
  | wrote (path : Path)
deriving DecidableEq

def Effect.path : Effect → Path
  | created path => path
  | wrote path => path

/-- The disk, the working directory, and what has been created and written so far. -/
structure Filesystem (F : Type) where
  disk : FileTree (List Char) F
  cwd : List (List Char)
  effects : List Effect := []

namespace Filesystem

variable {F : Type} (w : Filesystem F)

/-- Where the names lead, if all of them but the last are directories. -/
def place (absolute : Bool) (names : List (List Char)) : List (List Char) :=
  names.foldl step (if absolute then [] else w.cwd)

def resolve (path : Path) : Option (List (List Char)) :=
  if path = ⟨false, []⟩ then none
  else Path.resolve w.disk (w.place path.absolute []) path.parts

/-- `fs::status(path)` -/
def status (path : Path) : Option (Node F) :=
  (w.resolve path).bind w.disk.node

/-- `fopen(path, "wb")`, the writing of `data`, and `fclose`; `none` when the file cannot be
opened. -/
def writeFile (path : Path) (data : F) : Option (Filesystem F) :=
  match w.resolve path with
  | some (a :: l) =>
    if hl : w.disk.node l = some .dir then
      if hfree : w.disk.node (a :: l) ≠ some .dir then
        some { w with
          disk := w.disk.putFile a l data hl hfree
          effects := w.effects ++ [.wrote path] }
      else none
    else none
  | _ => none

section Written

variable {w} {u : Filesystem F} {path : Path} {data : F}

theorem writeFile_cases (h : w.writeFile path data = some u) :
    ∃ q, w.resolve path = some q ∧ w.disk.node q ≠ some .dir ∧
      (∀ r, u.disk.node r = if r = q then some (.file data) else w.disk.node r) ∧
        u.cwd = w.cwd := by
  rw [writeFile] at h
  split at h
  · rename_i a l hresolve
    split at h
    · split at h
      · rename_i hl hfree
        cases h
        exact ⟨a :: l, hresolve, hfree, fun r => Function.update_apply _ _ _ _, rfl⟩
      · cases h
    · cases h
  · cases h

theorem resolve_writeFile (h : w.writeFile path data = some u) (other : Path) :
    u.resolve other = w.resolve other := by
  obtain ⟨q, _, hfree, hnode, hcwd⟩ := writeFile_cases h
  have hdirs : ∀ r, u.disk.node r = some .dir ↔ w.disk.node r = some .dir := by
    intro r
    rw [hnode]
    by_cases hr : r = q
    · simp [hr, hfree]
    · simp [hr]
  rw [resolve, resolve, place, place, hcwd, Path.resolve_congr hdirs]

theorem status_writeFile (h : w.writeFile path data = some u) (other : Path) :
    u.status other =
      if w.resolve other = w.resolve path then some (.file data) else w.status other := by
  obtain ⟨q, hpath, _, hnode, _⟩ := writeFile_cases h
  rw [status, status, resolve_writeFile h, hpath]
  cases hother : w.resolve other with
  | none => simp
  | some r =>
    rw [Option.bind_some, Option.bind_some, hnode]
    simp only [Option.some.injEq]

theorem exists_writeFile (data' : F) (h : w.writeFile path data = some u) :
    ∃ v, u.writeFile path data' = some v := by
  have hresolve := resolve_writeFile h path
  obtain ⟨q, hq, _, hnode, _⟩ := writeFile_cases h
  rw [writeFile, hq] at h
  cases q with
  | nil => cases h
  | cons a l =>
    have hl : w.disk.node l = some .dir := by
      by_contra hl
      simp [hl] at h
    have hl' : u.disk.node l = some .dir := by
      rw [hnode, if_neg (List.cons_ne_self a l).symm, hl]
    have hfree : u.disk.node (a :: l) ≠ some .dir := by
      rw [hnode, if_pos rfl]
      simp
    rw [writeFile, hresolve, hq]
    simp only [dif_pos hl', dif_pos hfree]
    exact ⟨_, rfl⟩

end Written

end Filesystem

namespace IOError

def fileNotFound : Int := 10

end IOError

namespace ZipError

def invalidArchive : Int := 2

def notADirectory : Int := 4

def kubaZipError : Int := 5

def enoinit : Int := -1

def einventname : Int := -2

def enoent : Int := -3

def eopnfile : Int := -16

def einventtype : Int := -17

def enofile : Int := -19

end ZipError

inductive Error
  | ioError (fault : Int) (path : Path)
  | zipError (fault : Int) (code : Int)
  | zipPathError (fault : Int) (path : Path)
  | filesystemError (path : Path)

end Utlib.ZipArchive
