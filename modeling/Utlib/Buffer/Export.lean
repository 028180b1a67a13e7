import Utlib.Buffer.Editing

/-! Buffers in files and streams. -/

namespace Utlib.Buffer

open Program Sequence Utlib.Path
open ZipArchive (Filesystem)

variable {T : Type} [Layout T]

/-- `write(stream, offset, len)`: the bytes that go to the stream. -/
def write (b : Buffer T) (offset len : Nat) : Except Failure (List UInt8) :=
  if offset + len ≤ b.size then .ok (slice (Layout.bytes b.contents) offset len)
  else .error .assertion

/-- `write(path, offset, len)`: the file is opened before anything is written. -/
def writePath (b : Buffer T) (w : Filesystem (List UInt8)) (path : Path) (offset len : Nat) :
    Except Failure (Filesystem (List UInt8)) :=
  if w.status path = some .dir then .error .throws
  else
    match b.write offset len with
    | .ok data =>
      match w.writeFile path data with
      | some u => .ok u
      | none => .error .throws
    | .error e => .error (if (w.writeFile path []).isSome then e else .throws)

/-- The bytes that `operator<<` writes. -/
def output (b : Buffer T) : List UInt8 :=
  if b.ptr.isSome ∧ 0 < b.size then (Layout.bytes b.contents).take (b.size * Layout.width T)
  else []

/-- What one buffer writes to a file, another one reads from it. -/
def Reimports (b : Buffer T) : Prop :=
  ∀ (w u : Filesystem (List UInt8)) (path : Path) (new : New T) (other : Buffer T),
    new.Plentiful → other.Valid → b.writePath w path 0 b.size = .ok u →
      ∃ c, initPath new u path other = .ok () c ∧ c.size = b.size ∧ c.contents = b.contents

def WritesOutput (b : Buffer T) : Prop := b.write 0 b.size = .ok b.output

section Rules

variable {b : Buffer T} {new : New T}

theorem initString_ok (hnew : new.Plentiful) (h : b.Valid) (str : List UInt8) :
    ∃ c, initString new str b = .ok () c ∧ c.Valid ∧ c.contents = Layout.elements str := by
  have hlen := Layout.length_elements (T := T) str
  have hwp : wp (initString new str) (fun _ t => t.Valid ∧ t.contents = Layout.elements str)
      (fun _ _ => False) b := by
    have hfill := wp_initArray (E := fun _ _ => False) h hnew hlen.ge
    rwa [List.take_of_length_le hlen.le] at hfill
  obtain ⟨_, c, hok, hvalid, hcontents⟩ := hwp.exists_ok fun _ _ => id
  exact ⟨c, hok, hvalid, hcontents⟩

theorem length_bytes_contents (h : b.Valid) :
    (Layout.bytes b.contents).length = b.size * Layout.width T := by
  rw [Layout.length_bytes, h.size_eq]

theorem write_all (b : Buffer T) :
    b.write 0 b.size = .ok ((Layout.bytes b.contents).take b.size) := by
  rw [write, if_pos (by omega), slice, List.drop_zero]

theorem output_eq (h : b.Valid) : b.output = Layout.bytes b.contents := by
  rw [output]
  split
  · rw [← length_bytes_contents h, List.take_length]
  · next hempty =>
    have hzero : b.size = 0 := by
      by_contra hne
      refine hempty ⟨?_, Nat.pos_of_ne_zero hne⟩
      rw [Option.isSome_iff_ne_none]
      intro hnone
      exact hne (h.null_iff.2 (by rw [hnone]; rfl))
    rw [h.size_eq, List.length_eq_zero_iff] at hzero
    rw [hzero]
    rfl

/-- As many bytes as elements are all bytes of the elements. -/
theorem take_bytes_eq_iff (h : b.Valid) :
    (Layout.bytes b.contents).take b.size = Layout.bytes b.contents ↔
      Layout.width T = 1 ∨ b.size = 0 := by
  have hlen := length_bytes_contents h
  have hpos : 0 < Layout.width T := Layout.width_pos
  rw [List.take_eq_self_iff, hlen]
  constructor
  · intro hle
    by_contra hne
    rw [not_or] at hne
    have htwo : 2 ≤ Layout.width T := by omega
    have hmul := Nat.mul_le_mul_left b.size htwo
    omega
  · rintro (hone | hzero)
    · rw [hone, Nat.mul_one]
    · rw [hzero, Nat.zero_mul]

theorem writesOutput_iff (h : b.Valid) : b.WritesOutput ↔ Layout.width T = 1 ∨ b.size = 0 := by
  rw [WritesOutput, write_all, output_eq h, Except.ok.injEq, take_bytes_eq_iff h]

theorem writePath_ok {w u : Filesystem (List UInt8)} {path : Path}
    (hu : b.writePath w path 0 b.size = .ok u) :
    w.writeFile path ((Layout.bytes b.contents).take b.size) = some u := by
  rw [writePath] at hu
  split at hu
  · cases hu
  · rw [write_all] at hu
    split at hu
    · next hdata =>
      cases hdata
      split at hu
      · next hu' =>
        cases hu
        exact hu'
      · cases hu
    · cases hu

theorem initPath_writePath {w u : Filesystem (List UInt8)} {path : Path} {other : Buffer T}
    (hu : b.writePath w path 0 b.size = .ok u) (hnew : new.Plentiful) (hother : other.Valid) :
    ∃ c, initPath new u path other = .ok () c ∧ c.Valid ∧
      c.contents = Layout.elements ((Layout.bytes b.contents).take b.size) := by
  rw [initPath, ZipArchive.Filesystem.status_writeFile (writePath_ok hu), if_pos rfl]
  exact initString_ok hnew hother _

theorem reimports_of_take (h : b.Valid)
    (hall : (Layout.bytes b.contents).take b.size = Layout.bytes b.contents) : b.Reimports := by
  intro w u path new other hnew hother hu
  obtain ⟨c, hok, hvalid, hcontents⟩ := initPath_writePath hu hnew hother
  rw [hall, Layout.elements_bytes] at hcontents
  exact ⟨c, hok, by rw [hvalid.size_eq, h.size_eq, hcontents], hcontents⟩

/-- An empty disk, and a file in its root. -/
def blank : Filesystem (List UInt8) where
  disk := FileTree.empty
  cwd := []

def probe : Path := ⟨true, [['f']]⟩

theorem exists_writeFile_blank (data : List UInt8) : ∃ u, blank.writeFile probe data = some u := by
  have hresolve : blank.resolve probe = some [['f']] := by decide
  have hroot : blank.disk.node [] = some .dir := rfl
  have hfree : blank.disk.node [['f']] ≠ some .dir := nofun
  rw [Filesystem.writeFile, hresolve]
  simp only [dif_pos hroot, dif_pos hfree]
  exact ⟨_, rfl⟩

theorem exists_writePath (b : Buffer T) : ∃ u, b.writePath blank probe 0 b.size = .ok u := by
  obtain ⟨u, hu⟩ := exists_writeFile_blank ((Layout.bytes b.contents).take b.size)
  have hfree : blank.status probe ≠ some .dir := nofun
  rw [writePath, if_neg hfree, write_all]
  simp only [hu]
  exact ⟨u, rfl⟩

def New.filled {T : Type} (x : T) : New T where
  block n := some ⟨0, List.replicate n x⟩
  length_cells n b h := by
    cases h
    exact List.length_replicate

theorem valid_empty {T : Type} : ({} : Buffer T).Valid := ⟨rfl, by simp⟩

theorem reimports_iff (h : b.Valid) : b.Reimports ↔ Layout.width T = 1 ∨ b.size = 0 := by
  refine ⟨fun hreimports => ?_, fun hsame => reimports_of_take h ((take_bytes_eq_iff h).2 hsame)⟩
  have hnew : (New.filled (Layout.decode [] : T)).Plentiful := fun _ => rfl
  obtain ⟨u, hu⟩ := exists_writePath b
  obtain ⟨c, hok, hvalid, hcontents⟩ := initPath_writePath hu hnew valid_empty
  obtain ⟨d, hok', hsize, _⟩ := hreimports _ u _ _ _ hnew valid_empty hu
  rw [hok] at hok'
  cases hok'
  rw [hvalid.size_eq, hcontents, Layout.length_elements, List.length_take,
    length_bytes_contents h] at hsize
  have hpos : 0 < Layout.width T := Layout.width_pos
  by_contra hne
  rw [not_or] at hne
  have hshort : b.size / Layout.width T < b.size := Nat.div_lt_self (by omega) (by omega)
  have hle : min b.size (b.size * Layout.width T) / Layout.width T ≤ b.size / Layout.width T :=
    Nat.div_le_div_right (Nat.min_le_left _ _)
  omega

theorem export_import_iff (h : b.Valid) :
    b.Reimports ∧ b.WritesOutput ↔ Layout.width T = 1 ∨ b.size = 0 := by
  rw [reimports_iff h, writesOutput_iff h, and_self]

theorem export_import_byte :
    (holding [1, 2]).Reimports ∧ (holding [1, 2]).WritesOutput :=
  (export_import_iff (valid_holding [1, 2])).2 (.inl rfl)

/-- One element of four bytes. -/
def word : Buffer UInt32 where
  ptr := some ⟨0, [1]⟩
  size := 1

theorem not_export_import_word :
    ¬∀ b : Buffer UInt32, b.Valid → b.Reimports ∧ b.WritesOutput := by
  intro hall
  have hvalid : word.Valid := ⟨rfl, by simp [word]⟩
  rcases (reimports_iff hvalid).1 (hall word hvalid).1 with hone | hzero
  · exact absurd hone (by decide)
  · exact absurd hzero (by decide)

end Rules

end Utlib.Buffer
