import Mathlib.Data.Finset.Card
import Mathlib.Order.Interval.Finset.Nat
import Utlib.Loop
import Utlib.Numeral
import Utlib.Path

/-! `makeUniquePath` (io/Files.cpp). -/

namespace Utlib.Files

open Utlib.Numeral Utlib.Path

/-- The paths for which `stat` succeeds, with the sizes that it reports. They are C strings, so that
no name has a null character in it. -/
structure Existing where
  stat : Path → Option Nat

namespace Existing

variable (d : Existing) (p : Path)

def getSizeOfFile : Int :=
  match d.stat p with
  | none => -1
  | some size => size

def fileExists : Bool := d.getSizeOfFile p ≥ 0

/-- The candidate with this number -/
def numbered (p : Path) (nr : Nat) : Path :=
  p.parentPath / Path.parse (p.stem ++ Nat.toDigits 10 nr ++ p.extension)

/-- A round of the loop of `makeUniquePath`, which gives nothing if its counter overflows. -/
def uniqueRound (nr : Nat) : Option Path ⊕ Nat :=
  if ¬d.fileExists (numbered p nr) then .inl (some (numbered p nr))
  else if nr + 1 < 2 ^ 63 then .inr (nr + 1) else .inl none

/-- The outer `none` is a loop that has not ended after so many rounds. -/
def makeUniquePath (rounds : Nat) : Option (Option Path) :=
  if ¬d.fileExists p then some (some p) else Loop.run (d.uniqueRound p) rounds 2

def Yields (r : Option Path) : Prop := ∃ rounds, d.makeUniquePath p rounds = some r

structure FindsFirstFree : Prop where
  free : d.fileExists p = false → d.Yields p (some p)
  taken : d.fileExists p = true → ∃ n result, d.Yields p (some result) ∧
    d.fileExists result = false ∧ result.parentPath = p.parentPath ∧
    result.extension = p.extension ∧ result.stem = p.stem ++ Nat.toDigits 10 n ∧
    2 ≤ n ∧ ∀ m, 2 ≤ m → m < n → d.fileExists (numbered p m) = true

variable {d p}

/-- The numbers whose candidates exist -/
def taken (d : Existing) (p : Path) : Finset Nat :=
  (Finset.Ico 2 (2 ^ 63)).filter fun n => d.fileExists (numbered p n)

theorem fileExists_iff : d.fileExists p = true ↔ (d.stat p).isSome := by
  rw [fileExists, getSizeOfFile, decide_eq_true_iff]
  cases d.stat p with
  | none => decide
  | some size => simp

theorem yields_iff (h : d.fileExists p = true) (r : Option Path) :
    d.Yields p r ↔ Loop.Ends (d.uniqueRound p) 2 r := by
  simp only [Yields, makeUniquePath, h]
  rfl

theorem Yields.unique (h : d.fileExists p = true) {r r' : Option Path} (hr : d.Yields p r)
    (hr' : d.Yields p r') : r = r' :=
  ((yields_iff h r).1 hr).unique ((yields_iff h r').1 hr')

/-- The numbers below `n` are passed over. -/
theorem ends_iff_of_taken {n : Nat} (hle : 2 ≤ n) (hlt : n < 2 ^ 63)
    (htaken : ∀ m, 2 ≤ m → m < n → d.fileExists (numbered p m) = true) (r : Option Path) :
    Loop.Ends (d.uniqueRound p) 2 r ↔ Loop.Ends (d.uniqueRound p) n r := by
  obtain ⟨k, rfl⟩ := Nat.exists_eq_add_of_le hle
  refine Loop.ends_iff_of_rounds (fun k => 2 + k) fun j hj => ?_
  rw [uniqueRound, htaken (2 + j) (by omega) (by omega), if_neg (by simp), if_pos (by omega)]
  rfl

theorem yields_numbered {n : Nat} (h : d.fileExists p = true) (hle : 2 ≤ n) (hlt : n < 2 ^ 63)
    (hfree : d.fileExists (numbered p n) = false)
    (htaken : ∀ m, 2 ≤ m → m < n → d.fileExists (numbered p m) = true) :
    d.Yields p (some (numbered p n)) := by
  rw [yields_iff h, ends_iff_of_taken hle hlt htaken]
  apply Loop.ends_of_inl
  rw [uniqueRound, hfree, if_pos (by simp)]

theorem yields_none (h : d.fileExists p = true)
    (htaken : ∀ m, 2 ≤ m → m < 2 ^ 63 → d.fileExists (numbered p m) = true) :
    d.Yields p none := by
  rw [yields_iff h, ends_iff_of_taken (n := 2 ^ 63 - 1) (by omega) (by omega)
    fun m hm hlt => htaken m hm (by omega)]
  apply Loop.ends_of_inl
  rw [uniqueRound, htaken _ (by omega) (by omega), if_neg (by simp), if_neg (by omega)]

section Candidates

theorem not_mem_slash_filename (hp : p.WellFormed) : '/' ∉ p.filename := by
  rw [filename]
  cases hlast : p.parts.getLast? with
  | none => exact List.not_mem_nil
  | some c => exact hp.not_mem_slash c (List.mem_of_getLast? hlast)

/-- The file name of a candidate -/
def numberedName (p : Path) (nr : Nat) : List Char := p.stem ++ Nat.toDigits 10 nr ++ p.extension

theorem numbered_eq (hp : p.WellFormed) (nr : Nat) :
    numbered p nr = ⟨p.absolute, p.parts.dropLast ++ [numberedName p nr]⟩ := by
  have hne : numberedName p nr ≠ [] := by simp [numberedName, Nat.toDigits_ne_nil]
  have hslash : '/' ∉ numberedName p nr := by
    have hfilename := not_mem_slash_filename hp
    rw [← p.stem_append_extension, List.mem_append] at hfilename
    rw [numberedName, List.mem_append, List.mem_append]
    rintro ((hmem | hmem) | hmem)
    · exact hfilename (.inl hmem)
    · exact not_mem_toDigits (by decide) nr hmem
    · exact hfilename (.inr hmem)
  exact parentPath_div hp hne hslash

theorem filename_numbered (hp : p.WellFormed) (nr : Nat) :
    (numbered p nr).filename = numberedName p nr := by
  rw [numbered_eq hp, filename, List.getLast?_concat, Option.getD_some]

theorem parentPath_numbered (hp : p.WellFormed) (nr : Nat) :
    (numbered p nr).parentPath = p.parentPath := by
  rw [numbered_eq hp, parentPath, List.dropLast_concat]
  rfl

theorem stem_numbered (hp : p.WellFormed) (hname : p.filename ≠ dotdot) (nr : Nat) :
    (numbered p nr).stem = p.stem ++ Nat.toDigits 10 nr := by
  have hperiod : '.' ∉ Nat.toDigits 10 nr := not_mem_toDigits (by decide) nr
  have hne : p.stem ++ Nat.toDigits 10 nr ≠ [] := by simp [Nat.toDigits_ne_nil]
  rw [stem, filename_numbered hp, numberedName]
  rcases exists_extension p.filename with ⟨x, e, hx, he, hf⟩ | htail
  · have hstem : p.stem = x := by
      rw [stem, hf]
      exact stemOf_append hx he (hf ▸ hname)
    have hext : p.extension = '.' :: e := by rw [extension, hstem, hf, List.drop_left]
    rw [hext]
    refine stemOf_append hne he fun hdots => ?_
    obtain ⟨c, cs, hdigits⟩ := List.exists_cons_of_ne_nil (Nat.toDigits_ne_nil (b := 10) (n := nr))
    have hc : c ∈ dotdot := by
      rw [← hdots, hdigits]
      simp
    rw [hdigits] at hperiod
    simp at hc
    exact hperiod (by simp [hc])
  · have hstem : p.stem = p.filename := stemOf_eq_self htail
    have hext : p.extension = [] := by rw [extension, hstem, List.drop_length]
    rw [hext, List.append_nil, hstem]
    apply stemOf_eq_self
    cases hf : p.filename with
    | nil =>
      rw [List.nil_append]
      exact fun hmem => hperiod (List.mem_of_mem_tail hmem)
    | cons c t =>
      rw [hf] at htail
      rw [List.cons_append, List.tail_cons, List.mem_append]
      rintro (hmem | hmem)
      · exact htail hmem
      · exact hperiod hmem

theorem extension_numbered (hp : p.WellFormed) (hname : p.filename ≠ dotdot) (nr : Nat) :
    (numbered p nr).extension = p.extension := by
  rw [extension, stem_numbered hp hname, filename_numbered hp, numberedName, List.drop_left]

theorem numbered_ne (hp : p.WellFormed) (nr : Nat) : numbered p nr ≠ p := by
  intro h
  have hlen := congrArg (fun q => q.filename.length) h
  have hpos := List.length_pos_of_ne_nil (Nat.toDigits_ne_nil (b := 10) (n := nr))
  simp only [filename_numbered hp, numberedName, ← p.stem_append_extension, List.length_append]
    at hlen
  omega

/-- So many numbers are not all of them. -/
theorem exists_free (hcard : (d.taken p).card < 2 ^ 63 - 2) :
    ∃ n, 2 ≤ n ∧ n < 2 ^ 63 ∧ d.fileExists (numbered p n) = false := by
  by_contra hnone
  push Not at hnone
  have hall : d.taken p = Finset.Ico 2 (2 ^ 63) := by
    rw [taken, Finset.filter_eq_self]
    intro n hn
    rw [Finset.mem_Ico] at hn
    exact Bool.not_eq_false _ ▸ hnone n hn.1 hn.2
  rw [hall, Nat.card_Ico] at hcard
  omega

end Candidates

theorem findsFirstFree (d : Existing) (s : List Char)
    (hcard : (d.taken (Path.parse s)).card < 2 ^ 63 - 2)
    (hname : (Path.parse s).filename ≠ dotdot) : d.FindsFirstFree (Path.parse s) := by
  have hp := wellFormed_parse s
  constructor
  case free =>
    intro hfree
    refine ⟨0, ?_⟩
    rw [makeUniquePath, hfree, if_pos (by simp)]
  case taken =>
    intro htaken
    have hexists := exists_free hcard
    obtain ⟨hle, hlt, hfree⟩ := Nat.find_spec hexists
    have hbelow : ∀ m, 2 ≤ m → m < Nat.find hexists →
        d.fileExists (numbered (Path.parse s) m) = true := by
      intro m hm hmlt
      by_contra hnot
      exact Nat.find_min hexists hmlt ⟨hm, hmlt.trans hlt, by simpa using hnot⟩
    exact ⟨Nat.find hexists, _, yields_numbered htaken hle hlt hfree hbelow, hfree,
      parentPath_numbered hp _, extension_numbered hp hname _, stem_numbered hp hname _, hle,
      hbelow⟩

/-- Empty files at these places -/
def ofPaths (paths : Finset Path) : Existing where
  stat p := if p ∈ paths then some 0 else none

theorem fileExists_ofPaths {paths : Finset Path} :
    (ofPaths paths).fileExists p = true ↔ p ∈ paths := by
  rw [fileExists_iff]
  change (if p ∈ paths then some 0 else none).isSome ↔ _
  split <;> simp [*]

theorem findsFirstFree_taken :
    (ofPaths {Path.parse "unique2/taken.txt".toList}).FindsFirstFree
      (Path.parse "unique2/taken.txt".toList) := by
  apply findsFirstFree
  · have hnone : (ofPaths {Path.parse "unique2/taken.txt".toList}).taken
        (Path.parse "unique2/taken.txt".toList) = ∅ := by
      rw [taken, Finset.filter_eq_empty_iff]
      intro n _ hn
      rw [fileExists_ofPaths, Finset.mem_singleton] at hn
      exact numbered_ne (wellFormed_parse _) n hn
    rw [hnone, Finset.card_empty]
    decide
  · decide

/-- All candidates for a name are taken. -/
def crowded (p : Path) : Existing := ofPaths (insert p ((Finset.Ico 2 (2 ^ 63)).image (numbered p)))

theorem not_findsFirstFree_dotdot :
    ¬(ofPaths {Path.parse "..".toList}).FindsFirstFree (Path.parse "..".toList) ∧
      ¬(crowded (Path.parse "a".toList)).FindsFirstFree (Path.parse "a".toList) := by
  constructor
  · intro h
    have htaken :
        (ofPaths {Path.parse "..".toList}).fileExists (Path.parse "..".toList) = true := by
      rw [fileExists_ofPaths]
      exact Finset.mem_singleton_self _
    have hfree : (ofPaths {Path.parse "..".toList}).fileExists
        (numbered (Path.parse "..".toList) 2) = false := by
      rw [← Bool.not_eq_true, fileExists_ofPaths]
      exact fun hmem => numbered_ne (wellFormed_parse _) 2 (Finset.mem_singleton.1 hmem)
    have hyields := yields_numbered htaken le_rfl (by decide) hfree fun m hm hlt => by omega
    obtain ⟨n, result, hresult, -, -, hext, -⟩ := h.taken htaken
    cases hresult.unique htaken hyields
    exact absurd hext (by decide)
  · intro h
    have htaken : (crowded (Path.parse "a".toList)).fileExists (Path.parse "a".toList) = true := by
      rw [crowded, fileExists_ofPaths]
      exact Finset.mem_insert_self _ _
    have hall : ∀ m, 2 ≤ m → m < 2 ^ 63 → (crowded (Path.parse "a".toList)).fileExists
        (numbered (Path.parse "a".toList) m) = true := by
      intro m hm hlt
      rw [crowded, fileExists_ofPaths]
      exact Finset.mem_insert_of_mem (Finset.mem_image_of_mem _ (Finset.mem_Ico.2 ⟨hm, hlt⟩))
    obtain ⟨n, result, hresult, -⟩ := h.taken htaken
    cases hresult.unique htaken (yields_none htaken hall)

end Existing

end Utlib.Files
