import Utlib.Fields
import Utlib.Loop

/-! `split` and `concat` (support/Strings.cpp). -/

namespace Utlib.Strings

open Fields

/-- `s.find(c, pos)`, with `none` for `npos` -/
def find (s : List Char) (c : Char) (pos : Nat) : Option Nat :=
  ((s.drop pos).findIdx? (· == c)).map (pos + ·)

/-- `s.substr(pos, n)` -/
def substr (s : List Char) (pos n : Nat) : List Char := (s.drop pos).take n

/-- A round of the loop of `split`, from the fields found so far and `start` -/
def splitRound (s : List Char) (delimiter : Char) :
    List (List Char) × Nat → List (List Char) ⊕ List (List Char) × Nat
  | (result, start) =>
    match find s delimiter start with
    | none => .inl (result ++ [s.drop start])
    | some pos => .inr (result ++ [substr s start (pos - start)], pos + 1)

/-- The outer `none` is a loop that has not ended after so many rounds. -/
def split (rounds : Nat) (s : List Char) (delimiter : Char) : Option (List (List Char)) :=
  Loop.run (splitRound s delimiter) rounds ([], 0)

def Splits (s : List Char) (delimiter : Char) (fields : List (List Char)) : Prop :=
  ∃ rounds, split rounds s delimiter = some fields

def concatField (delim : List Char) : List Char × Nat → List Char → List Char × Nat
  | (result, count), it =>
    if it.isEmpty then (result, count)
    else ((if count ≠ 0 then result ++ delim else result) ++ it, count + 1)

/-- `concat(s, delim, ldelim, rdelim)` -/
def concat (s : List (List Char)) (delim ldelim rdelim : List Char) : List Char :=
  let (result, count) := s.foldl (concatField delim) ([], 0)
  if count > 1 then ldelim ++ result ++ rdelim else result

section Split

variable {s : List Char} {d : Char}

theorem find_eq_some {start pos : Nat} (h : find s d start = some pos) :
    ∃ field rest, s.drop start = field ++ d :: rest ∧ d ∉ field ∧ pos = start + field.length := by
  obtain ⟨i, hi, rfl⟩ := Option.map_eq_some_iff.1 h
  obtain ⟨hlt, hd, hbefore⟩ := List.findIdx?_eq_some_iff_getElem.1 hi
  refine ⟨(s.drop start).take i, (s.drop start).drop (i + 1), ?_, ?_, ?_⟩
  · rw [beq_iff_eq] at hd
    rw [← hd, ← List.drop_eq_getElem_cons hlt, List.take_append_drop]
  · intro hmem
    obtain ⟨j, hj, hget⟩ := List.mem_take_iff_getElem.1 hmem
    exact hbefore j (by omega) (by simpa using hget)
  · rw [List.length_take, Nat.min_eq_left (Nat.le_of_lt hlt)]

theorem find_eq_none {start : Nat} (h : find s d start = none) : d ∉ s.drop start := by
  rw [find, Option.map_eq_none_iff, List.findIdx?_eq_none_iff] at h
  intro hmem
  simpa using h d hmem

theorem run_splitRound {n start : Nat} (h : (s.drop start).length < n)
    (result : List (List Char)) :
    Loop.run (splitRound s d) n (result, start) = some (result ++ (s.drop start).splitOn d) := by
  induction n generalizing start result with
  | zero => omega
  | succ n ih =>
    rw [Loop.run, splitRound]
    cases hfind : find s d start with
    | none => rw [List.splitOn_eq_singleton (find_eq_none hfind)]
    | some pos =>
      obtain ⟨field, rest, hdrop, hmem, rfl⟩ := find_eq_some hfind
      have hrest : s.drop (start + field.length + 1) = rest := by
        rw [Nat.add_assoc, ← List.drop_drop, hdrop, List.append_cons,
          List.drop_left' (by simp)]
      have hfield : substr s start (start + field.length - start) = field := by
        rw [substr, hdrop, Nat.add_sub_cancel_left, List.take_left]
      have hlen := congrArg List.length hdrop
      rw [List.length_append, List.length_cons] at hlen
      simp only [hfield]
      rw [ih (by rw [hrest]; omega), hrest, hdrop,
        List.splitOn_append_cons_self_of_not_mem hmem, List.append_assoc, List.singleton_append]

/-- The loop ends, with the fields between the delimiters. -/
theorem splits_iff {fields : List (List Char)} : Splits s d fields ↔ fields = s.splitOn d := by
  have hrun : Loop.run (splitRound s d) (s.length + 1) ([], 0) = some (s.splitOn d) :=
    run_splitRound (Nat.lt_succ_self _) []
  constructor
  · intro h
    have hends : Loop.Ends (splitRound s d) ([], 0) fields := h
    exact hends.unique ⟨_, hrun⟩
  · rintro rfl
    exact ⟨_, hrun⟩

end Split

section Concat

variable {delim : List Char}

theorem foldl_concatField (v : List (List Char)) :
    v.foldl (concatField delim) ([], 0) =
      (delim.intercalate (filled v), (filled v).length) := by
  induction v using List.reverseRecOn with
  | nil => rfl
  | append_singleton v f ih =>
    rw [List.foldl_concat, ih]
    cases f with
    | nil =>
      rw [filled_concat_nil]
      rfl
    | cons c f =>
      rw [filled_concat_cons, intercalate_concat]
      cases filled v with
      | nil => rfl
      | cons g fs => simp [concatField]

theorem concat_eq (v : List (List Char)) (ldelim rdelim : List Char) :
    concat v delim ldelim rdelim =
      if 1 < (filled v).length then ldelim ++ delim.intercalate (filled v) ++ rdelim
      else delim.intercalate (filled v) := by
  rw [concat, foldl_concatField]

/-- Without delimiters at the ends, the fields that are not empty are joined. -/
theorem concat_plain (v : List (List Char)) :
    concat v delim [] [] = delim.intercalate (filled v) := by
  rw [concat_eq]
  simp

end Concat

/-- The fields of a string, and the string that joining them gives. Fields that are not empty and
without delimiters are found again when their join is split. -/
theorem splits_concat :
    (∀ s d, ∃ fields, (∀ r, Splits s d r ↔ r = fields) ∧ (∀ f ∈ fields, d ∉ f) ∧
      fields.length = s.count d + 1 ∧ [d].intercalate fields = s ∧
      concat fields [d] [] [] = collapse d (strip d s)) ∧
      ∀ v d, v ≠ [] → (∀ f ∈ v, f ≠ [] ∧ d ∉ f) → Splits (concat v [d] [] []) d v := by
  refine ⟨fun s d => ⟨s.splitOn d, fun r => splits_iff, fun f hf => not_mem_of_mem_splitOn hf,
    length_splitOn d s, List.intercalate_splitOn d, ?_⟩, fun v d hv hfields => ?_⟩
  · rw [concat_plain]
    exact intercalate_words d s
  · rw [splits_iff, concat_plain, filled_eq_self fun f hf => (hfields f hf).1,
      List.splitOn_intercalate d (fun f hf => (hfields f hf).2) hv]

/-- "a//b/" and the fields "ab" and "c" -/
theorem splits_concat_slashes :
    (split 4 ['a', '/', '/', 'b', '/'] '/').map (concat · ['/'] [] []) = some ['a', '/', 'b'] ∧
      Splits (concat [['a', 'b'], ['c']] ['/'] [] []) '/' [['a', 'b'], ['c']] :=
  ⟨by decide, splits_concat.2 [['a', 'b'], ['c']] '/' (by decide) (by decide)⟩

end Utlib.Strings
