import Mathlib.Algebra.Order.Ring.Int
import Utlib.Files.Header
import Utlib.Loop

/-! `head` and `tail` (io/Streams.cpp). -/

namespace Utlib

def newline : UInt8 := 10

namespace IStream

/-- `std::getline`: the line without its end, or `none` if there is none. -/
def getline (s : IStream) : Option (List UInt8) × IStream :=
  if s.eofbit ∨ s.failbit then (none, { s with failbit := true })
  else
    let rest := s.content.drop s.pos
    let line := rest.takeWhile (· ≠ newline)
    if line.length < rest.length then (some line, { s with pos := s.pos + line.length + 1 })
    else if line = [] then (none, { s with eofbit := true, failbit := true })
    else (some line, { s with pos := s.pos + line.length, eofbit := true })

end IStream

namespace Streams

open Files (openFile)

def text (lines : List (List UInt8)) : List UInt8 := lines.flatMap (· ++ [newline])

/-- The loop of `head`, with what it writes -/
def headLoop : Nat → IStream → List UInt8
  | 0, _ => []
  | lines + 1, s =>
    match s.getline with
    | (none, _) => []
    | (some line, s) => line ++ [newline] ++ headLoop lines s

def head (s : IStream) (lines : Int) : List UInt8 := headLoop lines.toNat s

/-- A round of the loop of `tail`: a line is taken out of a full queue before the next one is put
in, and `none` is one taken out of an empty queue. -/
def tailRound (lines : Int) (s : IStream × List (List UInt8)) :
    Option (List UInt8) ⊕ IStream × List (List UInt8) :=
  match s.1.getline with
  | (none, _) => .inl (some (text s.2))
  | (some line, t) =>
    if (s.2.length : Int) = lines % 2 ^ 64 then
      match s.2 with
      | [] => .inl none
      | _ :: buf => .inr (t, buf ++ [line])
    else .inr (t, s.2 ++ [line])

def tail (rounds : Nat) (s : IStream) (lines : Int) : Option (Option (List UInt8)) :=
  Loop.run (tailRound lines) rounds (s, [])

def Tail (s : IStream) (lines : Int) (r : Option (List UInt8)) : Prop :=
  ∃ rounds, tail rounds s lines = some r

/-- The stream has just these lines in front of it. -/
structure Offers (s : IStream) (lines : List (List UInt8)) : Prop where
  good : s.Good
  rest_eq : s.content.drop s.pos = text lines
  not_mem_newline : ∀ l ∈ lines, newline ∉ l

structure Partitions (s : IStream) (lines : List (List UInt8)) (k : Nat) : Prop where
  last : k ≤ lines.length → Tail s k (some (text (lines.drop (lines.length - k))))
  first : k ≤ lines.length → head s (lines.length - k) = text (lines.take (lines.length - k))
  whole : k ≤ lines.length →
    ∀ out, Tail s k (some out) → head s (lines.length - k) ++ out = text lines
  beyond : lines.length < k → head s k = text lines ∧ Tail s k (some (text lines))
  never_empty : ¬Tail s k none

variable {s : IStream} {lines : List (List UInt8)}

theorem text_cons (l : List UInt8) (lines : List (List UInt8)) :
    text (l :: lines) = l ++ newline :: text lines := by
  rw [text, List.flatMap_cons, List.append_assoc]
  rfl

theorem text_append (ls ms : List (List UInt8)) : text (ls ++ ms) = text ls ++ text ms :=
  List.flatMap_append

theorem Offers.getline_nil (h : Offers s []) : s.getline.1 = none := by
  have hgood : ¬(s.eofbit = true ∨ s.failbit = true) := by simp [h.good.1, h.good.2]
  have hrest : s.content.drop s.pos = [] := h.rest_eq
  rw [IStream.getline, if_neg hgood]
  simp [hrest]

theorem Offers.getline_cons {l : List UInt8} (h : Offers s (l :: lines)) :
    ∃ t, s.getline = (some l, t) ∧ Offers t lines := by
  have hgood : ¬(s.eofbit = true ∨ s.failbit = true) := by simp [h.good.1, h.good.2]
  have hl : newline ∉ l := h.not_mem_newline l List.mem_cons_self
  have hrest : s.content.drop s.pos = l ++ newline :: text lines := h.rest_eq.trans (text_cons l _)
  have hline : (s.content.drop s.pos).takeWhile (· ≠ newline) = l := by
    rw [hrest, List.takeWhile_append_of_pos, List.takeWhile_cons_of_neg (by simp), List.append_nil]
    intro x hx
    simpa using fun heq : x = newline => hl (heq ▸ hx)
  have hlt : l.length < (s.content.drop s.pos).length := by
    rw [hrest, List.length_append, List.length_cons]
    omega
  refine ⟨{ s with pos := s.pos + l.length + 1 }, ?_, h.good, ?_, fun m hm => ?_⟩
  · rw [IStream.getline, if_neg hgood]
    simp only [hline, if_pos hlt]
  · rw [Nat.add_assoc, ← List.drop_drop, hrest, ← List.drop_drop, List.drop_left]
    rfl
  · exact h.not_mem_newline m (List.mem_cons_of_mem l hm)

theorem Offers.headLoop_eq (h : Offers s lines) (n : Nat) :
    headLoop n s = text (lines.take n) := by
  induction n generalizing s lines with
  | zero => rfl
  | succ n ih =>
    rw [headLoop]
    cases lines with
    | nil =>
      have hnone := h.getline_nil
      split
      · rfl
      · next heq => rw [heq] at hnone; cases hnone
    | cons l lines =>
      obtain ⟨t, hline, ht⟩ := h.getline_cons
      rw [hline, List.take_succ_cons, text_cons, ← ih ht]
      exact List.append_assoc l [newline] _

theorem Offers.head_eq (h : Offers s lines) (n : Nat) :
    head s n = text (lines.take n) := h.headLoop_eq n

theorem Offers.tailRound_nil (h : Offers s []) (k : Int) (buf : List (List UInt8)) :
    tailRound k (s, buf) = .inl (some (text buf)) := by
  have hnone := h.getline_nil
  rw [tailRound]
  split
  · rfl
  · next heq => rw [heq] at hnone; cases hnone

/-- The queue keeps the last `k` of the lines read so far. -/
theorem Offers.ends_tailRound (h : Offers s lines) {k : Nat} (hpos : 0 < k) (hk : k < 2 ^ 63)
    {buf : List (List UInt8)} (hbuf : buf.length ≤ k) :
    Loop.Ends (tailRound k) (s, buf)
      (some (text ((buf ++ lines).drop ((buf ++ lines).length - k)))) := by
  have hmod : (k : Int) % 2 ^ 64 = k := Int.emod_eq_of_lt (by omega) (by omega)
  induction lines generalizing s buf with
  | nil =>
    rw [List.append_nil, Nat.sub_eq_zero_of_le hbuf, List.drop_zero]
    exact Loop.ends_of_inl (h.tailRound_nil k buf)
  | cons l lines ih =>
    obtain ⟨t, hline, ht⟩ := h.getline_cons
    by_cases hfull : buf.length = k
    · obtain ⟨b, rest, rfl⟩ := List.exists_cons_of_length_pos (hfull.symm ▸ hpos)
      have hround : tailRound k (s, b :: rest) = .inr (t, rest ++ [l]) := by
        simp only [tailRound, hline, hmod, hfull, if_true]
      have hdrop : (b :: rest ++ l :: lines).length - k =
          (rest ++ [l] ++ lines).length - k + 1 := by
        simp only [List.length_append, List.length_cons, List.length_nil] at hfull ⊢
        omega
      rw [Loop.ends_iff_of_inr hround, hdrop, List.cons_append, List.drop_succ_cons,
        List.append_cons rest l lines]
      apply ih ht
      rw [List.length_append, List.length_singleton]
      exact hfull.le
    · have hround : tailRound k (s, buf) = .inr (t, buf ++ [l]) := by
        have hne : ¬(buf.length : Int) = k := by omega
        simp only [tailRound, hline, hmod, hne, if_false]
      rw [Loop.ends_iff_of_inr hround, List.append_cons buf l lines]
      apply ih ht
      rw [List.length_append, List.length_singleton]
      omega

theorem Offers.tail_eq (h : Offers s lines) {k : Nat} (hpos : 0 < k) (hk : k < 2 ^ 63) :
    Tail s k (some (text (lines.drop (lines.length - k)))) :=
  h.ends_tailRound hpos hk (Nat.zero_le k)

theorem Tail.unique {k : Int} {r r' : Option (List UInt8)} (h : Tail s k r) (h' : Tail s k r') :
    r = r' :=
  Loop.Ends.unique h h'

/-- With no lines to be kept the first line is too much. -/
theorem Offers.tail_zero {l : List UInt8} (h : Offers s (l :: lines)) : Tail s (0 : Nat) none := by
  obtain ⟨t, hline, -⟩ := h.getline_cons
  have hround : tailRound (0 : Nat) (s, []) = .inl none := by
    simp only [tailRound, hline]
    rfl
  exact Loop.ends_of_inl hround

/-- The deque is never empty when a line has to be taken out of it. -/
theorem Offers.partitions (h : Offers s lines) {k : Nat} (hk : k < 2 ^ 63)
    (hwhen : 0 < k ∨ lines = []) : Partitions s lines k := by
  have htail : Tail s k (some (text (lines.drop (lines.length - k)))) := by
    rcases hwhen with hpos | rfl
    · exact h.tail_eq hpos hk
    · rw [List.drop_nil]
      exact Loop.ends_of_inl (h.tailRound_nil k [])
  have hhead (hle : k ≤ lines.length) :
      head s (lines.length - k) = text (lines.take (lines.length - k)) := by
    rw [← Int.ofNat_sub hle]
    exact h.head_eq (lines.length - k)
  constructor
  case last => exact fun _ => htail
  case first => exact hhead
  case whole =>
    intro hle out hout
    cases hout.unique htail
    rw [hhead hle, ← text_append, List.take_append_drop]
  case beyond =>
    intro hlt
    have hall := h.head_eq k
    rw [List.take_of_length_le hlt.le] at hall
    rw [Nat.sub_eq_zero_of_le hlt.le, List.drop_zero] at htail
    exact ⟨hall, htail⟩
  case never_empty =>
    intro hnone
    cases hnone.unique htail

theorem partitions_iff (h : Offers s lines) {k : Nat} (hk : k < 2 ^ 63) :
    Partitions s lines k ↔ 0 < k ∨ lines = [] := by
  constructor
  · intro hpartitions
    cases lines with
    | nil => exact .inr rfl
    | cons l lines =>
      rcases Nat.eq_zero_or_pos k with rfl | hpos
      · exact absurd h.tail_zero hpartitions.never_empty
      · exact .inl hpos
  · exact h.partitions hk

theorem offers_openFile {lines : List (List UInt8)} (h : ∀ l ∈ lines, newline ∉ l) :
    Offers (openFile (text lines)) lines :=
  ⟨⟨rfl, rfl⟩, rfl, h⟩

theorem partitions_two_lines : Partitions (openFile [97, 10, 98, 99, 10]) [[97], [98, 99]] 1 := by
  have hoffers : Offers (openFile (text [[97], [98, 99]])) [[97], [98, 99]] :=
    offers_openFile (by decide)
  exact (partitions_iff hoffers (by decide)).2 (.inl (by decide))

theorem not_partitions_no_lines : ¬Partitions (openFile [97, 10]) [[97]] 0 := by
  intro h
  have hoffers : Offers (openFile (text [[97]])) [[97]] := offers_openFile (by decide)
  exact h.never_empty hoffers.tail_zero

end Streams

end Utlib
