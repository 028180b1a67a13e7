import Mathlib.Data.List.Infix

/-! `utl::matchingStreamHeader` (io/Files.cpp) on a `std::istream`. -/

namespace Utlib

/-- A `std::istream` over `content`. The stream buffer decides which positions behind the end it
accepts. -/
structure IStream where
  content : List UInt8
  accepts : Nat → Bool
  accepts_of_le : ∀ p, p ≤ content.length → accepts p = true
  pos : Nat
  eofbit : Bool := false
  failbit : Bool := false

namespace IStream

/-- `none` is `traits::eof()`. -/
def get (s : IStream) : Option UInt8 × IStream :=
  if s.eofbit ∨ s.failbit then (none, { s with failbit := true })
  else
    match s.content[s.pos]? with
    | some b => (some b, { s with pos := s.pos + 1 })
    | none => (none, { s with eofbit := true, failbit := true })

/-- `seekg(offset, std::ios::beg)` -/
def seekg (s : IStream) (offset : Nat) : IStream :=
  if s.failbit then { s with eofbit := false }
  else if s.accepts offset then { s with eofbit := false, pos := offset }
  else { s with eofbit := false, failbit := true }

def Good (s : IStream) : Prop := s.eofbit = false ∧ s.failbit = false

/-- The next read is one of the first byte. -/
def Rewound (s : IStream) : Prop := s.Good ∧ s.pos = 0

end IStream

namespace Files

open IStream

def matchHeader : List UInt8 → IStream → Bool × IStream
  | [], s => (true, s.seekg 0)
  | b :: header, s =>
    let (c, s) := s.get
    if c ≠ some b then (false, s.seekg 0) else matchHeader header s

def matchingStreamHeader (s : IStream) (header : List UInt8) (offset : Nat) : Bool × IStream :=
  matchHeader header (s.seekg offset)

structure Probe where
  header : List UInt8
  offset : Nat

/-- The answers of `probes` on one stream are those that its content gives, and each leaves the
stream at its start. -/
def Repeatable : List Probe → IStream → Prop
  | [], _ => True
  | p :: probes, s =>
    let (found, t) := matchingStreamHeader s p.header p.offset
    (found = true ↔ p.header <+: s.content.drop p.offset) ∧ t.Rewound ∧ Repeatable probes t

/-- The content ends within the header, or before it starts. -/
def Overruns (s : IStream) (p : Probe) : Prop :=
  (s.content.drop p.offset <+: p.header ∧ s.content.drop p.offset ≠ p.header) ∨
    s.accepts p.offset = false

section Spec

variable {s : IStream}

/-- The stream `t` reads the same data as `s`. -/
def SameData (s t : IStream) : Prop := t.content = s.content ∧ t.accepts = s.accepts

theorem seekg_zero (h : s.Good) : (s.seekg 0).Rewound ∧ SameData s (s.seekg 0) := by
  simp [seekg, h.2, s.accepts_of_le 0 (Nat.zero_le _), Rewound, Good, SameData]

theorem seekg_zero_of_failbit (h : s.failbit = true) :
    (s.seekg 0).failbit = true ∧ SameData s (s.seekg 0) := by
  simp [seekg, h, SameData]

theorem matchHeader_spec (h : s.Good) (header : List UInt8) :
    ((matchHeader header s).1 = true ↔ header <+: s.content.drop s.pos) ∧
      ((matchHeader header s).2.Rewound ↔
        ¬(s.content.drop s.pos <+: header ∧ s.content.drop s.pos ≠ header)) ∧
      SameData s (matchHeader header s).2 := by
  induction header generalizing s with
  | nil =>
    have hzero := seekg_zero h
    simp [matchHeader, hzero]
  | cons b header ih =>
    cases hb : s.content[s.pos]? with
    | none =>
      have hrest : s.content.drop s.pos = [] :=
        List.drop_of_length_le (List.getElem?_eq_none_iff.1 hb)
      have hget : s.get = (none, { s with eofbit := true, failbit := true }) := by
        simp [IStream.get, h.1, h.2, hb]
      simp [matchHeader, hget, hrest, seekg, Rewound, Good, SameData]
    | some b' =>
      obtain ⟨hlt, hb⟩ := List.getElem?_eq_some_iff.1 hb
      have hrest : s.content.drop s.pos = b' :: s.content.drop (s.pos + 1) := by
        rw [List.drop_eq_getElem_cons hlt, hb]
      have hget : s.get = (some b', { s with pos := s.pos + 1 }) := by
        simp [IStream.get, h.1, h.2, hlt, hb]
      by_cases hbb : b' = b
      · have hih := ih (s := { s with pos := s.pos + 1 }) h
        simpa [matchHeader, hget, hrest, hbb, SameData] using hih
      · have hzero := seekg_zero (s := { s with pos := s.pos + 1 }) h
        simp [matchHeader, hget, hrest, hbb, Ne.symm hbb, hzero.1, List.cons_prefix_cons]
        exact hzero.2

theorem matchHeader_of_failbit (h : s.failbit = true) (header : List UInt8) :
    ((matchHeader header s).1 = true ↔ header = []) ∧
      (matchHeader header s).2.failbit = true ∧ SameData s (matchHeader header s).2 := by
  cases header with
  | nil => simp [matchHeader, seekg_zero_of_failbit h]
  | cons b header => simp [matchHeader, IStream.get, h, seekg, SameData]

theorem matchingStreamHeader_spec (h : s.Good) (p : Probe) :
    ((matchingStreamHeader s p.header p.offset).1 = true ↔
        p.header <+: s.content.drop p.offset) ∧
      ((matchingStreamHeader s p.header p.offset).2.Rewound ↔ ¬Overruns s p) ∧
      SameData s (matchingStreamHeader s p.header p.offset).2 := by
  by_cases haccepts : s.accepts p.offset = true
  · have hseek : s.seekg p.offset = { s with eofbit := false, pos := p.offset } := by
      simp [seekg, h.2, haccepts]
    have hspec := matchHeader_spec (s := { s with eofbit := false, pos := p.offset }) ⟨rfl, h.2⟩
      p.header
    simpa [matchingStreamHeader, hseek, Overruns, haccepts, SameData] using hspec
  · have hseek : s.seekg p.offset = { s with eofbit := false, failbit := true } := by
      simp [seekg, h.2, haccepts]
    have hend : s.content.drop p.offset = [] := by
      apply List.drop_of_length_le
      have hlt : ¬p.offset ≤ s.content.length := fun hle => haccepts (s.accepts_of_le _ hle)
      omega
    obtain ⟨hfound, hfail, hsame⟩ := matchHeader_of_failbit
      (s := { s with eofbit := false, failbit := true }) rfl p.header
    refine ⟨?_, ?_, ?_⟩
    · simp [matchingStreamHeader, hseek, hfound, hend]
    · simp [matchingStreamHeader, hseek, Rewound, Good, hfail, Overruns, haccepts]
    · simpa [matchingStreamHeader, hseek, SameData] using hsame

theorem SameData.overruns_iff {t : IStream} (h : SameData s t) (p : Probe) :
    Overruns t p ↔ Overruns s p := by
  rw [Overruns, Overruns, h.1, h.2]

theorem repeatable_iff (h : s.Good) (probes : List Probe) :
    Repeatable probes s ↔ ∀ p ∈ probes, ¬Overruns s p := by
  induction probes generalizing s with
  | nil => simp [Repeatable]
  | cons p probes ih =>
    obtain ⟨hfound, hrewound, hsame⟩ := matchingStreamHeader_spec h p
    rw [List.forall_mem_cons, ← hrewound]
    constructor
    · rintro ⟨_, ht, hrest⟩
      refine ⟨ht, fun q hq => ?_⟩
      rw [← hsame.overruns_iff q]
      exact (ih ht.1).1 hrest q hq
    · rintro ⟨ht, hprobes⟩
      refine ⟨hfound, ht, (ih ht.1).2 fun q hq => ?_⟩
      rw [hsame.overruns_iff q]
      exact hprobes q hq

def openFile (content : List UInt8) : IStream :=
  ⟨content, fun _ => true, fun _ _ => rfl, 0, false, false⟩

theorem repeatable_iff_two_probes :
    Repeatable [⟨[80, 75], 0⟩, ⟨[75, 3], 1⟩] (openFile [80, 75, 3]) ↔
      ∀ p ∈ [(⟨[80, 75], 0⟩ : Probe), ⟨[75, 3], 1⟩], ¬Overruns (openFile [80, 75, 3]) p :=
  repeatable_iff ⟨rfl, rfl⟩ _

/-- A probe for two bytes in a file of one makes the next probe fail. -/
theorem not_repeatable_short_file :
    ¬∀ (s : IStream) (probes : List Probe), s.Good → Repeatable probes s := by
  intro h
  have hshort := (h (openFile [80]) [⟨[80, 75], 0⟩, ⟨[80], 0⟩] ⟨rfl, rfl⟩).2.2
  exact absurd hshort.1 (by decide)

end Spec

end Files

end Utlib
