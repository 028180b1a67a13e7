import Mathlib.Data.List.Infix
import Utlib.Buffer.Checksums

/-! `replace` (support/Bits.cpp) and `patch` of `utl::Buffer`. -/

namespace Utlib.Buffer

open Program Sequence

/-- The characters of a C string, without the NUL at its end -/
structure CString where
  chars : List UInt8
  no_nul : 0 ∉ chars

/-- `strncmp(p + i, sequence, n)` with the length of the sequence as `n`: it stops at the first
difference, which the NUL of neither string goes beyond. -/
def strncmp (p : List UInt8) (i : Nat) : List UInt8 → Except Failure Int
  | [] => .ok 0
  | c :: cs =>
    match p[i]? with
    | none => .error .outOfBounds
    | some x => if x = c then strncmp p (i + 1) cs else .ok (x.toNat - c.toNat)

def memcpy (p : List UInt8) (i : Nat) (xs : List UInt8) : Except Failure (List UInt8) :=
  if i + xs.length ≤ p.length then .ok (p.take i ++ xs ++ p.drop (i + xs.length))
  else .error .outOfBounds

/-- The loop from `i` on, with so many start positions left -/
def replaceFrom (p sequence substitute : List UInt8) : Nat → Nat → Except Failure (List UInt8)
  | 0, _ => .error .assertion
  | left + 1, i => do
    let order ← strncmp p i sequence
    if order = 0 then memcpy p i substitute
    else replaceFrom p sequence substitute left (i + 1)

def replace (p : List UInt8) (sequence substitute : CString) : Except Failure (List UInt8) :=
  if sequence.chars.length = substitute.chars.length then
    replaceFrom p sequence.chars substitute.chars (p.length - sequence.chars.length) 0
  else .error .assertion

/-- What the memory at `ptr` is after the call -/
def patch {T : Type} [Layout T] (b : Buffer T) (seq subst : CString) :
    Except Failure (List UInt8) :=
  if b.ptr.isSome then replace (b.memory b.bytesize) seq subst else .ok []

section Search

variable {p sequence substitute : List UInt8}

theorem strncmp_eq {i : Nat} (h : i + sequence.length ≤ p.length) :
    ∃ order, strncmp p i sequence = .ok order ∧ (order = 0 ↔ sequence <+: p.drop i) := by
  induction sequence generalizing i with
  | nil => exact ⟨0, rfl, by simp⟩
  | cons c cs ih =>
    rw [List.length_cons] at h
    have hi : i < p.length := by omega
    obtain ⟨order, hrest, hzero⟩ := ih (i := i + 1) (by omega)
    rw [strncmp, List.getElem?_eq_getElem hi, List.drop_eq_getElem_cons hi, List.cons_prefix_cons]
    by_cases hc : p[i] = c
    · refine ⟨order, (if_pos hc).trans hrest, ?_⟩
      rw [hzero, and_iff_right hc.symm]
    · refine ⟨_, if_neg hc, ?_⟩
      have hnat : p[i].toNat ≠ c.toNat := fun h => hc (UInt8.toNat_inj.1 h)
      exact iff_of_false (by omega) fun h => hc h.1.symm

/-- The loop stops at the first occurrence that it comes to. -/
theorem replaceFrom_of_occurs (hlen : sequence.length = substitute.length) {left i j : Nat}
    (hsize : i + left + sequence.length ≤ p.length) (hj : j < left)
    (hoccurs : sequence <+: p.drop (i + j)) (hfirst : ∀ l < j, ¬sequence <+: p.drop (i + l)) :
    replaceFrom p sequence substitute left i =
      .ok (p.take (i + j) ++ substitute ++ p.drop (i + j + sequence.length)) := by
  induction left generalizing i j with
  | zero => exact absurd hj (Nat.not_lt_zero j)
  | succ left ih =>
    have hinside : i + sequence.length ≤ p.length := by omega
    obtain ⟨order, horder, hzero⟩ := strncmp_eq hinside
    rw [replaceFrom, horder]
    cases j with
    | zero =>
      change (if order = 0 then _ else _) = _
      rw [if_pos (hzero.2 hoccurs), memcpy, if_pos (by omega), hlen]
      rfl
    | succ j =>
      change (if order = 0 then _ else _) = _
      rw [if_neg fun h => hfirst 0 j.succ_pos (hzero.1 h), ih (j := j) (by omega) (by omega)]
      · rw [Nat.add_assoc i 1, Nat.add_comm 1]
      · rwa [Nat.add_assoc i 1, Nat.add_comm 1]
      · intro l hl
        rw [Nat.add_assoc i 1, Nat.add_comm 1]
        exact hfirst (l + 1) (by omega)

theorem replaceFrom_of_not_occurs {left i : Nat} (hsize : i + left + sequence.length ≤ p.length)
    (h : ∀ j < left, ¬sequence <+: p.drop (i + j)) :
    replaceFrom p sequence substitute left i = .error .assertion := by
  induction left generalizing i with
  | zero => rfl
  | succ left ih =>
    have hinside : i + sequence.length ≤ p.length := by omega
    obtain ⟨order, horder, hzero⟩ := strncmp_eq hinside
    rw [replaceFrom, horder]
    change (if order = 0 then _ else _) = _
    rw [if_neg fun hz => h 0 left.succ_pos (hzero.1 hz)]
    apply ih (by omega)
    intro j hj
    rw [Nat.add_assoc i 1, Nat.add_comm 1]
    exact h (j + 1) (by omega)

theorem exists_first_occurrence (h : sequence <:+: p) :
    ∃ k, sequence <+: p.drop k ∧ ∀ j < k, ¬sequence <+: p.drop j := by
  have hoccurs : ∃ k, sequence <+: p.drop k := by
    obtain ⟨xs, ys, rfl⟩ := h
    refine ⟨xs.length, ys, ?_⟩
    rw [List.append_assoc, List.drop_left]
  exact ⟨Nat.find hoccurs, Nat.find_spec hoccurs, fun j hj => Nat.find_min hoccurs hj⟩

/-- The sequence occurs before the last byte. -/
theorem infix_dropLast_iff {k : Nat} (hne : sequence ≠ []) (hoccurs : sequence <+: p.drop k)
    (hfirst : ∀ j < k, ¬sequence <+: p.drop j) :
    sequence <:+: p.dropLast ↔ k + sequence.length < p.length := by
  have hpos := List.length_pos_of_ne_nil hne
  rw [List.dropLast_eq_take]
  constructor
  · rintro ⟨xs, ys, heq⟩
    have hlen := congrArg List.length heq
    rw [List.length_take, List.length_append, List.length_append] at hlen
    have hstart : sequence <+: p.drop xs.length := by
      refine List.IsPrefix.trans ⟨ys, ?_⟩ ((List.take_prefix (p.length - 1) p).drop xs.length)
      rw [← heq, List.append_assoc, List.drop_left]
    have hle : k ≤ xs.length := not_lt.1 fun hlt => hfirst _ hlt hstart
    omega
  · intro hlt
    obtain ⟨rest, hrest⟩ := hoccurs
    refine ⟨p.take k, rest.dropLast, ?_⟩
    have hne' : rest ≠ [] := by
      rintro rfl
      have hlen := congrArg List.length hrest
      rw [List.append_nil, List.length_drop] at hlen
      omega
    calc p.take k ++ sequence ++ rest.dropLast
        = (p.take k ++ sequence ++ rest).dropLast := (List.dropLast_append_of_ne_nil hne').symm
      _ = p.dropLast := by rw [List.append_assoc, hrest, List.take_append_drop]
      _ = p.take (p.length - 1) := List.dropLast_eq_take

end Search

section Patching

variable {p : List UInt8} {sequence substitute : CString}

theorem patch_eq_replace {T : Type} [Layout T] {b : Buffer T} (h : b.Valid) (hsize : b.size ≠ 0)
    (seq subst : CString) : b.patch seq subst = replace (Layout.bytes b.contents) seq subst := by
  have hptr : b.ptr.isSome := by
    rw [← Option.not_isNone, Bool.not_eq_true', Bool.eq_false_iff]
    exact fun hnone => hsize (h.null_iff.2 hnone)
  rw [patch, if_pos hptr, memory, bytesize, ← length_bytes_contents h, List.take_length]

/-- `replace`, and `patch` for every buffer with these bytes, put the substitute in the place of the
first occurrence and leave everything else as it is. -/
def ReplacesFirst (p : List UInt8) (sequence substitute : CString) : Prop :=
  ∃ before after, p = before ++ sequence.chars ++ after ∧
    (∀ j < before.length, ¬sequence.chars <+: p.drop j) ∧
    replace p sequence substitute = .ok (before ++ substitute.chars ++ after) ∧
    ∀ (T : Type) [Layout T] (b : Buffer T), b.Valid → Layout.bytes b.contents = p →
      b.patch sequence substitute = .ok (before ++ substitute.chars ++ after)

theorem replacesFirst_of_lt (hlen : sequence.chars.length = substitute.chars.length) {k : Nat}
    (hoccurs : sequence.chars <+: p.drop k) (hfirst : ∀ j < k, ¬sequence.chars <+: p.drop j)
    (hlt : k + sequence.chars.length < p.length) : ReplacesFirst p sequence substitute := by
  have hreplace : replace p sequence substitute =
      .ok (p.take k ++ substitute.chars ++ p.drop (k + sequence.chars.length)) := by
    rw [replace, if_pos hlen, replaceFrom_of_occurs (j := k) hlen (by omega) (by omega)]
    · rw [Nat.zero_add]
    · rwa [Nat.zero_add]
    · intro l hl
      rw [Nat.zero_add]
      exact hfirst l hl
  have htake : (p.drop k).take sequence.chars.length = sequence.chars :=
    (List.prefix_iff_eq_take.1 hoccurs).symm
  refine ⟨p.take k, p.drop (k + sequence.chars.length), ?_, ?_, hreplace, ?_⟩
  · conv_lhs => rw [← List.take_append_drop k p,
      ← List.take_append_drop sequence.chars.length (p.drop k), htake, List.drop_drop]
    rw [List.append_assoc]
  · intro j hj
    rw [List.length_take] at hj
    exact hfirst j (by omega)
  · rintro T _ b h rfl
    have hsize : b.size ≠ 0 := by
      intro hzero
      rw [length_bytes_contents h, hzero, Nat.zero_mul] at hlt
      omega
    rw [patch_eq_replace h hsize, hreplace]

/-- The loop does not come to the last start position. -/
theorem replace_of_ge {k : Nat} (hle : sequence.chars.length ≤ p.length)
    (hfirst : ∀ j < k, ¬sequence.chars <+: p.drop j)
    (hge : p.length ≤ k + sequence.chars.length) :
    replace p sequence substitute = .error .assertion := by
  rw [replace]
  split
  · apply replaceFrom_of_not_occurs (by omega)
    intro j hj
    rw [Nat.zero_add]
    exact hfirst j (by omega)
  · rfl

/-- An occurrence at the very end is overlooked, any other one is replaced. -/
theorem replacesFirst_iff (p : List UInt8) (sequence substitute : CString)
    (hne : sequence.chars ≠ []) (hlen : sequence.chars.length = substitute.chars.length)
    (hoccurs : sequence.chars <:+: p) :
    ReplacesFirst p sequence substitute ↔ sequence.chars <:+: p.dropLast := by
  obtain ⟨k, hstart, hfirst⟩ := exists_first_occurrence hoccurs
  rw [infix_dropLast_iff hne hstart hfirst]
  constructor
  · rintro ⟨before, after, -, -, hreplace, -⟩
    by_contra hge
    rw [replace_of_ge hoccurs.length_le hfirst (by omega)] at hreplace
    cases hreplace
  · intro hlt
    exact replacesFirst_of_lt hlen hstart hfirst hlt

def xx : CString := ⟨[0x58, 0x58], by decide⟩

def yy : CString := ⟨[0x59, 0x59], by decide⟩

theorem replacesFirst_inside :
    ReplacesFirst [0x61, 0x58, 0x58, 0x62] xx yy ↔
      [0x58, 0x58] <:+: [0x61, 0x58, 0x58, (0x62 : UInt8)].dropLast :=
  replacesFirst_iff [0x61, 0x58, 0x58, 0x62] xx yy (by decide) rfl (by decide)

theorem not_replacesFirst_whole :
    ¬∀ (p : List UInt8) (sequence substitute : CString), sequence.chars ≠ [] →
      sequence.chars.length = substitute.chars.length → sequence.chars <:+: p →
      ReplacesFirst p sequence substitute := by
  intro hall
  obtain ⟨before, after, -, -, hreplace, -⟩ :=
    hall [0x58, 0x58] xx yy (by decide) rfl (List.infix_refl _)
  cases hreplace

end Patching

end Utlib.Buffer
